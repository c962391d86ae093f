import Flowchart.Proofs.Root.Exchange

/-!
# Questions with two written branches

A question may have one branch. When both its answers are written, neither becomes one, and what is
left of the question is its icon: a document with an action in its place, without the answers and
the target, is built into the same nodes, columns, labels and edges (`build_two_sided`). The problem
with the question is noted when its icon is in the diagram, and then nothing else is different. It
is not there when an earlier node has the id, or when nothing is built where the question stands,
and then the problems are the same.

The question may stand anywhere in the document but in a value that is shown or kept with an edge,
for there the diagrams differ by the name of the block (`build_question_shown`).
-/

namespace Flowchart

/-- Something is written between the braces. -/
def Value.isFilled : Value → Bool
  | .nested body => !body.isEmpty
  | .object entries => !entries.isEmpty
  | _ => false

/-- A labelled question has both answers written. -/
structure Block.TwoSided (b : Block) (id : String) : Prop where
  /-- It is a question. -/
  question : b.name = "question"
  /-- Its label is its id. -/
  labelled : b.label? = some id
  /-- Something is written for both answers. -/
  answers : ∀ side : Side, (b.attributes.get? side.key).any Value.isFilled = true

/-- The attributes that tell a question from an action. -/
def questionKeys : List String := ["yes", "no", "next"]

/-- The action that shows the same as a question. -/
def Block.degraded (b : Block) : Block where
  name := "action"
  labels := b.labels
  body := b.body.filter fun s => !(s.attribute?.any fun p => questionKeys.contains p.1)
  span := b.span

/-- The action has all attributes of the question but those. -/
theorem Block.get?_degraded (b : Block) {key : String} (hkey : key ∉ questionKeys) :
    b.degraded.attributes.get? key = b.attributes.get? key := by
  have hpairs : b.degraded.body.filterMap Statement.attribute? =
      (b.body.filterMap Statement.attribute?).filter (!questionKeys.contains ·.1) := by
    rw [Block.degraded, List.filterMap_filter, List.filter_filterMap]
    refine List.filterMap_congr fun s _ => ?_
    cases s.attribute? with
    | none => rfl
    | some p => rfl
  unfold Block.attributes Attributes.ofStatements
  rw [hpairs, Table.get?_ofPairs, Table.get?_ofPairs, ← List.filter_reverse, List.find?_filter]
  congr 2
  funext p
  by_cases hp : p.1 = key
  · simp [hp, hkey]
  · simp [hp]

namespace Block.TwoSided

variable {question : Block} {id : String} (h : question.TwoSided id)

include h

/-- Each answer is a branch with something written in it. -/
theorem answer (side : Side) :
    ∃ branch, question.outline.branch side = some branch ∧ branch.isWritten = true := by
  have hbranch : question.outline.branch side =
      (question.attributes.get? side.key).bind Branch.ofValue := by
    refine Eq.trans ?_ (Branch.under_eq side.key question.body)
    cases side <;> rfl
  have hanswer := h.answers side
  rw [hbranch]
  cases hfound : question.attributes.get? side.key with
  | none =>
    rw [hfound] at hanswer
    exact absurd hanswer Bool.false_ne_true
  | some value =>
    rw [hfound] at hanswer
    cases value with
    | nested body => exact ⟨_, rfl, hanswer⟩
    | object entries => exact ⟨_, rfl, hanswer⟩
    | _ => exact absurd hanswer Bool.false_ne_true

/-- The question shows what the action shows. -/
theorem degrades : question.Degrades question.degraded id := by
  refine ⟨h.question, rfl, h.labelled, ⟨rfl, rfl, fun otherwise => ?_, ?_⟩, h.answer⟩
  · unfold Attributes.label Attributes.text?
    rw [question.get?_degraded (by decide), question.get?_degraded (by decide)]
  · unfold Attributes.trimmed?
    rw [question.get?_degraded (by decide)]

end Block.TwoSided

/-- The ids, columns and labels of the nodes of a diagram, and its edges. -/
def Diagram.shape (d : Diagram) : List (String × Nat × String) × List Edge :=
  (d.nodes.map fun n => (n.id, n.column, n.label), d.edges)

/-- The ids of the nodes of a diagram with their kinds. -/
def Diagram.kinds (d : Diagram) : List (String × NodeKind) := d.nodes.map Node.idAndKind

/-- A question with both answers written is built as an action without them would be in its place.
Either nothing is built of the question, and the problems and the kinds of the nodes are the same;
or it is one of the nodes, where the action is in the other diagram, and one more problem is
noted, the one with the question. -/
theorem build_two_sided (document other : List Statement) (question : Block) (id : String)
    (two : question.TwoSided id)
    (exchanged : Exchanged question question.degraded .document document other) :
    (Diagram.build other).1.map Diagram.shape = (Diagram.build document).1.map Diagram.shape ∧
      ((Diagram.build document).2 = (Diagram.build other).2 ∧
          (Diagram.build document).1.map Diagram.kinds =
            (Diagram.build other).1.map Diagram.kinds ∨
        ∃ before after upper lower,
          (Diagram.build document).2 = before ++ ⟨.twoBranches id, question.span⟩ :: after ∧
          (Diagram.build other).2 = before ++ after ∧
          (Diagram.build document).1.map Diagram.kinds =
            some (upper ++ (id, .question) :: lower) ∧
          (Diagram.build other).1.map Diagram.kinds = some (upper ++ (id, .action) :: lower)) := by
  have hquestion : question.name ≠ "drakon" := two.question ▸ (by decide)
  have haction : question.degraded.name ≠ "drakon" := (by decide : "action" ≠ "drakon")
  unfold Diagram.build
  rcases exchanged.rootBlock? hquestion haction with
    hsame | ⟨labels, span, inner, inner', hroot, hroot', inside⟩
  · rw [hsame]
    exact ⟨rfl, .inl ⟨rfl, rfl⟩⟩
  · have halike := Draft.ofRoot_alike two.degrades
      (inside.rootLike two.question rfl labels span)
    rw [hroot, hroot']
    dsimp only
    generalize Draft.ofRoot ⟨"drakon", labels, inner, span⟩ = d at halike ⊢
    generalize Draft.ofRoot ⟨"drakon", labels, inner', span⟩ = e at halike ⊢
    have hnodes := congrArg (List.map fun face : Face => (face.id, face.column, face.label))
      halike.faces
    rw [List.map_map, List.map_map] at hnodes
    refine ⟨congrArg some (Prod.ext hnodes halike.edges), ?_⟩
    -- The question stands in one place, so it is refused once or not at all.
    obtain ⟨times, hle, hproblems, hkinds⟩ := halike.explains
    obtain rfl | rfl := Nat.le_one_iff_eq_zero_or_eq_one.mp hle
    · exact .inl ⟨hproblems.eq_of_zero, congrArg some hkinds.eq_of_zero⟩
    · obtain ⟨before, after, hd, he⟩ := hproblems.split_of_one
      obtain ⟨upper, lower, hnodes, hothers⟩ := hkinds.split_of_one
      exact .inr ⟨before, after, upper, lower, hd, he, congrArg some hnodes,
        congrArg some hothers⟩

/-- A question with both answers and a target written. -/
def twoSidedQuestion : Block where
  name := "question"
  labels := ["q"]
  body :=
    [.attribute "yes" (.nested [.block "action" ["b"] [] .nowhere]) .nowhere,
      .attribute "no" (.nested [.block "action" ["c"] [] .nowhere]) .nowhere,
      .attribute "next" (.text "z") .nowhere]
  span := .nowhere

/-- A document with a block in a loop in the branch of a question. -/
def documentAround (b : Block) : List Statement :=
  [.block "drakon" ["d"]
    [.block "question" ["p"]
      [.attribute "yes" (.nested [.block "for_each" ["l"]
        [b.statement, .block "action" ["z"] [] .nowhere] .nowhere]) .nowhere] .nowhere] .nowhere]

/-- Deep in a document, the question is the icon `q` like the action, with one edge to the icon
below it. -/
theorem build_two_sided_deep :
    twoSidedQuestion.TwoSided "q" ∧
    Exchanged twoSidedQuestion twoSidedQuestion.degraded .document
      (documentAround twoSidedQuestion) (documentAround twoSidedQuestion.degraded) ∧
    ((Diagram.build (documentAround twoSidedQuestion)).1.map fun d => d.shape.1) =
      some [("d@start", 0, "d"), ("p", 0, "p"), ("l", 1, "l"), ("q", 1, "q"), ("z", 1, "z"),
        ("l_end", 1, ""), ("d@end", 0, "End")] ∧
    ((Diagram.build (documentAround twoSidedQuestion)).1.map fun d =>
      (d.edges.map Edge.ends).filter (·.1 = "q")) = some [("q", "z")] ∧
    (Diagram.build (documentAround twoSidedQuestion)).2 = [⟨.twoBranches "q", .nowhere⟩] ∧
    (Diagram.build (documentAround twoSidedQuestion.degraded)).2 = [] ∧
    (Diagram.build (documentAround twoSidedQuestion)).1.map Diagram.kinds =
      some [("d@start", .start), ("p", .question), ("l", .forEach), ("q", .question),
        ("z", .action), ("l_end", .loopEnd), ("d@end", .finish)] ∧
    (Diagram.build (documentAround twoSidedQuestion.degraded)).1.map Diagram.kinds =
      some [("d@start", .start), ("p", .question), ("l", .forEach), ("q", .action),
        ("z", .action), ("l_end", .loopEnd), ("d@end", .finish)] ∧
    (Diagram.build (documentAround twoSidedQuestion.degraded)).1.map Diagram.shape =
      (Diagram.build (documentAround twoSidedQuestion)).1.map Diagram.shape := by
  have htwo : twoSidedQuestion.TwoSided "q" :=
    ⟨rfl, rfl, fun side => by cases side <;> rfl⟩
  have hexchanged : Exchanged twoSidedQuestion twoSidedQuestion.degraded .document
      (documentAround twoSidedQuestion) (documentAround twoSidedQuestion.degraded) :=
    .inBlock [] [] "drakon" ["d"] .nowhere <| .inBlock [] [] "question" ["p"] .nowhere <|
      .inAttribute [] [] "yes" .nowhere (fun h => absurd h.1 (by decide)) <| .nested <|
        .inBlock [] [] "for_each" ["l"] .nowhere <| .here [] _
  exact ⟨htwo, hexchanged, by decide +kernel, by decide +kernel, by decide +kernel,
    by decide +kernel, by decide +kernel, by decide +kernel, (build_two_sided _ _ _ "q" htwo hexchanged).1⟩

/-- Nothing is built of a question below an action, and no problem with it is noted. -/
example : (Diagram.build [.block "drakon" ["d"]
    [.block "action" ["a"] [twoSidedQuestion.statement] .nowhere] .nowhere]).2 = [] := by
  decide +kernel

/-- A document with a block in the lines of an action. -/
def documentWithLines (b : Block) : List Statement :=
  [.block "drakon" ["d"]
    [.block "action" ["a"]
      [.attribute "lines" (.list [.nested [b.statement]]) .nowhere] .nowhere] .nowhere]

/-- A document with a block in the parameters. -/
def documentWithParameters (b : Block) : List Statement :=
  [.block "drakon" ["d"] [.attribute "parameters" (.nested [b.statement]) .nowhere] .nowhere]

/-- A document with a block in an attribute of a line. -/
def documentWithLine (b : Block) : List Statement :=
  [.block "drakon" ["d"]
    [.block "line" []
      [.attribute "from" (.text "start") .nowhere, .attribute "to" (.text "end") .nowhere,
        .attribute "data" (.nested [b.statement]) .nowhere] .nowhere] .nowhere]

/-- Icons show the name of a question in their lines and in the parameters, and lines keep it; with
an action in the place of the question it is another name. -/
theorem build_question_shown :
    let labels := fun document =>
      (Diagram.build document).1.map fun d => d.nodes.map Node.label
    let data := fun document => (Diagram.build document).1.map fun d =>
      d.edges.map fun e => (e.attributes.get? "data").map Value.json
    twoSidedQuestion.TwoSided "q" ∧
    labels (documentWithLines twoSidedQuestion) = some ["d", "[\"question\"]", "End"] ∧
    labels (documentWithLines twoSidedQuestion.degraded) = some ["d", "[\"action\"]", "End"] ∧
    labels (documentWithParameters twoSidedQuestion) = some ["d", "[\"question\"]", "End"] ∧
    labels (documentWithParameters twoSidedQuestion.degraded) =
      some ["d", "[\"action\"]", "End"] ∧
    data (documentWithLine twoSidedQuestion) = some [some "[\"question\"]"] ∧
    data (documentWithLine twoSidedQuestion.degraded) = some [some "[\"action\"]"] :=
  ⟨⟨rfl, rfl, fun side => by cases side <;> rfl⟩, by decide +kernel, by decide +kernel,
    by decide +kernel, by decide +kernel, by decide +kernel, by decide +kernel⟩

end Flowchart
