import Flowchart.Proofs.Draft.Contexts

/-!
# What building reads of a root

The statements in the body of a root are read by five parts of the build, and none of them asks
where in the body a statement stands: the attributes make a table, the icons and lanes are placed one
after the other, and the lines, attachments and notes wait until that is done. So two roots with the
same label are built into the same draft as soon as each part finds the same in both
(`ofRoot_congr`). Moving the statements of a root past those of other parts changes nothing
(`build_interleaved`), whether a name is used before its node is written or after it.
-/

namespace Flowchart

/-! ## The parts of a body -/

/-- The part of a build that reads a statement in the body of a root. -/
inductive Part where
  /-- An attribute of the root. -/
  | attribute
  /-- A line. -/
  | line
  /-- A decoration. -/
  | attachment
  /-- A note. -/
  | note
  /-- Icons and lanes. -/
  | icon
  deriving DecidableEq

/-- The part of a build that reads a block of this name. -/
def Part.ofName (name : String) : Part :=
  if name = "line" then .line
  else if name = "attach" then .attachment
  else if name = "note" then .note
  else .icon

/-- The part of a build that reads a statement in the body of a root. -/
def Statement.part (s : Statement) : Part :=
  match s.block? with
  | none => .attribute
  | some b => .ofName b.name

/-- A block that does not wait is an icon or a lane. -/
theorem ofName_eq_icon {name : String} (h : isRootOnly name = false) : Part.ofName name = .icon := by
  simp only [isRootOnly, List.contains_cons, List.contains_nil, Bool.or_false, Bool.or_eq_false_iff,
    beq_eq_false_iff_ne] at h
  rw [Part.ofName, if_neg h.1, if_neg h.2.1, if_neg h.2.2]

section

variable {body other : List Statement} {part : Part}

/-- What a part reads of a body, it reads of its own statements. -/
theorem filterMap_congr_part {β : Type} {read : Statement → Option β}
    (h : ∀ s b, read s = some b → s.part = part)
    (same : body.filter (·.part = part) = other.filter (·.part = part)) :
    body.filterMap read = other.filterMap read := by
  have hown : ∀ body : List Statement,
      (body.filter (·.part = part)).filterMap read = body.filterMap read := by
    intro body
    rw [List.filterMap_filter]
    refine List.filterMap_congr fun s _ => ?_
    split
    · rfl
    · rename_i hpart
      cases hread : read s with
      | none => rfl
      | some b => exact absurd (decide_eq_true (h s b hread)) hpart
  rw [← hown body, same, hown]

/-- The blocks that a part reads are among its own statements. -/
theorem blocks_congr_part {test : Block → Bool}
    (h : ∀ b : Block, test b = true → Part.ofName b.name = part)
    (same : body.filter (·.part = part) = other.filter (·.part = part)) :
    (body.filterMap Statement.block?).filter test =
      (other.filterMap Statement.block?).filter test := by
  rw [List.filter_filterMap, List.filter_filterMap]
  refine filterMap_congr_part (fun s b hs => ?_) same
  obtain ⟨hs, htest⟩ := Option.filter_eq_some_iff.mp hs
  rw [Statement.part, hs]
  exact h b htest

/-- The attributes of a body are those of its attribute statements. -/
theorem attributes_congr_part
    (same : body.filter (·.part = .attribute) = other.filter (·.part = .attribute)) :
    Attributes.ofStatements body = Attributes.ofStatements other := by
  refine congrArg Table.ofPairs (filterMap_congr_part (fun s b hs => ?_) same)
  match s, hs with
  | .attribute _ _ _, _ => rfl

end

/-- Two bodies hold the same statements of every part, in the same order. -/
def SameParts (body other : List Statement) : Prop :=
  ∀ part : Part, body.filter (·.part = part) = other.filter (·.part = part)

/-- The outlines below statements are those of the blocks among them. -/
theorem outlines_eq : ∀ body : List Statement,
    Outline.ofStatements body = (body.filterMap Statement.block?).map Block.outline
  | [] => rfl
  | .attribute _ _ _ :: rest => by
    rw [Outline.ofStatements, outlines_eq rest]
    rfl
  | .block _ _ _ _ :: rest => by
    rw [Outline.ofStatements, outlines_eq rest]
    rfl

/-! ## The contents of a root -/

namespace Draft

/-- The blocks of a root that are placed before the others are looked at: icons and lanes. -/
def placedBlocks (root : Block) : List Block := root.blocks.filter fun b => !isRootOnly b.name

/-- Two roots in which each part of the build finds the same. -/
structure SameContents (root other : Block) : Prop where
  /-- The roots have the same label. -/
  label : root.label? = other.label?
  /-- They have the same attributes. -/
  attributes : root.attributes = other.attributes
  /-- The same blocks are placed, in the same order. -/
  placed : placedBlocks root = placedBlocks other
  /-- The same decorations are attached, in the same order. -/
  attachments : root.blocksCalled "attach" = other.blocksCalled "attach"
  /-- The same notes are taken in, in the same order. -/
  notes : root.blocksCalled "note" = other.blocksCalled "note"
  /-- The same lines are drawn, in the same order. -/
  lines : root.blocksCalled "line" = other.blocksCalled "line"

/-- Placing goes through the icons and lanes and passes over the blocks that wait. -/
theorem written_eq (root : Block) :
    written root = (placedBlocks root).foldl (fun d b => d.placeRootBlock b.outline)
      (initial root) := by
  have hturn : (fun (d : Draft) (b : Block) => d.placeRootBlock b.outline) =
      fun d b => if (!isRootOnly b.name) = true then d.placeRootBlock b.outline else d := by
    funext d b
    cases hwaits : isRootOnly b.name with
    | false => rfl
    | true =>
      have hlane : b.name ≠ "lane" := fun hname => by
        rw [hname] at hwaits
        exact absurd hwaits (by decide)
      have hblock : b.outline.block = b := rfl
      rw [placeRootBlock, hblock, if_neg hlane, if_pos hwaits]
      rfl
  have hchildren : root.outline.children = root.blocks.map Block.outline := outlines_eq root.body
  rw [written, hchildren, List.foldl_map, placedBlocks, List.foldl_filter]
  exact congrArg (fun turn => root.blocks.foldl turn (initial root)) hturn

/-- Building starts with the label and the attributes of a root. -/
theorem initial_congr {root other : Block} (label : root.label? = other.label?)
    (attributes : root.attributes = other.attributes) : initial root = initial other := by
  rw [initial, initial, titleOf, titleOf, label, attributes]

/-- The draft with all icons of a root, once the written ones are placed, and the edge to the
parameters. -/
def completed (root : Block) (d : Draft) : Draft × Option Edge :=
  ((d.addStart.placeParameters root).1.addEnd, (d.addStart.placeParameters root).2)

/-- All icons are placed by placing the blocks and lanes and completing the draft. -/
theorem placeRoot_eq (root : Block) : placeRoot root = completed root (written root) := rfl

/-- The icons that are added depend on the attributes of a root only. -/
theorem completed_congr {root other : Block} (attributes : root.attributes = other.attributes)
    (d : Draft) : completed root d = completed other d := by
  rw [completed, completed, placeParameters, placeParameters, attributes]

/-- Connecting reads the attachments, the notes and the lines of a root. -/
theorem connectRoot_congr {root other : Block}
    (attachments : root.blocksCalled "attach" = other.blocksCalled "attach")
    (notes : root.blocksCalled "note" = other.blocksCalled "note")
    (lines : root.blocksCalled "line" = other.blocksCalled "line") (d : Draft)
    (edge : Option Edge) : d.connectRoot root edge = d.connectRoot other edge := by
  rw [connectRoot, connectRoot, attachments, notes, lines]

/-- Roots with the same contents are built into the same draft. -/
theorem ofRoot_congr {root other : Block} (same : SameContents root other) :
    ofRoot root = ofRoot other := by
  have hwritten : written root = written other := by
    rw [written_eq, written_eq, same.placed, initial_congr same.label same.attributes]
  have hplaced : placeRoot root = placeRoot other := by
    rw [placeRoot_eq, placeRoot_eq, hwritten, completed_congr same.attributes]
  rw [ofRoot, ofRoot, hplaced]
  exact connectRoot_congr same.attachments same.notes same.lines _ _

/-- Roots whose bodies differ only between the parts have the same contents. -/
theorem sameContents_of_sameParts {body other : List Statement} (same : SameParts body other)
    (labels : List String) (span : Span) :
    SameContents ⟨"drakon", labels, body, span⟩ ⟨"drakon", labels, other, span⟩ where
  label := rfl
  attributes := attributes_congr_part (same .attribute)
  placed := blocks_congr_part (fun b hb => ofName_eq_icon (by simpa using hb)) (same .icon)
  attachments := blocks_congr_part (fun b hb => by rw [of_decide_eq_true hb]; rfl) (same .attachment)
  notes := blocks_congr_part (fun b hb => by rw [of_decide_eq_true hb]; rfl) (same .note)
  lines := blocks_congr_part (fun b hb => by rw [of_decide_eq_true hb]; rfl) (same .line)

end Draft

/-! ## Interleaving -/

/-- Two documents that differ only in the body of one root, where the statements of each part keep
their order and stand differently among the statements of the others. -/
inductive Interleaved : List Statement → List Statement → Prop
  /-- The body of the root is another one with the same parts. -/
  | intro (before after : List Statement) (labels : List String) (span : Span)
      {body other : List Statement} (same : SameParts body other) :
      Interleaved (before ++ .block "drakon" labels body span :: after)
        (before ++ .block "drakon" labels other span :: after)

/-- The root of a document is the first one, or the one behind blocks that are none. -/
theorem rootBlock?_append (before after : List Statement) (labels : List String)
    (body : List Statement) (span : Span) :
    rootBlock? (before ++ .block "drakon" labels body span :: after) =
      (rootBlock? before).or (some ⟨"drakon", labels, body, span⟩) := by
  rw [rootBlock?, rootBlock?, List.filterMap_append, List.find?_append]
  rfl

/-- The statements of a root can be moved past those of other parts: the drafts that building ends
with are the same, and so are the diagrams, down to the order in which nodes, edges, attachments and
notes stand, and the lists of problems. -/
theorem build_interleaved (document other : List Statement) (h : Interleaved document other) :
    Diagram.build document = Diagram.build other ∧
      (contexts document).getLast? = (contexts other).getLast? := by
  obtain ⟨before, after, labels, span, same⟩ := h
  unfold Diagram.build contexts
  rw [rootBlock?_append, rootBlock?_append]
  cases rootBlock? before with
  | some root => exact ⟨rfl, rfl⟩
  | none =>
    have hroot := Draft.ofRoot_congr (Draft.sameContents_of_sameParts same labels span)
    rw [Option.none_or, Option.none_or]
    dsimp only
    rw [hroot, (Draft.ofRoot_passage _).getLast?_eq, (Draft.ofRoot_passage _).getLast?_eq, hroot]
    exact ⟨rfl, rfl⟩

/-- A root that begins with a line between two icons that are written behind it. -/
def forwardDocument : List Statement :=
  [.block "drakon" ["flow"]
    [.block "line" [] [.attribute "from" (.text "b") .nowhere, .attribute "to" (.text "a") .nowhere]
        .nowhere,
      .block "action" ["a"] [] .nowhere,
      .attribute "title" (.text "Flow") .nowhere,
      .block "action" ["b"] [] .nowhere]
    .nowhere]

/-- The same root with the line at its end and the title in front. -/
def backwardDocument : List Statement :=
  [.block "drakon" ["flow"]
    [.attribute "title" (.text "Flow") .nowhere,
      .block "action" ["a"] [] .nowhere,
      .block "action" ["b"] [] .nowhere,
      .block "line" [] [.attribute "from" (.text "b") .nowhere, .attribute "to" (.text "a") .nowhere]
        .nowhere]
    .nowhere]

/-- The line is drawn between its two icons wherever it stands. -/
theorem build_interleaved_forward :
    Interleaved forwardDocument backwardDocument ∧
      (Diagram.build forwardDocument).1.map (fun diagram =>
        (diagram.title, diagram.edges.map fun e => (e.source, e.target))) =
        some ("Flow", [("b", "a"), ("flow@start", "a"), ("a", "b"), ("b", "flow@end")]) ∧
      Diagram.build forwardDocument = Diagram.build backwardDocument ∧
      (contexts forwardDocument).getLast? = (contexts backwardDocument).getLast? := by
  have h : Interleaved forwardDocument backwardDocument :=
    .intro [] [] ["flow"] .nowhere fun part => by cases part <;> rfl
  exact ⟨h, by decide +kernel, build_interleaved _ _ h⟩

end Flowchart
