import Flowchart.Proofs.Draft.Likeness

/-!
# Edges of drafts that look alike

Drawing the edges reads the faces of the nodes, the names and what is kept of questions and arms,
and in all this drafts that look alike agree. Only a question that was refused its branches is an
action in the other draft, and the edge that leaves it is the same all the same, since no branch is
kept for it (`Alike.isBranching`). So drafts that look alike still do so after all their edges are
drawn (`Alike.flowed`, `Alike.settleEdges`).
-/

namespace Flowchart.Draft

open Stroke

namespace Alike

variable {refusal : Refusal} {n : Nat} {d e : Draft}

/-- A loop over lists with related members. -/
theorem foldl {α β : Type} {R : α → β → Prop} {turn : Draft → α → Draft} {turn' : Draft → β → Draft}
    (hturn : ∀ {d e : Draft}, Alike refusal n d e → ∀ {a : α} {b : β}, R a b →
      Alike refusal n (turn d a) (turn' e b))
    (h : Alike refusal n d e) {as : List α} {bs : List β} (members : List.Forall₂ R as bs) :
    Alike refusal n (as.foldl turn d) (bs.foldl turn' e) := by
  have hrel : Relator.LiftFun (Alike refusal n) (Relator.LiftFun R (Alike refusal n)) turn turn' :=
    fun _ _ h _ _ hab => hturn h hab
  exact List.rel_foldl hrel h members

/-- The same names are claimed in both. -/
theorem aliases (h : Alike refusal n d e) : e.aliases = d.aliases := by
  obtain ⟨g, rfl, -⟩ := h
  rfl

/-! ## Names, attachments, notes and lines -/

/-- Looking up values that are the same text. -/
theorem resolve (h : Alike refusal n d e) {value other : Option Value}
    (same : other.bind Value.trimmed? = value.bind Value.trimmed?) (referrer : Referrer)
    (span : Span) :
    Alike refusal n (d.resolve value referrer span).1 (e.resolve other referrer span).1 ∧
      (e.resolve other referrer span).2 = (d.resolve value referrer span).2 := by
  unfold Draft.resolve
  rw [same, h.aliases, h.hasNode]
  cases value.bind Value.trimmed? with
  | none =>
    dsimp only
    exact ⟨h.report _ _, rfl⟩
  | some name =>
    dsimp only
    -- The names and the ids of nodes are the same, so both find the same or nothing.
    cases d.aliases.get? name with
    | some found =>
      dsimp only
      split
      · exact ⟨h, rfl⟩
      · exact ⟨h.report _ _, rfl⟩
    | none =>
      dsimp only
      cases Text.splitOnce '@' name.toList with
      | none =>
        dsimp only
        split
        · dsimp only
          exact ⟨h.claim name name, rfl⟩
        · exact ⟨h.report _ _, rfl⟩
      | some parts =>
        dsimp only
        split
        · exact ⟨h, rfl⟩
        · exact ⟨h.report _ _, rfl⟩

/-- Attaching decorations with the same target. -/
theorem attach (h : Alike refusal n d e) {b c : Block}
    (target : c.attributes.trimmed? "target" = b.attributes.trimmed? "target")
    (span : c.span = b.span) : Alike refusal n (d.attach b) (e.attach c) := by
  obtain ⟨hresolved, hsame⟩ := h.resolve target .attachmentTarget b.span
  unfold Draft.attach
  rw [span]
  dsimp only
  rw [hsame]
  cases (d.resolve (b.attributes.get? "target") .attachmentTarget b.span).2 with
  | none => exact hresolved
  | some reference =>
    obtain ⟨g, he, hnodes, hexplains⟩ := hresolved
    dsimp only
    rw [he]
    exact ⟨{ g with attachments := _ }, rfl, hnodes, hexplains⟩

/-- Adding notes that are pinned to the same name. -/
theorem addNote (h : Alike refusal n d e) {b c : Block}
    (pin : c.attributes.text? "attaches_to" = b.attributes.text? "attaches_to")
    (span : c.span = b.span) : Alike refusal n (d.addNote b) (e.addNote c) := by
  have hnotePin : ∀ (d : Draft) (b : Block), d.notePin b =
      (b.attributes.text? "attaches_to").elim (d, none) fun name =>
        d.resolve (some (.text name)) .noteTarget b.span := by
    intro d b
    unfold Draft.notePin Attributes.text?
    cases b.attributes.get? "attaches_to" with
    | none => rfl
    | some value => cases value <;> simp only [Option.bind_some, Value.text?, Option.elim]
  have hpinned : Alike refusal n (d.notePin b).1 (e.notePin c).1 := by
    rw [hnotePin, hnotePin, pin, span]
    cases b.attributes.text? "attaches_to" with
    | none => exact h
    | some name =>
      rw [Option.elim_some, Option.elim_some]
      exact (h.resolve rfl .noteTarget b.span).1
  obtain ⟨g, he, hnodes, hexplains⟩ := hpinned
  unfold Draft.addNote
  dsimp only
  rw [he]
  exact ⟨{ g with notes := _ }, rfl, hnodes, hexplains⟩

/-- Drawing lines that say the same. -/
theorem drawLine (h : Alike refusal n d e) {b c : Block} (attributes : c.attributes = b.attributes)
    (span : c.span = b.span) : Alike refusal n (d.drawLine b) (e.drawLine c) := by
  obtain ⟨hsource, hfrom⟩ := h.resolve (rfl : (b.attributes.get? "from").bind _ = _) .lineSource
    b.span
  obtain ⟨htarget, hto⟩ := hsource.resolve (rfl : (b.attributes.get? "to").bind _ = _) .lineTarget
    b.span
  unfold Draft.drawLine
  rw [attributes, span]
  dsimp only
  rw [hfrom, hto]
  cases (d.resolve (b.attributes.get? "from") .lineSource b.span).2 with
  | none => exact htarget
  | some source =>
    cases (((d.resolve (b.attributes.get? "from") .lineSource b.span).1).resolve
        (b.attributes.get? "to") .lineTarget b.span).2 with
    | none => exact htarget
    | some target =>
      obtain ⟨g, he, hnodes, hexplains⟩ := htarget
      dsimp only
      rw [he]
      exact ⟨g, rfl, hnodes, hexplains⟩

/-- Drawing the edge to the parameters. -/
theorem linkParameters (h : Alike refusal n d e) (edge : Option Edge) :
    Alike refusal n (d.linkParameters edge) (e.linkParameters edge) := by
  cases edge with
  | none => exact h
  | some edge => exact h.link edge _ _

/-! ## Targets -/

/-- Names are looked up alike in drafts that look alike. -/
theorem resolvesSame (refusal : Refusal) (n : Nat) : ResolvesSame (Alike refusal n) where
  forks := by
    rintro d e ⟨g, rfl, -⟩
    rfl
  choiceNexts := by
    rintro d e ⟨g, rfl, -⟩
    rfl
  arms := by
    rintro d e ⟨g, rfl, -⟩
    rfl
  resolve h name referrer span := h.resolve rfl referrer span

/-- The first nodes that pass a test of the face have the same face. -/
theorem find?_face {nodes nodes' : List Node} (same : nodes'.map Node.face = nodes.map Node.face)
    (test : Face → Bool) :
    (nodes'.find? (test ∘ Node.face)).map Node.face =
      (nodes.find? (test ∘ Node.face)).map Node.face := by
  rw [← List.find?_map, ← List.find?_map, same]

/-- Apart from questions and actions, a face shows the kind of its node. -/
theorem face_kind_name (x : Node) {name : String} (question : name ≠ "question")
    (action : name ≠ "action") : (x.face.kind.name = name) = (x.kind.name = name) := by
  unfold Node.face NodeKind.unasked
  cases x.kind with
  | question => exact propext ⟨fun h => absurd h.symm action, fun h => absurd h.symm question⟩
  | _ => rfl

/-- The default target. -/
theorem defaultTarget (h : Alike refusal n d e) : e.defaultTarget = d.defaultTarget := by
  have htest : (fun x : Node => decide (x.kind.name = "end")) =
      (fun face : Face => decide (face.kind.name = "end")) ∘ Node.face := funext fun x => by
    rw [Function.comp_apply]
    simp only [face_kind_name x (by decide : "end" ≠ "question") (by decide)]
  have hfirst := congrArg (Option.map Face.id) (find?_face h.faces fun face : Face =>
    decide (face.kind.name = "end"))
  rw [← htest, Option.map_map, Option.map_map] at hfirst
  unfold Draft.defaultTarget
  dsimp only
  rw [h.aliases]
  exact congrArg (fun firstEnd => ((d.aliases.get? "end").or firstEnd).map Reference.toNode) hfirst

/-! ## Strokes -/

/-- Nodes other than questions and actions have the same names of their kinds. -/
theorem isCalled (h : Alike refusal n d e) (id : String) {name : String}
    (question : name ≠ "question") (action : name ≠ "action") :
    e.isCalled id name = d.isCalled id name := by
  have hfirst := find?_face h.faces fun face : Face => decide (face.id = id)
  have hany : ∀ o : Option Node, o.any (fun x => decide (x.kind.name = name)) =
      (o.map Node.face).any fun face => decide (face.kind.name = name) := by
    intro o
    cases o with
    | none => rfl
    | some x =>
      rw [Option.map_some, Option.any_some, Option.any_some]
      simp only [face_kind_name x question action]
  unfold Draft.isCalled Diagram.node?
  rw [hany, hany]
  exact congrArg (Option.any fun face : Face => decide (face.kind.name = name)) hfirst

/-- The edges of the same nodes are those of branches or arms, if all that is kept of questions is
about questions in both drafts. -/
theorem isBranching (h : Alike refusal n d e)
    (asks : ∀ p ∈ d.forks, d.isCalled p.1 "question" = true)
    (asks' : ∀ p ∈ e.forks, e.isCalled p.1 "question" = true) :
    e.isBranching = d.isBranching := by
  have hasks : ∀ {d : Draft}, (∀ p ∈ d.forks, d.isCalled p.1 "question" = true) → ∀ id,
      (d.isCalled id "question" && d.forks.has id) = d.forks.has id := by
    intro d asks id
    cases hkept : d.forks.has id with
    | false => exact Bool.and_false _
    | true =>
      obtain ⟨p, hp, rfl⟩ := List.mem_map.mp (Table.has_iff.mp hkept)
      rw [asks p hp]
      rfl
  have hkept : e.forks = d.forks ∧ e.arms = d.arms := by
    obtain ⟨g, rfl, -⟩ := h
    exact ⟨rfl, rfl⟩
  -- The question without branches is not kept, so it makes no difference that it is an action.
  funext id
  unfold Draft.isBranching
  rw [hasks asks, hasks asks', hkept.1, hkept.2, h.isCalled id (by decide) (by decide)]

/-- The strokes of drafts with the same names, columns and kept questions and arms. -/
theorem strokes (h : Alike refusal n d e)
    (asks : ∀ p ∈ d.forks, d.isCalled p.1 "question" = true)
    (asks' : ∀ p ∈ e.forks, e.isCalled p.1 "question" = true) : e.strokes = d.strokes := by
  have hkept : e.columns = d.columns ∧ e.forks = d.forks ∧ e.arms = d.arms := by
    obtain ⟨g, rfl, -⟩ := h
    exact ⟨rfl, rfl, rfl⟩
  have hcolumnStroke : e.columnStroke = d.columnStroke := by
    funext p
    rw [columnStroke, h.isBranching asks asks']
    rfl
  simp only [Draft.strokes, columnPairs, forkTarget, armTarget, hcolumnStroke,
    ((resolvesSame refusal n).resolveTargets h).2, h.defaultTarget, hkept]

/-- Drawing all strokes. -/
theorem flowed (h : Alike refusal n d e) (hd : d.Registry) (he : e.Registry)
    (asks : ∀ p ∈ d.forks, d.isCalled p.1 "question" = true)
    (asks' : ∀ p ∈ e.forks, e.isCalled p.1 "question" = true) :
    Alike refusal n d.flowed e.flowed := by
  have hlinked : e.linked = d.linked := by
    obtain ⟨g, rfl, -⟩ := h
    rfl
  have hresolved := ((resolvesSame refusal n).resolveTargets h).1
  rw [flowed_eq hd, flowed_eq he, h.strokes asks asks', hlinked]
  obtain ⟨g, he, hnodes, hexplains⟩ := hresolved
  rw [he]
  exact ⟨g, rfl, hnodes, hexplains⟩

/-- The last check. -/
theorem settleEdges (h : Alike refusal n d e) : Alike refusal n d.settleEdges e.settleEdges := by
  have hdangling : e.danglingEnds = d.danglingEnds := by
    funext edge
    unfold danglingEnds
    rw [h.hasNode]
  rw [settleEdges_eq, settleEdges_eq, hdangling, h.edges]
  obtain ⟨g, rfl, hnodes, hexplains⟩ := h
  exact ⟨{ g with problems := _ }, rfl, hnodes, hexplains.append _⟩

end Alike

/-- What is kept of questions is about questions, once all icons are placed. -/
theorem Agrees.asks {d e : Draft} (h : Agrees d e) (hd : d.Planned) :
    ∀ p ∈ e.forks, e.isCalled p.1 "question" = true := fun p hp =>
  have hkind : e.HasKind p.1 .question := h.hasKind_iff.mpr (hd.question p (h.forks ▸ hp))
  (h.registry hd.closed.registry).isCalled hkind

end Flowchart.Draft
