import Flowchart.Document
import Flowchart.Proofs.Draft.Contexts
import Mathlib.Data.List.Perm.Subperm

/-!
# Ids that are made up

A block without a label is called after its name and its place in its column, an arm without one
after its choice, its name and its number, and the icon that closes a loop after the loop. Only the
last of these is looked for until it is free (`hasNode_loopEndId`).

The other two can be in use. `Unlabelled` says what the id of every icon without a label looks like
while the blocks of a root are placed, and an id that is made up tells its stem and its number
(`numbered_inj`), so little is left that can stand in the way of a block (`made_ids`): an icon with
a label, one of the same name in another column, or one whose name spells the id of an arm.
-/

namespace Flowchart

/-! ## Stems and numbers -/

/-- What stands before a separator that does not occur in it, and what stands behind. -/
theorem append_cons_inj {α : Type} {a : α} {u v x y : List α} (hu : a ∉ u) (hv : a ∉ v) :
    u ++ a :: x = v ++ a :: y ↔ u = v ∧ x = y := by
  refine ⟨fun h => ?_, fun ⟨hu, hx⟩ => by rw [hu, hx]⟩
  induction u generalizing v with
  | nil =>
    cases v with
    | nil => exact ⟨rfl, (List.cons.inj h).2⟩
    | cons b v => exact absurd ((List.cons.inj h).1 ▸ List.mem_cons_self) hv
  | cons b u ih =>
    cases v with
    | nil => exact absurd ((List.cons.inj h).1 ▸ List.mem_cons_self) hu
    | cons c v =>
      obtain ⟨rfl, hrest⟩ := List.cons.inj h
      obtain ⟨huv, hx⟩ := ih (fun hm => hu (List.mem_cons_of_mem b hm))
        (fun hm => hv (List.mem_cons_of_mem b hm)) hrest
      exact ⟨congrArg (b :: ·) huv, hx⟩

/-- What is joined by an underscore, when there is none in the second part. -/
theorem joined_inj {a b s t : String} (hs : '_' ∉ s.toList) (ht : '_' ∉ t.toList) :
    a ++ "_" ++ s = b ++ "_" ++ t ↔ a = b ∧ s = t := by
  refine ⟨fun h => ?_, fun ⟨ha, hs⟩ => by rw [ha, hs]⟩
  have hlist := congrArg (fun s => s.toList.reverse) h
  simp only [String.toList_append, List.reverse_append] at hlist
  obtain ⟨hsecond, hfirst⟩ := (append_cons_inj (a := '_') (fun hm => hs (List.mem_reverse.mp hm))
    (fun hm => ht (List.mem_reverse.mp hm))).mp hlist
  exact ⟨String.toList_inj.mp (List.reverse_injective hfirst),
    String.toList_inj.mp (List.reverse_injective hsecond)⟩

/-- The digits of a number hold no underscore. -/
theorem underscore_notMem_toString (n : Nat) : '_' ∉ (toString n).toList := fun hm => by
  have hdigit := Nat.isDigit_of_mem_toDigits (by decide) (le_refl 10)
    (Nat.toList_repr (n := n) ▸ hm)
  exact absurd hdigit (by decide)

/-- A stem with a number tells both. -/
theorem numbered_inj {a b : String} {m n : Nat} :
    a ++ "_" ++ toString m = b ++ "_" ++ toString n ↔ a = b ∧ m = n := by
  rw [joined_inj (underscore_notMem_toString m) (underscore_notMem_toString n)]
  refine and_congr_right fun _ => ⟨fun h => ?_, congrArg toString⟩
  have hdigits : Nat.toDigits 10 m = Nat.toDigits 10 n := by
    rw [← Nat.toList_repr, ← Nat.toList_repr]
    exact congrArg String.toList h
  rw [← Nat.ofDigitChars_toDigits (n := m) (by decide : 1 < 10) (le_refl 10), hdigits,
    Nat.ofDigitChars_toDigits (by decide) (le_refl 10)]

namespace ArmKind

/-- The name that an arm was opened with. -/
theorem name_of_ofName? {name : String} {kind : ArmKind} (h : ofName? name = some kind) :
    name = kind.name := by
  unfold ofName? at h
  split at h <;> cases h <;> rfl

/-- The names of arms have no underscore. -/
theorem underscore_notMem_name (kind : ArmKind) : '_' ∉ kind.name.toList := by
  cases kind <;> decide

/-- The names of arms differ. -/
theorem name_injective {kind other : ArmKind} (h : kind.name = other.name) : kind = other := by
  cases kind <;> cases other <;> first | rfl | exact absurd h (by decide)

end ArmKind

namespace Draft

/-! ## Loops -/

/-- The search ends with a free id, or all that it tried and the one behind are in use. -/
theorem freeId_cases (d : Draft) (stem : String) (n tries : Nat) :
    d.hasNode (d.freeId stem n tries) = false ∨
      ∀ k ≤ tries, d.hasNode (stem ++ "_" ++ toString (n + k)) = true := by
  induction tries generalizing n with
  | zero =>
    cases hlast : d.hasNode (stem ++ "_" ++ toString n) with
    | false => exact .inl hlast
    | true => exact .inr fun k hk => Nat.le_zero.mp hk ▸ hlast
  | succ tries ih =>
    rw [freeId]
    split
    · rename_i hused
      refine (ih (n + 1)).imp_right fun hall k hk => ?_
      cases k with
      | zero => exact hused
      | succ k => exact Nat.add_right_comm n 1 k ▸ hall k (Nat.le_of_succ_le_succ hk)
    · rename_i hfree
      exact .inl (Bool.eq_false_iff.mpr hfree)

/-- Of as many numbered ids as are in use and one more, one is free. -/
theorem exists_free_numbered (d : Draft) (stem : String) :
    ∃ k ≤ d.ids.length, d.hasNode (stem ++ "_" ++ toString (1 + k)) = false := by
  by_contra hall
  have hused : (List.range (d.ids.length + 1)).map (fun k => stem ++ "_" ++ toString (1 + k)) ⊆
      d.ids.keys := by
    intro id hid
    obtain ⟨k, hk, rfl⟩ := List.mem_map.mp hid
    refine hasNode_iff.mp (Bool.not_eq_false _ ▸ fun hfree => hall ⟨k, ?_, hfree⟩)
    exact Nat.le_of_lt_succ (List.mem_range.mp hk)
  have hnodup : ((List.range (d.ids.length + 1)).map
      fun k => stem ++ "_" ++ toString (1 + k)).Nodup :=
    List.nodup_range.map fun i j hij => Nat.add_left_cancel (numbered_inj.mp hij).2
  have hlength := (hnodup.subperm hused).length_le
  rw [List.length_map, List.length_range, Table.keys, List.length_map] at hlength
  omega

/-- The id for the icon that closes a loop is free. -/
theorem hasNode_loopEndId (d : Draft) (loop : String) : d.hasNode (d.loopEndId loop) = false := by
  unfold loopEndId
  dsimp only
  split
  · refine (freeId_cases d _ 1 d.ids.length).resolve_right fun hall => ?_
    obtain ⟨k, hk, hfree⟩ := exists_free_numbered d (loop ++ "_end")
    rw [hall k hk] at hfree
    exact Bool.noConfusion hfree
  · rename_i hfree
    exact Bool.eq_false_iff.mpr hfree

/-! ## Icons without labels -/

/-- What the id of an icon without a label looks like: that of an arm starts with some choice, and
any other one is called after its name and its place in its column. -/
inductive Unlabelled (d : Draft) (origin : Origin) : Prop
  /-- The id of an icon counts the nodes that its column had. -/
  | icon (place : Nat) (inside : place < (d.columnIds origin.column).length)
      (id : origin.id = origin.block.name ++ "_" ++ toString (place + 1))
  /-- The id of an arm counts the arms that its choice had. -/
  | arm {kind : ArmKind} (named : origin.block.name = kind.name)
      (arm : origin.kind = kind.nodeKind) (choice : String) (number : Nat)
      (id : origin.id = choice ++ "_" ++ kind.name ++ "_" ++ toString number)

/-- The ids of icons without labels are made up. -/
def MadeUp (d : Draft) : Prop :=
  ∀ origin ∈ d.diagram.origins, origin.block.labels = [] → Unlabelled d origin

/-- The id of an icon that is made without a label is made up. -/
theorem Made.unlabelled {P : Outline → Prop} {d : Draft} {node : Node} (h : Made P d node)
    (hlabels : node.block.labels = []) : Unlabelled (d.enter node .back) node.origin := by
  cases h with
  | @icon o own allowed column =>
    have hlabel : o.block.label? = none := List.head?_eq_none_iff.mpr hlabels
    refine .icon (d.columnIds column).length ?_ ?_
    · have hcolumn := columnIds_enter_self d
        (o.block.node (.ofName o.block.name) (d.iconId o.block column) column)
      exact hcolumn ▸ List.length_append ▸ Nat.lt_succ_self _
    · show d.iconId o.block column = _
      rw [iconId, hlabel]
      rfl
  | @arm o own kind named choice count column =>
    have hlabel : o.block.label? = none := List.head?_eq_none_iff.mpr hlabels
    have hname := ArmKind.name_of_ofName? named
    refine .arm hname rfl choice (count + 1) ?_
    show armId o.block choice count = _
    rw [armId, hlabel, ← hname]
    rfl
  | loopEnd => exact absurd hlabels (List.cons_ne_nil _ _)

/-- Making icons keeps ids made up. -/
theorem Makes.madeUp {P : Outline → Prop} {d e : Draft} (h : Makes P d e) (hd : d.MadeUp) :
    e.MadeUp := by
  have hold : ∀ origin ∈ d.diagram.origins, origin.block.labels = [] → Unlabelled e origin := by
    intro origin ho hlabels
    cases hd origin ho hlabels with
    | icon place inside id => exact .icon place (inside.trans_le (h.prefix_columnIds _).length_le) id
    | arm named arm choice number id => exact .arm named arm choice number id
  cases h with
  | other same => exact fun origin ho => hold origin (same.origins ▸ ho)
  | @enter node made free =>
    intro origin ho hlabels
    rw [origins_enter] at ho
    rcases List.mem_append.mp ho with ho | ho
    · exact hold origin ho hlabels
    · rw [List.mem_singleton.mp ho] at hlabels ⊢
      exact made.unlabelled hlabels

/-- While the blocks of a root are placed, the ids of icons without labels are made up. -/
theorem writtenTrail_madeUp {root : Block} {d : Draft}
    (hd : d ∈ initial root :: writtenTrail root) : d.MadeUp := by
  have hinitial : (initial root).MadeUp := fun origin (ho : origin ∈ []) =>
    absurd ho List.not_mem_nil
  exact (written_expands root).leads.keeps (motive := MadeUp) (fun _ _ => Makes.madeUp) hinitial d hd

/-! ## What stands in the way -/

/-- What can have the id that is made up for a block in a column. -/
inductive HoldsIconId (b : Block) (column : Nat) (n : Node) : Prop
  /-- Its block is labelled. -/
  | labelled (labels : n.block.labels ≠ [])
  /-- It has the same name and stands in another column. -/
  | elsewhere (name : n.block.name = b.name) (column : n.column ≠ column)
  /-- It is an arm, and the name of the block spells a choice with that arm. -/
  | arm {kind : ArmKind} (named : n.block.name = kind.name) (arm : n.kind = kind.nodeKind)
      (choice : String) (spells : b.name = choice ++ "_" ++ kind.name)

/-- What can have the id that is made up for an arm of a choice. -/
inductive HoldsArmId (b : Block) (kind : ArmKind) (choice : String) (n : Node) : Prop
  /-- Its block is labelled. -/
  | labelled (labels : n.block.labels ≠ [])
  /-- It is an icon whose name spells the choice and the arm. -/
  | icon (spells : n.block.name = choice ++ "_" ++ b.name)
  /-- It is another arm of the same kind. -/
  | arm (named : n.block.name = b.name) (arm : n.kind = kind.nodeKind)

section

variable {d : Draft} (h : d.MadeUp) (hd : d.Registry)
include h hd

/-- A node that has an id is labelled or called in one of the two ways. -/
theorem MadeUp.exists_node {id : String} (used : d.hasNode id = true) :
    ∃ n ∈ d.diagram.nodes, n.id = id ∧ (n.block.labels ≠ [] ∨ Unlabelled d n.origin) := by
  obtain ⟨n, hn, hid⟩ := List.mem_map.mp (hd.hasNode_iff_mem.mp used)
  refine ⟨n, hn, hid, ?_⟩
  by_cases hlabels : n.block.labels = []
  · exact .inr (h n.origin (List.mem_map_of_mem hn) hlabels)
  · exact .inl hlabels

/-- What stands in the way of a block without a label. -/
theorem MadeUp.holdsIconId {b : Block} (hb : b.label? = none) {column : Nat}
    (used : d.hasNode (d.iconId b column) = true) :
    ∃ n ∈ d.diagram.nodes, n.id = d.iconId b column ∧ HoldsIconId b column n := by
  obtain ⟨n, hn, hid, hlabels | hmade⟩ := h.exists_node hd used
  · exact ⟨n, hn, hid, .labelled hlabels⟩
  · refine ⟨n, hn, hid, ?_⟩
    have hnumbered : n.id = b.name ++ "_" ++ toString ((d.columnIds column).length + 1) := by
      rw [hid, iconId, hb]
      rfl
    cases hmade with
    | icon place inside id =>
      obtain ⟨hname, hplace⟩ := numbered_inj.mp (id.symm.trans hnumbered)
      refine .elsewhere hname fun hcolumn => ?_
      -- The places of a column are all taken by its icons.
      have hin : place < (d.columnIds n.column).length := inside
      rw [hcolumn] at hin
      omega
    | arm named arm choice number id =>
      exact .arm named arm choice (numbered_inj.mp (hnumbered.symm.trans id)).1

/-- What stands in the way of an arm without a label. -/
theorem MadeUp.holdsArmId {b : Block} (hb : b.label? = none) {kind : ArmKind}
    (hkind : ArmKind.ofName? b.name = some kind) {choice : String} {count : Nat}
    (used : d.hasNode (armId b choice count) = true) :
    ∃ n ∈ d.diagram.nodes, n.id = armId b choice count ∧ HoldsArmId b kind choice n := by
  obtain ⟨n, hn, hid, hlabels | hmade⟩ := h.exists_node hd used
  · exact ⟨n, hn, hid, .labelled hlabels⟩
  · refine ⟨n, hn, hid, ?_⟩
    have hname := ArmKind.name_of_ofName? hkind
    have hnumbered : n.id = choice ++ "_" ++ b.name ++ "_" ++ toString (count + 1) := by
      rw [hid, armId, hb]
      rfl
    cases hmade with
    | icon place inside id => exact .icon (numbered_inj.mp (id.symm.trans hnumbered)).1
    | @arm other named arm choice' number id =>
      -- Before the number stands the name, which holds no underscore.
      have hstem := (numbered_inj.mp (id.symm.trans hnumbered)).1
      rw [hname, joined_inj other.underscore_notMem_name kind.underscore_notMem_name] at hstem
      have hkinds := ArmKind.name_injective hstem.2
      exact .arm (named.trans (hkinds ▸ hname.symm)) (hkinds ▸ arm)

end

end Draft

open Draft

/-! ## Built diagrams -/

/-- The drafts in which the blocks of a root are placed are drafts of the build. -/
theorem mem_contexts_of_mem_writtenTrail {document : List Statement} {root : Block}
    (h : rootBlock? document = some root) {d : Draft} (hd : d ∈ initial root :: writtenTrail root) :
    d ∈ contexts document := by
  rw [contexts, h]
  refine List.mem_cons.mpr ((List.mem_cons.mp hd).imp_right fun hd => List.mem_append_left _ ?_)
  exact List.mem_append_left _ (List.mem_append_left _ (List.mem_append_left _ hd))

/-- While the blocks of a root are placed, the icon that closes a loop gets a free id. A block
without a label gets its icon, or else the id that was made up for it belongs to an icon with a
label, to one of the same name in another column, or to an arm whose choice the name of the block
starts with. An arm without a label gets its icon as well, or else the id belongs to an icon with a
label, to one whose name starts with the choice, or to an arm that is called in the same way. -/
theorem made_ids (document : List Statement) (root : Block) (h : rootBlock? document = some root) :
    ∀ d ∈ initial root :: writtenTrail root, d ∈ contexts document ∧
      (∀ loop, d.hasNode (d.loopEndId loop) = false) ∧
      (∀ (o : Outline) (column : Nat), o.block.label? = none → isReserved o.block.name = false →
        (placeIcon o column d).2 = some (d.iconId o.block column) ∨
          (∃ first, placeIcon o column d =
            (d.report (.duplicateNode (d.iconId o.block column) first) o.block.span, none)) ∧
          ∃ n ∈ d.diagram.nodes, n.id = d.iconId o.block column ∧ HoldsIconId o.block column n) ∧
      ∀ (b : Block) (kind : ArmKind) (choice : String) (count column : Nat), b.label? = none →
        ArmKind.ofName? b.name = some kind →
        (d.register (b.node kind.nodeKind (armId b choice count) column) .back).2 = true ∨
          ∃ n ∈ d.diagram.nodes, n.id = armId b choice count ∧ HoldsArmId b kind choice n := by
  intro d hd
  have hcontext := mem_contexts_of_mem_writtenTrail h hd
  have hregistry := (closed_of_mem_contexts hcontext).registry
  have hmade := writtenTrail_madeUp hd
  refine ⟨hcontext, hasNode_loopEndId d, fun o column hlabel hallowed => ?_,
    fun b kind choice count column hlabel hkind => ?_⟩
  · rcases placeIcon_cases o column d with
      ⟨hreserved, -⟩ | ⟨-, ⟨used, hrefused⟩ | ⟨-, hplaced, -⟩⟩
    · exact absurd (hreserved.symm.trans hallowed) Bool.noConfusion
    · exact .inr ⟨hrefused, hmade.holdsIconId hregistry hlabel used⟩
    · exact .inl hplaced
  · rcases register_cases d (b.node kind.nodeKind (armId b choice count) column) .back with
      ⟨first, -, used⟩ | ⟨-, he⟩
    · exact .inr (hmade.holdsArmId hregistry hlabel hkind used)
    · exact .inl (congrArg Prod.snd he)

/-- Two lanes with a block of the same name in each, and no labels on the blocks. -/
def lanesSource : String :=
  "drakon \"d\" \x7b lane \"l\" \x7b action \x7b\x7d \x7d " ++
    "lane \"r\" \x7b action \x7b\x7d \x7d \x7d"

/-- The block of the second lane is refused, and what has its id is an icon with a label, one in
another column or an arm. -/
theorem made_ids_lanes :
    ∃ root, rootBlock? (Document.read lanesSource).statements = some root ∧
      ∃ d ∈ initial root :: writtenTrail root, ∃ o ∈ Outline.allOf root.outline.children,
        o.block.label? = none ∧ isReserved o.block.name = false ∧
        (placeIcon o 1 d).2 ≠ some (d.iconId o.block 1) ∧
        ∃ n ∈ d.diagram.nodes, n.id = d.iconId o.block 1 ∧ HoldsIconId o.block 1 n := by
  have hrefused : (rootBlock? (Document.read lanesSource).statements).any (fun root =>
      (initial root :: writtenTrail root).any fun d =>
        (Outline.allOf root.outline.children).any fun o => o.block.label? = none ∧
          isReserved o.block.name = false ∧ (placeIcon o 1 d).2 ≠ some (d.iconId o.block 1)) =
      true := by decide +kernel
  obtain ⟨root, hroot, hrefused⟩ := (Option.any_eq_true _ _).mp hrefused
  obtain ⟨d, hd, hrefused⟩ := List.any_eq_true.mp hrefused
  obtain ⟨o, ho, hrefused⟩ := List.any_eq_true.mp hrefused
  obtain ⟨hlabel, hallowed, hnot⟩ := of_decide_eq_true hrefused
  have hicon := (made_ids _ root hroot d hd).2.2.1 o 1 hlabel hallowed
  exact ⟨root, hroot, d, hd, o, ho, hlabel, hallowed, hnot, (hicon.resolve_left hnot).2⟩

/-- A block can be refused for its id though no block of a lane or a column has a label. -/
theorem exists_refused_unlabelled :
    ¬ ∀ source root, rootBlock? (Document.read source).statements = some root →
      (∀ o ∈ Outline.allOf root.outline.children, o.block.name ≠ "lane" → o.block.labels = []) →
      ∀ problem ∈ (Diagram.build (Document.read source).statements).2,
        problem.fault.code ≠ .duplicateNode := by
  intro hclaim
  have hrefused : (rootBlock? (Document.read lanesSource).statements).any (fun root =>
      ((Outline.allOf root.outline.children).all fun o =>
        o.block.name ≠ "lane" → o.block.labels = []) ∧
      (Diagram.build (Document.read lanesSource).statements).2.any fun problem =>
        problem.fault.code = .duplicateNode) = true := by decide +kernel
  obtain ⟨root, hroot, hrefused⟩ := (Option.any_eq_true _ _).mp hrefused
  obtain ⟨hunlabelled, hrefused⟩ := of_decide_eq_true hrefused
  obtain ⟨problem, hproblem, hcode⟩ := List.any_eq_true.mp hrefused
  refine hclaim lanesSource root hroot (fun o ho => ?_) problem hproblem (of_decide_eq_true hcode)
  exact of_decide_eq_true (List.all_eq_true.mp hunlabelled o ho)

end Flowchart
