import Flowchart.Document
import Flowchart.Proofs.Draft.Contexts
import Flowchart.Proofs.Draft.Keeping

/-!
# The columns of a choice

The children of a choice are placed one after the other, and each of them is placed as if it stood
alone behind the drafts of those before it (`placeArms_append`). A child that is no arm has its icon
in the column of the choice. An arm has it there when it is the first child, and else in a column
that has just been opened (`choice_columns`).

Whether an arm is the first of the arms does not matter. A choice whose first child is no arm, or is
refused, has all its arms in columns of their own.
-/

namespace Flowchart

namespace Draft

/-- The icon that was entered first on the way from one draft to another. -/
def firstEntered? (d e : Draft) : Option Origin :=
  e.diagram.origins[d.diagram.origins.length]?

/-- Where the icon of a child of a choice stands, `column` being that of the choice and `opened` the
draft in which the child is placed. -/
structure StandsInChoice (column : Nat) (isFirst : Bool) (child : Outline) (opened : Draft)
    (origin : Origin) : Prop where
  /-- It is the icon of the child. -/
  block : origin.block = child.block
  /-- A child that opens no arm stands in the column of the choice. -/
  plain : ArmKind.ofName? child.block.name = none → origin.column = column
  /-- An arm stands there when it is the first child; else its column is new and no node stood in it
  before. -/
  arm : ∀ kind ∈ ArmKind.ofName? child.block.name, origin.kind = kind.nodeKind ∧
    if isFirst then origin.column = column
    else origin.column ≠ column ∧ origin.column ∉ opened.columns.keys ∧
      ∀ n ∈ opened.diagram.nodes, n.column ≠ origin.column

/-! ## One child after the other -/

/-- The first of several children is placed as if it were the only one. -/
theorem placeArms_cons (o : Outline) (os : List Outline) (choice : String) (column : Nat)
    (isFirst : Bool) (arms : List Arm) (d : Draft) :
    placeArms (o :: os) choice column isFirst arms d =
      placeArms os choice column false (placeArms [o] choice column isFirst arms d).2
        (placeArms [o] choice column isFirst arms d).1 := by
  obtain ⟨block, children, yes, no⟩ := o
  rw [placeArms, placeArms]
  cases ArmKind.ofName? block.name with
  | none =>
    dsimp only
    rw [placeArms]
  | some kind =>
    dsimp only
    generalize (if isFirst then (column, d) else d.openColumn) = opened
    generalize opened.2.register _ .back = registered
    obtain ⟨entered, isNew⟩ := registered
    cases isNew <;> rfl

/-- The children behind others are placed in the draft that those have left. -/
theorem placeArms_append (before after : List Outline) (choice : String) (column : Nat)
    (isFirst : Bool) (arms : List Arm) (d : Draft) :
    placeArms (before ++ after) choice column isFirst arms d =
      placeArms after choice column (isFirst && before.isEmpty)
        (placeArms before choice column isFirst arms d).2
        (placeArms before choice column isFirst arms d).1 := by
  induction before generalizing isFirst arms d with
  | nil =>
    rw [placeArms, List.isEmpty_nil, Bool.and_true]
    rfl
  | cons o before ih =>
    rw [List.cons_append, placeArms_cons, ih, ← placeArms_cons, List.isEmpty_cons, Bool.and_false,
      Bool.false_and]

/-- Placing a block enters no icon, or that of the block goes behind all others, and the icons of
what it holds behind it. -/
theorem placeIcon_origins (o : Outline) (column : Nat) (d : Draft) :
    (placeIcon o column d).1.diagram.origins = d.diagram.origins ∨
    ∃ id rest, (placeIcon o column d).1.diagram.origins =
      d.diagram.origins ++ ⟨⟨id, .ofName o.block.name, column⟩, o.block⟩ :: rest := by
  rcases placeIcon_cases o column d with ⟨-, he⟩ | ⟨-, ⟨-, first, he⟩ | ⟨-, -, t, ht⟩⟩
  · rw [he]
    exact .inl rfl
  · rw [he]
    exact .inl rfl
  · -- The icon of the block is entered first of all.
    have hexpands := placeIcon_expands (P := fun _ => True) o column d fun _ _ => trivial
    obtain ⟨rest, hrest⟩ := hexpands.prefix_origins_of_mem
      (List.mem_cons_of_mem d (ht ▸ List.mem_cons_self))
    rw [origins_enter] at hrest
    exact .inr ⟨_, rest, hrest.symm.trans (List.append_assoc _ _ _)⟩

/-- Placing one child of a choice enters no icon, or that of the child goes behind all others, and
the icons of what it holds behind it. -/
theorem placeArms_single (child : Outline) (choice : String) (column : Nat) (isFirst : Bool)
    (arms : List Arm) (d : Draft) :
    (placeArms [child] choice column isFirst arms d).1.diagram.origins = d.diagram.origins ∨
    ∃ origin rest, (placeArms [child] choice column isFirst arms d).1.diagram.origins =
        d.diagram.origins ++ origin :: rest ∧
      origin.block = child.block ∧
      (ArmKind.ofName? child.block.name = none → origin.column = column) ∧
      ∀ kind ∈ ArmKind.ofName? child.block.name, origin.kind = kind.nodeKind ∧
        origin.column = if isFirst then column else d.nextColumn := by
  have hicon := placeIcon_origins child column d
  obtain ⟨block, children, yes, no⟩ := child
  rw [Outline.block] at hicon ⊢
  rw [placeArms]
  cases hnamed : ArmKind.ofName? block.name with
  | none =>
    dsimp only
    -- A child that is no arm is placed as any other block.
    rw [placeArms]
    refine hicon.imp_right ?_
    rintro ⟨id, rest, horigins⟩
    exact ⟨_, rest, horigins, rfl, fun _ => rfl, fun _ hk => absurd hk (Option.not_mem_none _)⟩
  | some kind =>
    dsimp only
    -- Opening the column of the arm adds no icon.
    have horigins : (if isFirst then (column, d) else d.openColumn).2.diagram.origins =
        d.diagram.origins := by
      split <;> rfl
    have hcolumn : (if isFirst then (column, d) else d.openColumn).1 =
        if isFirst then column else d.nextColumn := by
      split <;> rfl
    generalize (if isFirst then (column, d) else d.openColumn) = opened at horigins hcolumn ⊢
    obtain ⟨armColumn, opened⟩ := opened
    dsimp only at horigins hcolumn ⊢
    generalize block.label?.getD _ = id
    generalize hnode : block.node kind.nodeKind id armColumn = node
    have horigin : node.origin = ⟨⟨id, kind.nodeKind, armColumn⟩, block⟩ := hnode ▸ rfl
    rcases register_cases opened node .back with ⟨first, he, -⟩ | ⟨-, he⟩
    · rw [he]
      exact .inl horigins
    · rw [he]
      simp only [Bool.not_true, Bool.false_eq_true, if_false]
      rw [placeArms]
      -- What the arm holds is placed behind its icon.
      obtain ⟨rest, hrest⟩ := (placeInArm_expands (P := fun _ => True) children armColumn none
        (opened.enter node .back) fun _ _ => trivial).prefix_origins
      rw [origins_enter, horigins, horigin] at hrest
      refine .inr ⟨⟨⟨id, kind.nodeKind, armColumn⟩, block⟩, rest, ?_, rfl,
        fun hk => absurd hk (Option.some_ne_none _), fun other hk => ?_⟩
      · rw [← hrest]
        exact List.append_assoc _ _ _
      · obtain rfl := Option.mem_some_iff.mp hk
        exact ⟨rfl, hcolumn⟩

/-- The children of a choice go behind the nodes that are there. -/
theorem placeArms_prefix (os : List Outline) (choice : String) (column : Nat) (isFirst : Bool)
    (arms : List Arm) (d : Draft) :
    d.diagram.origins <+: (placeArms os choice column isFirst arms d).1.diagram.origins := by
  induction os generalizing isFirst arms d with
  | nil => exact List.prefix_refl _
  | cons o os ih =>
    rw [placeArms_cons]
    refine List.IsPrefix.trans ?_ (ih _ _ _)
    rcases placeArms_single o choice column isFirst arms d with hnone | ⟨icon, rest, hicon, -⟩
    · exact hnone ▸ List.prefix_refl _
    · rw [hicon]
      exact List.prefix_append _ _

/-- Further children go behind the nodes that the first ones have left. -/
theorem placeArms_prefix_append (before after : List Outline) (choice : String) (column : Nat)
    (isFirst : Bool) (arms : List Arm) (d : Draft) :
    (placeArms before choice column isFirst arms d).1.diagram.origins <+:
      (placeArms (before ++ after) choice column isFirst arms d).1.diagram.origins := by
  rw [placeArms_append]
  exact placeArms_prefix _ _ _ _ _ _

/-! ## Columns that are in use -/

/-- The column of a node is open. -/
theorem Registry.column_mem {d : Draft} (h : d.Registry) {n : Node} (hn : n ∈ d.diagram.nodes) :
    n.column ∈ d.columns.keys := by
  have hlisted := (h.mem_columnIds_iff hn n.column).mpr rfl
  by_contra hclosed
  rw [columnIds, Table.get?_eq_none_iff.mpr hclosed] at hlisted
  exact absurd hlisted List.not_mem_nil

/-- No column that is open is the next one to open. -/
theorem Registry.nextColumn_notMem {d : Draft} (h : d.Registry) : d.nextColumn ∉ d.columns.keys :=
  fun hm => Nat.lt_irrefl _ (h.lt_nextColumn _ hm)

/-- The column of an origin is open. -/
theorem Registry.origin_column_mem {d : Draft} (h : d.Registry) {origin : Origin}
    (ho : origin ∈ d.diagram.origins) : origin.column ∈ d.columns.keys := by
  obtain ⟨n, hn, rfl⟩ := List.mem_map.mp ho
  exact h.column_mem hn

/-- An icon stands as it should in a choice whose own icon is there. -/
theorem standsInChoice_of_single {child : Outline} {choice : String} {column : Nat} {isFirst : Bool}
    {arms : List Arm} {opened : Draft} (hopened : opened.Registry)
    (known : column ∈ opened.columns.keys) {origin : Origin}
    (entered : firstEntered? opened (placeArms [child] choice column isFirst arms opened).1 =
      some origin) : StandsInChoice column isFirst child opened origin := by
  rcases placeArms_single child choice column isFirst arms opened with
    hnone | ⟨icon, rest, horigins, hblock, hplain, harm⟩
  · rw [firstEntered?, hnone, List.getElem?_eq_none (le_refl _)] at entered
    exact nomatch entered
  · rw [firstEntered?, horigins, List.getElem?_append_right (le_refl _), Nat.sub_self] at entered
    obtain rfl := Option.some.inj entered
    refine ⟨hblock, hplain, fun kind hk => ⟨(harm kind hk).1, ?_⟩⟩
    have hcolumn := (harm kind hk).2
    cases isFirst with
    | true => exact hcolumn
    | false =>
      -- The next column is none of those that are open.
      rw [if_neg Bool.false_ne_true] at hcolumn ⊢
      have hnew := hopened.nextColumn_notMem
      rw [hcolumn]
      exact ⟨fun hsame => hnew (hsame ▸ known), hnew, fun n hn hsame => hnew
        (hsame ▸ hopened.column_mem hn)⟩

/-! ## A whole choice -/

/-- Behind the icon of a choice follow its children. -/
theorem placeIcon_choice {o : Outline} {column : Nat} {d : Draft}
    (name : o.block.name = "choice") (free : d.hasNode (d.iconId o.block column) = false) :
    ∃ arms, (placeIcon o column d).1 =
      { (placeArms o.children (d.iconId o.block column) column true []
          ((d.enter (o.block.node .choice (d.iconId o.block column) column) .back).keepChoiceNext
            (d.iconId o.block column) (o.block.attributes.trimmed? "next") o.block.span)).1 with
        arms } := by
  have hkind : NodeKind.ofName o.block.name = .choice := by rw [name]; rfl
  have hallowed : isReserved o.block.name = false := by rw [name]; decide
  have hplaces := placeIcon_places o column d
  generalize iconTrail o column d = t at hplaces
  generalize placeIcon o column d = r at hplaces ⊢
  cases hplaces with
  | reserved reserved => exact Bool.noConfusion (hallowed.symm.trans reserved)
  | taken _ used => exact Bool.noConfusion (free.symm.trans used)
  | question _ kind | loop _ kind => exact NodeKind.noConfusion (kind.symm.trans hkind)
  | choice _ _ next arms =>
    subst next arms
    rw [entered, iconNode, hkind]
    exact ⟨_, rfl⟩
  | plain _ _ choice => exact absurd hkind choice

end Draft

open Draft

/-- In a choice the icon of a child that opens no arm stands in the column of the choice. So does
that of an arm which is the first child, and the icon of any other arm stands in a column in which
there was no node before. -/
theorem choice_columns {o : Outline} {column : Nat} {d : Draft} (hd : d.Registry)
    (name : o.block.name = "choice") {id : String} (placed : (placeIcon o column d).2 = some id) :
    ∃ start, start.diagram.origins = d.diagram.origins ++ [⟨⟨id, .choice, column⟩, o.block⟩] ∧
      (placeIcon o column d).1.diagram.origins =
        (placeArms o.children id column true [] start).1.diagram.origins ∧
      ∀ before child after, o.children = before ++ child :: after →
        let opened := (placeArms before id column true [] start).1
        let closed := (placeArms (before ++ [child]) id column true [] start).1
        opened.diagram.origins <+: closed.diagram.origins ∧
        closed.diagram.origins <+: (placeIcon o column d).1.diagram.origins ∧
        ∀ origin ∈ firstEntered? opened closed,
          StandsInChoice column before.isEmpty child opened origin := by
  obtain ⟨rfl, free⟩ : d.iconId o.block column = id ∧
      d.hasNode (d.iconId o.block column) = false := by
    rcases placeIcon_cases o column d with ⟨-, he⟩ | ⟨-, ⟨-, first, he⟩ | ⟨free, hid, -⟩⟩
    · rw [he] at placed
      exact nomatch placed
    · rw [he] at placed
      exact nomatch placed
    · exact ⟨Option.some.inj (hid.symm.trans placed), free⟩
  obtain ⟨arms, hchoice⟩ := placeIcon_choice name free
  generalize d.iconId o.block column = id at free hchoice ⊢
  have hentered : (d.enter (o.block.node .choice id column) .back).Registry :=
    hd.enter _ .back free
  have hhead : (d.enter (o.block.node .choice id column) .back).diagram.origins =
      d.diagram.origins ++ [⟨⟨id, .choice, column⟩, o.block⟩] := origins_enter _ _ _
  generalize d.enter (o.block.node .choice id column) .back = entered at hchoice hentered hhead
  have hnext := sameIcons_keepChoiceNext entered id (o.block.attributes.trimmed? "next") o.block.span
  have hstart := (keepChoiceNext_step entered id (o.block.attributes.trimmed? "next")
    o.block.span).registry hentered
  generalize entered.keepChoiceNext id (o.block.attributes.trimmed? "next") o.block.span = start
    at hchoice hnext hstart
  have horigins := hnext.origins.trans hhead
  have hkind : start.HasKind id .choice := by
    refine ⟨⟨id, .choice, column⟩, ?_, rfl, rfl⟩
    rw [Diagram.posts_eq_origins, horigins, List.map_append]
    exact List.mem_append_right _ List.mem_cons_self
  have hexpands : ∀ os : List Outline, Expands (fun _ => True) start
      (armsTrail os id column true [] start) (placeArms os id column true [] start).1 := fun os =>
    (placeArms_expands os id column true [] start (fun _ _ => trivial) hkind).1
  refine ⟨start, horigins, by rw [hchoice], fun before child after hsplit => ?_⟩
  have hopened := ((hexpands before).passage hstart).registry hstart
  -- The icon of the choice is there, so its column is open.
  have hicon : (⟨⟨id, .choice, column⟩, o.block⟩ : Origin) ∈ start.diagram.origins :=
    horigins ▸ List.mem_append_right _ List.mem_cons_self
  have hknown : column ∈ (placeArms before id column true [] start).1.columns.keys :=
    hopened.origin_column_mem ((hexpands before).prefix_origins.subset hicon)
  refine ⟨placeArms_prefix_append _ _ _ _ _ _ _, ?_, fun origin horigin => ?_⟩
  · have hwhole : o.children = before ++ [child] ++ after := by
      rw [hsplit, List.append_assoc, List.singleton_append]
    rw [hchoice, hwhole]
    exact placeArms_prefix_append _ _ _ _ _ _ _
  · rw [placeArms_append] at horigin
    exact standsInChoice_of_single hopened hknown horigin

/-- A choice whose first child is no arm. -/
def lateArmSource : String :=
  "drakon \"d\" \x7b choice \"c\" \x7b action \"a\" \x7b\x7d case \"x\" \x7b\x7d \x7d \x7d"

/-- The only arm is not the first child, so it has a column of its own. -/
theorem choice_columns_lateArm :
    ∃ root o, rootBlock? (Document.read lateArmSource).statements = some root ∧
      o ∈ root.outline.children ∧ o.block.name = "choice" ∧ (initial root).Registry ∧
      (placeIcon o primaryColumn (initial root)).2 = some "c" ∧
      (placeIcon o primaryColumn (initial root)).1.diagram.nodes.map
        (fun n => (n.id, n.column)) = [("c", 0), ("a", 0), ("x", 1)] ∧
      ∃ start, ∀ before child, o.children = before ++ [child] → ∀ origin ∈
        firstEntered? (placeArms before "c" primaryColumn true [] start).1
          (placeArms (before ++ [child]) "c" primaryColumn true [] start).1,
        StandsInChoice primaryColumn before.isEmpty child
          (placeArms before "c" primaryColumn true [] start).1 origin := by
  have hread : (rootBlock? (Document.read lateArmSource).statements).any (fun root =>
      root.outline.children.any fun o => o.block.name = "choice" ∧
        (placeIcon o primaryColumn (initial root)).2 = some "c" ∧
        (placeIcon o primaryColumn (initial root)).1.diagram.nodes.map
          (fun n => (n.id, n.column)) = [("c", 0), ("a", 0), ("x", 1)]) = true := by
    decide +kernel
  obtain ⟨root, hroot, hread⟩ := (Option.any_eq_true _ _).mp hread
  obtain ⟨o, ho, hread⟩ := List.any_eq_true.mp hread
  obtain ⟨hname, hplaced, hnodes⟩ := of_decide_eq_true hread
  have hregistry := (closed_initial root).registry
  obtain ⟨start, -, -, hstands⟩ := choice_columns hregistry hname hplaced
  exact ⟨root, o, hroot, ho, hname, hregistry, hplaced, hnodes, start, fun before child hsplit =>
    (hstands before child [] hsplit).2.2⟩

/-- The first arm of a choice can stand in another column than the choice. -/
theorem exists_first_arm_elsewhere :
    ¬ ∀ source d, (Document.read source).hasErrors = false →
      (contexts (Document.read source).statements).getLast? = some d →
      ∀ n ∈ d.diagram.nodes, n.kind = .choice → ∀ arm, d.arms.find? (·.choice = n.id) = some arm →
        ∀ m ∈ d.diagram.nodes, m.id = arm.id → m.column = n.column := by
  intro hclaim
  obtain ⟨herrors, hread⟩ : (Document.read lateArmSource).hasErrors = false ∧
      (contexts (Document.read lateArmSource).statements).getLast?.any (fun d =>
        d.diagram.nodes.any fun n => n.kind = .choice ∧
          (d.arms.find? (·.choice = n.id)).any fun arm =>
            d.diagram.nodes.any fun m => m.id = arm.id ∧ m.column ≠ n.column) = true := by
    decide +kernel
  obtain ⟨d, hlast, hread⟩ := (Option.any_eq_true _ _).mp hread
  obtain ⟨n, hn, hread⟩ := List.any_eq_true.mp hread
  obtain ⟨hkind, hread⟩ := of_decide_eq_true hread
  obtain ⟨arm, harm, hread⟩ := (Option.any_eq_true _ _).mp hread
  obtain ⟨m, hm, hread⟩ := List.any_eq_true.mp hread
  obtain ⟨hid, hcolumn⟩ := of_decide_eq_true hread
  exact hcolumn (hclaim lateArmSource d herrors hlast n hn hkind arm harm m hm hid)

end Flowchart
