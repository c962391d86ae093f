import Flowchart.Proofs.Root.LaneTable

/-!
# The columns of lanes

The blocks of a lane stand in the column of the lane (`Lane.stands`). Two lanes have the same column
if and only if they have the same name (`Lane.column_eq_iff`), whatever stands between them. The
name of a lane is its label, and that of a lane without one is made up from the number of names
before it.

Nothing keeps an author from writing a name that is made up for another lane. So a lane without a
label shares its column with other lanes if and only if some lane is labelled with its name
(`lane_columns`).
-/

namespace Flowchart

open Draft

/-- A lane of a root, at its place among the blocks of the root. -/
structure Lane (root : Block) where
  /-- The blocks before it. -/
  front : List Outline
  /-- The lane itself. -/
  outline : Outline
  /-- The blocks behind it. -/
  back : List Outline
  /-- Together they are the blocks of the root. -/
  splits : root.outline.children = front ++ outline :: back
  /-- It is a lane. -/
  isLane : outline.block.name = "lane"

/-- What comes of a block of a lane, between the draft in which it is placed and the one that it
leaves: it is refused and reported, or its icon stands in the column of the lane, and still does in
the end. -/
inductive StandsInLane (root : Block) (column : Nat) (child : Outline) (opened closed : Draft) :
    Prop
  /-- The block is refused, and the build says so. -/
  | refused (fault : BuildFault) (same : closed = opened.report fault child.block.span)
    (reported : ⟨fault, child.block.span⟩ ∈ (ofRoot root).problems)
  /-- Its icon stands in the column and in the diagram that is built. -/
  | placed (origin : Origin) (block : origin.block = child.block) (stands : origin.column = column)
    (entered : opened.diagram.origins ++ [origin] <+: closed.diagram.origins)
    (shown : origin ∈ (ofRoot root).diagram.origins)

namespace Lane

variable {root : Block}

/-- The label that is written on the lane. -/
def label? (l : Lane root) : Option String := l.outline.block.label?

/-- The draft in which the lane is placed. -/
def opened (l : Lane root) : Draft := l.front.foldl placeRootBlock (initial root)

/-- The name by which the lane is known. -/
def name (l : Lane root) : String := laneName l.outline (l.opened.lanes.length + 1)

/-- The column of the lane. -/
def column (l : Lane root) : Nat := (l.opened.laneColumn l.name).1

/-- The draft with the first blocks of the lane. -/
def behind (l : Lane root) (before : List Outline) : Draft :=
  before.foldl (placeInLane l.name l.column) (l.opened.laneColumn l.name).2

/-- One lane stands in front of another one. -/
def IsBefore (l m : Lane root) : Prop := l.front.length < m.front.length

variable {k l m : Lane root}

/-! ## Where lanes stand -/

/-- There is one lane at a place. -/
theorem eq_of_length (h : l.front.length = m.front.length) : l = m := by
  obtain ⟨front, outline, back, hl, _⟩ := l
  obtain ⟨front', outline', back', hm, _⟩ := m
  obtain ⟨rfl, hrest⟩ := List.append_inj (hl.symm.trans hm) h
  obtain ⟨rfl, rfl⟩ := List.cons.inj hrest
  rfl

/-- Different lanes stand one before the other. -/
theorem isBefore_or (h : l ≠ m) : l.IsBefore m ∨ m.IsBefore l :=
  Nat.lt_or_gt_of_ne fun hlength => h (eq_of_length hlength)

/-- A lane that stands before another one is a block in front of it. -/
theorem IsBefore.exists_front (h : l.IsBefore m) :
    ∃ between, m.front = l.front ++ l.outline :: between := by
  have hl : l.front ++ [l.outline] <+: root.outline.children :=
    ⟨l.back, by rw [l.splits, List.append_assoc, List.singleton_append]⟩
  have hm : m.front <+: root.outline.children := ⟨_, m.splits.symm⟩
  have hlength : (l.front ++ [l.outline]).length ≤ m.front.length := by
    rw [List.length_append]
    exact h
  obtain ⟨between, hbetween⟩ := List.prefix_of_prefix_length_le hl hm hlength
  exact ⟨between, by rw [← hbetween, List.append_assoc, List.singleton_append]⟩

/-! ## Names and columns -/

/-- The names of lanes have different columns when a lane is opened. -/
theorem laneTable_opened (l : Lane root) : l.opened.LaneTable :=
  (laneTable_initial root).foldl l.front

/-- When a lane has been placed, its name has its column. -/
theorem get?_name (l : Lane root) :
    (l.opened.placeRootBlock l.outline).lanes.get? l.name = some l.column := by
  rw [lanes_placeRootBlock, if_pos l.isLane]
  exact (get?_laneColumn _ _ _).trans (if_pos rfl)

/-- Further on nothing is taken away. -/
theorem IsBefore.keepsLanes (h : l.IsBefore m) :
    KeepsLanes (l.opened.placeRootBlock l.outline) m.opened := by
  obtain ⟨between, hfront⟩ := h.exists_front
  have hopened : m.opened = between.foldl placeRootBlock (l.opened.placeRootBlock l.outline) := by
    rw [opened, hfront, List.foldl_append, List.foldl_cons]
    rfl
  rw [hopened]
  exact foldl_keepsLanes _ _

/-- A lane with another one before it has the same column if and only if it has the same name. -/
theorem IsBefore.column_eq_iff (h : l.IsBefore m) : l.column = m.column ↔ l.name = m.name := by
  have hl : m.opened.lanes.get? l.name = some l.column := h.keepsLanes.names l.get?_name
  constructor
  · intro heq
    rcases laneColumn_cases m.opened m.name with ⟨c, hm, he⟩ | ⟨-, ⟨hnil, -⟩ | ⟨-, he⟩⟩
    · have hcolumn : m.column = c := congrArg Prod.fst he
      rw [heq, hcolumn] at hl
      exact m.laneTable_opened.apart hl hm
    · rw [hnil] at hl
      cases hl
    · -- The column of the first lane is open, so it is not the next one.
      have hcolumn : m.column = m.opened.nextColumn := congrArg Prod.fst he
      rw [heq, hcolumn] at hl
      exact absurd (m.laneTable_opened.opened hl) m.laneTable_opened.registry.nextColumn_notMem
  · intro heq
    rw [heq] at hl
    have hcolumn : m.opened.laneColumn m.name = (l.column, m.opened) := by
      rw [laneColumn, hl]
    exact (congrArg Prod.fst hcolumn).symm

/-- **Two lanes have one column** if and only if they have one name. -/
theorem column_eq_iff (l m : Lane root) : l.column = m.column ↔ l.name = m.name := by
  by_cases h : l = m
  · rw [h]
    exact iff_of_true rfl rfl
  · rcases isBefore_or h with h | h
    · exact h.column_eq_iff
    · rw [eq_comm, h.column_eq_iff, eq_comm]

/-! ## Where names come from -/

/-- A name in the table has been put in by a lane for which it was new. -/
theorem exists_of_get? {os back : List Outline} (hsplit : root.outline.children = os ++ back)
    {name : String} {column : Nat}
    (hname : (os.foldl placeRootBlock (initial root)).lanes.get? name = some column) :
    ∃ k : Lane root, k.front.length < os.length ∧ k.name = name ∧
      k.opened.lanes.get? name = none := by
  induction os using List.reverseRecOn generalizing back column with
  | nil => cases hname
  | append_singleton os o ih =>
    rw [List.append_assoc, List.singleton_append] at hsplit
    have hlength : (os ++ [o]).length = os.length + 1 := List.length_append
    cases hold : (os.foldl placeRootBlock (initial root)).lanes.get? name with
    | some c =>
      obtain ⟨k, hk, hname, hnew⟩ := ih hsplit hold
      exact ⟨k, by omega, hname, hnew⟩
    | none =>
      -- The name is new for the last block, which is therefore a lane and has this name.
      rw [List.foldl_append, List.foldl_cons, List.foldl_nil, lanes_placeRootBlock] at hname
      split_ifs at hname with ho
      · rw [get?_laneColumn] at hname
        split_ifs at hname with heq
        · exact ⟨⟨os, o, back, hsplit, ho⟩, hlength ▸ Nat.lt_succ_self os.length, heq, hold⟩
        · exact absurd (hold.symm.trans hname) (Option.some_ne_none column).symm
      · exact absurd (hold.symm.trans hname) (Option.some_ne_none column).symm

/-- So a name in the table of the draft in which a lane is placed belongs to a lane before it. -/
theorem exists_isBefore {name : String} {column : Nat}
    (hname : l.opened.lanes.get? name = some column) :
    ∃ k : Lane root, k.IsBefore l ∧ k.name = name ∧ k.opened.lanes.get? name = none :=
  exists_of_get? l.splits hname

/-- A label is the name of its lane. -/
theorem name_of_label? {label : String} (h : l.label? = some label) : l.name = label := by
  rw [name, laneName, show l.outline.block.label? = some label from h, Option.getD_some]

/-- A lane without a label gets its name made up. -/
theorem name_of_unlabelled (h : l.label? = none) :
    l.name = "lane" ++ "_" ++ toString (l.opened.lanes.length + 1) := by
  rw [name, laneName, show l.outline.block.label? = none from h, Option.getD_none]
  rfl

/-- A name that is made up and new is not made up again. -/
theorem IsBefore.name_ne (h : l.IsBefore m) (hl : l.label? = none) (hm : m.label? = none)
    (hnew : l.opened.lanes.get? l.name = none) : l.name ≠ m.name := by
  intro heq
  rw [name_of_unlabelled hl, name_of_unlabelled hm] at heq
  have hcount := (numbered_inj.mp heq).2
  have hgrown : (l.opened.placeRootBlock l.outline).lanes.length = l.opened.lanes.length + 1 := by
    rw [lanes_placeRootBlock, if_pos l.isLane]
    exact (length_laneColumn _ _).trans (congrArg _ (if_pos hnew))
  have hkept := h.keepsLanes.count
  omega

/-- When two lanes have one name, it is a label. -/
theorem IsBefore.exists_labelled (h : l.IsBefore m) (heq : l.name = m.name) :
    ∃ k : Lane root, k.label? = some m.name := by
  by_contra hnone
  -- Otherwise the lane for which the name was new has no label, and neither has the second lane.
  have hunlabelled : ∀ k : Lane root, k.name = m.name → k.label? = none := by
    intro k hk
    cases hlabel : k.label? with
    | none => rfl
    | some label => exact absurd ⟨k, by rw [hlabel, ← name_of_label? hlabel, hk]⟩ hnone
  have hknown := h.keepsLanes.names l.get?_name
  obtain ⟨k, hk, hname, hnew⟩ := exists_isBefore hknown
  rw [heq] at hname
  rw [heq, ← hname] at hnew
  exact hk.name_ne (hunlabelled k hname) (hunlabelled m rfl) hnew hname

/-- A lane without a label shares its column if and only if a lane is labelled with its name. -/
theorem shares_iff (hl : l.label? = none) :
    (∃ m, m ≠ l ∧ m.column = l.column) ↔ ∃ m : Lane root, m.label? = some l.name := by
  constructor
  · rintro ⟨m, hne, hcolumn⟩
    have hname := (column_eq_iff m l).mp hcolumn
    rcases isBefore_or hne with h | h
    · exact h.exists_labelled hname
    · rw [← hname]
      exact h.exists_labelled hname.symm
  · rintro ⟨m, hm⟩
    refine ⟨m, ?_, (column_eq_iff m l).mpr (name_of_label? hm)⟩
    rintro rfl
    rw [hl] at hm
    cases hm

/-! ## Which columns they are -/

/-- The first lane takes the primary column. -/
theorem column_of_first (h : ∀ m : Lane root, ¬ m.IsBefore l) : l.column = primaryColumn := by
  have hnil : l.opened.lanes = [] := by
    cases hlanes : l.opened.lanes with
    | nil => rfl
    | cons p lanes =>
      have hname : l.opened.lanes.get? p.1 = some p.2 := by
        rw [hlanes, Table.get?, if_pos rfl]
      obtain ⟨k, hk, -⟩ := exists_isBefore hname
      exact absurd hk (h k)
  rcases laneColumn_cases l.opened l.name with ⟨c, hc, -⟩ | ⟨-, ⟨-, he⟩ | ⟨hsome, -⟩⟩
  · rw [hnil] at hc
    cases hc
  · exact congrArg Prod.fst he
  · exact absurd hnil hsome

/-- A later lane with a new name opens its column. -/
theorem column_of_new (h : k.IsBefore l) (hnew : ∀ m : Lane root, m.IsBefore l → m.name ≠ l.name) :
    l.column ∉ l.opened.columns.keys ∧ ∀ n ∈ l.opened.diagram.nodes, n.column ≠ l.column := by
  have hregistry := l.laneTable_opened.registry
  have hcolumn : l.column = l.opened.nextColumn := by
    rcases laneColumn_cases l.opened l.name with ⟨c, hc, -⟩ | ⟨-, ⟨hnil, -⟩ | ⟨-, he⟩⟩
    · obtain ⟨m, hm, hname, -⟩ := exists_isBefore hc
      exact absurd hname (hnew m hm)
    · have hk := h.keepsLanes.names k.get?_name
      rw [hnil] at hk
      cases hk
    · exact congrArg Prod.fst he
  rw [hcolumn]
  refine ⟨hregistry.nextColumn_notMem, fun n hn hsame => ?_⟩
  exact hregistry.nextColumn_notMem (hsame ▸ hregistry.column_mem hn)

/-! ## The blocks of a lane -/

/-- What the first blocks of a lane have left is still there when all blocks of the root have been
placed. -/
theorem covers_written (l : Lane root) {before after : List Outline}
    (h : l.outline.children = before ++ after) :
    ∃ P, Covers P (l.behind before) (written root) := by
  have hplaced : l.opened.placeRootBlock l.outline =
      after.foldl (placeInLane l.name l.column) (l.behind before) := by
    have hall : l.opened.placeRootBlock l.outline = l.behind l.outline.children := if_pos l.isLane
    rw [hall, h, behind, List.foldl_append]
    rfl
  have hwritten : written root = l.back.foldl placeRootBlock
      (after.foldl (placeInLane l.name l.column) (l.behind before)) := by
    rw [written, l.splits, List.foldl_append, List.foldl_cons, ← hplaced]
    rfl
  rw [hwritten]
  exact ⟨_, (foldl_covers (placeInLane_covers l.name l.column) after _).trans
    (foldl_covers placeRootBlock_covers l.back _) fun _ _ => Iff.rfl⟩

/-- **A block of a lane** is refused, or its icon stands in the column of the lane. -/
theorem stands (l : Lane root) {before after : List Outline} {child : Outline}
    (h : l.outline.children = before ++ child :: after) :
    StandsInLane root l.column child (l.behind before) (l.behind (before ++ [child])) := by
  have hclosed : l.behind (before ++ [child]) =
      placeInLane l.name l.column (l.behind before) child := by
    rw [behind, List.foldl_append]
    rfl
  obtain ⟨P, hlater⟩ := l.covers_written (h.trans (List.append_cons before child after))
  have hproblems := hlater.problems.trans (written_problems_isPrefix root)
  -- A refused block is reported when it is its turn, and reports are kept.
  have refused (fault : BuildFault) (he : placeInLane l.name l.column (l.behind before) child =
      (l.behind before).report fault child.block.span) :
      StandsInLane root l.column child (l.behind before) (l.behind (before ++ [child])) := by
    refine .refused fault (hclosed.trans he) (hproblems.subset ?_)
    rw [hclosed, he]
    exact List.mem_concat_self
  by_cases hroot : isRootOnly child.block.name
  · exact refused _ (if_pos hroot)
  · have hicon : placeInLane l.name l.column (l.behind before) child =
        (placeIcon child l.column (l.behind before)).1 := if_neg hroot
    cases hplaced : (placeIcon child l.column (l.behind before)).2 with
    | none =>
      obtain ⟨fault, he⟩ := placeIcon_refused hplaced
      exact refused fault (hicon.trans he)
    | some id =>
      obtain ⟨inner, hputs⟩ := placeIcon_puts hplaced
      have hentered := hputs.origins
      rw [← hicon, ← hclosed] at hentered
      -- What is placed later goes behind the icon and takes none away.
      obtain ⟨new, hnew, -⟩ := hlater.origins
      have hshown : (l.behind (before ++ [child])).diagram.origins ⊆
          (ofRoot root).diagram.origins := fun origin horigin =>
        (written_infix_origins root).subset (hnew ▸ List.mem_append_left new horigin)
      exact .placed _ rfl rfl hentered (hshown (hentered.subset List.mem_concat_self))

end Lane

/-- How the lanes of a root share columns. -/
structure LaneColumns (root : Block) : Prop where
  /-- A block of a lane is refused, or its icon stands in the column of the lane. -/
  stands : ∀ (l : Lane root) (before : List Outline) (child : Outline) (after : List Outline),
    l.outline.children = before ++ child :: after →
      StandsInLane root l.column child (l.behind before) (l.behind (before ++ [child]))
  /-- Two lanes have one column if and only if they have one name. -/
  named : ∀ l m : Lane root, l.column = m.column ↔ l.name = m.name
  /-- Two lanes with labels have one column if and only if they have one label. -/
  labelled : ∀ l m : Lane root, ∀ a ∈ l.label?, ∀ b ∈ m.label?, (l.column = m.column ↔ a = b)
  /-- A lane without a label shares its column if and only if a lane is labelled with the name that
  has been made up for it. -/
  unlabelled : ∀ l : Lane root, l.label? = none →
    ((∃ m, m ≠ l ∧ m.column = l.column) ↔
      ∃ m : Lane root, m.label? = some ("lane_" ++ toString (l.opened.lanes.length + 1)))
  /-- The first lane takes the primary column. -/
  first : ∀ l : Lane root, (∀ m : Lane root, ¬ m.IsBefore l) → l.column = primaryColumn
  /-- A later lane with a new name has a column in which there was no node before. -/
  later : ∀ k l : Lane root, k.IsBefore l → (∀ m : Lane root, m.IsBefore l → m.name ≠ l.name) →
    l.column ∉ l.opened.columns.keys ∧ ∀ n ∈ l.opened.diagram.nodes, n.column ≠ l.column

/-- **The columns of lanes**, for every root. Two lanes share a column where they have one name, that
is one label, or where an author has labelled a lane with the name made up for another one. -/
theorem lane_columns (root : Block) : LaneColumns root where
  stands l _ _ _ h := l.stands h
  named := Lane.column_eq_iff
  labelled l m a ha b hb := by
    rw [Lane.column_eq_iff, Lane.name_of_label? ha, Lane.name_of_label? hb]
  unlabelled l hl := by
    rw [Lane.shares_iff hl, Lane.name_of_unlabelled hl]
    rfl
  first l h := l.column_of_first h
  later _ _ h hnew := Lane.column_of_new h hnew

/-- A lane whose label is the name that is made up for the next one. -/
def sharedLaneSource : String :=
  "drakon \"d\" \x7b lane \"lane_2\" \x7b action \"a\" \x7b\x7d \x7d lane \x7b action \"b\" \x7b\x7d \x7d \x7d"

/-- A lane without a label can share its column with another lane, in a source that is read without
any diagnostic. -/
theorem exists_shared_lane :
    ¬ ∀ source diagram root, (Document.read source).diagnostics = [] →
      (Document.read source).diagram = some diagram →
      rootBlock? (Document.read source).statements = some root →
      ∀ l m : Lane root, l ≠ m → m.label? = none →
        ∀ a ∈ diagram.nodes, (∃ o ∈ l.outline.children, o.block.label? = some a.id) →
        ∀ b ∈ diagram.nodes, (∃ o ∈ m.outline.children, o.block.label? = some b.id) →
          a.column ≠ b.column := by
  intro hclaim
  obtain ⟨hclean, hnodes, hlanes⟩ : (Document.read sharedLaneSource).diagnostics = [] ∧
      (Document.read sharedLaneSource).diagram.any (fun diagram =>
        diagram.nodes.map (fun n => (n.id, n.column)) =
          [("d@start", 0), ("a", 0), ("b", 0), ("d@end", 0)]) = true ∧
      (rootBlock? (Document.read sharedLaneSource).statements).any (fun root =>
        root.outline.children.map (fun o =>
          (o.block.name, o.block.label?, o.children.map (·.block.label?))) =
            [("lane", some "lane_2", [some "a"]), ("lane", none, [some "b"])]) = true := by
    decide +kernel
  obtain ⟨diagram, hdiagram, hnodes⟩ := (Option.any_eq_true _ _).mp hnodes
  obtain ⟨root, hroot, hlanes⟩ := (Option.any_eq_true _ _).mp hlanes
  obtain ⟨first, _, hsplit, hfirst, hrest⟩ := List.map_eq_cons_iff.mp (of_decide_eq_true hlanes)
  obtain ⟨second, _, rfl, hsecond, hnil⟩ := List.map_eq_cons_iff.mp hrest
  rw [List.map_eq_nil_iff.mp hnil] at hsplit
  simp only [Prod.mk.injEq] at hfirst hsecond
  let l : Lane root := ⟨[], first, [second], hsplit, hfirst.1⟩
  let m : Lane root := ⟨[first], second, [], hsplit, hsecond.1⟩
  have hne : l ≠ m := fun heq => List.cons_ne_nil _ _ (congrArg Lane.front heq).symm
  -- Both blocks stand in the primary column.
  have hnode : ∀ id ∈ ["a", "b"], ∃ n ∈ diagram.nodes, n.id = id ∧ n.column = 0 := by
    intro id hid
    have hmem : (id, 0) ∈ diagram.nodes.map (fun n => (n.id, n.column)) := by
      rw [of_decide_eq_true hnodes]
      revert id
      decide
    obtain ⟨n, hn, heq⟩ := List.mem_map.mp hmem
    exact ⟨n, hn, congrArg Prod.fst heq, congrArg Prod.snd heq⟩
  obtain ⟨a, ha, hida, hcolumna⟩ := hnode "a" (by decide)
  obtain ⟨b, hb, hidb, hcolumnb⟩ := hnode "b" (by decide)
  have hchild : ∀ {o : Outline} {id : String}, o.children.map (·.block.label?) = [some id] →
      ∃ child ∈ o.children, child.block.label? = some id := by
    intro o id hmap
    exact List.mem_map.mp (hmap ▸ List.mem_cons_self)
  exact hclaim sharedLaneSource diagram root hclean hdiagram hroot l m hne hsecond.2.1
    a ha (hida ▸ hchild hfirst.2.2) b hb (hidb ▸ hchild hsecond.2.2)
    (hcolumna.trans hcolumnb.symm)

end Flowchart
