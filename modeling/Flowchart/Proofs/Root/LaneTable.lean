import Flowchart.Proofs.Draft.ArmColumns
import Flowchart.Proofs.Root.Nodes

/-!
# The table of lanes

A draft remembers the column of each lane under the name of the lane. Placing icons leaves the table
as it is (`lanes_placeIcon`), so it changes only where a lane is placed whose name is new
(`lanes_placeRootBlock`). Such a lane takes the primary column when it is the first one, and else a
column that is not yet open. So different names have different columns (`LaneTable`), and a name
keeps its column (`KeepsLanes`).
-/

namespace Flowchart.Draft

/-! ## Placing icons -/

/-- Entering or refusing a node leaves the lanes as they are. -/
theorem lanes_register (d : Draft) (node : Node) (p : Placement) :
    (d.register node p).1.lanes = d.lanes := by
  rcases register_cases d node p with ⟨first, he, -⟩ | ⟨-, he⟩
  · rw [he]
    rfl
  · obtain ⟨aliases, -, heq⟩ := enter_eq d node p
    rw [he, heq]

/-- Closing a loop leaves the lanes as they are. -/
theorem lanes_closeLoop (d : Draft) (loop : String) (column : Nat) :
    (d.closeLoop loop column).lanes = d.lanes := lanes_register d _ .back

/-- The column of a branch belongs to no lane. -/
theorem lanes_branchColumn (d : Draft) (a : Answer) (attributes : Attributes) :
    (d.branchColumn a attributes).2.lanes = d.lanes := by
  unfold branchColumn
  split
  · rfl
  · split
    · rfl
    · split <;> rfl

/-- Linking a question to its branch leaves the lanes as they are. -/
theorem lanes_linkBranch (d : Draft) (a : Answer) (first : String) :
    (d.linkBranch a first).lanes = d.lanes := by
  unfold linkBranch
  split <;> rfl

/-- Closing a branch leaves the lanes as they are. -/
theorem lanes_closeBranch (d : Draft) (a : Answer) (column before : Nat) :
    (d.closeBranch a column before).lanes = d.lanes := by
  unfold closeBranch
  split
  · rfl
  · exact lanes_linkBranch d a _

/-- Keeping the target of a choice leaves the lanes as they are. -/
theorem lanes_keepChoiceNext (d : Draft) (choice : String) (next : Option String) (span : Span) :
    (d.keepChoiceNext choice next span).lanes = d.lanes := by
  unfold keepChoiceNext
  split <;> rfl

mutual

/-- Placing a block leaves the lanes as they are. -/
theorem lanes_placeIcon : ∀ (o : Outline) (column : Nat) (d : Draft),
    (placeIcon o column d).1.lanes = d.lanes
  | .mk block children yes no, column, d => by
    rw [placeIcon]
    split
    · rfl
    · dsimp only
      generalize block.label?.getD _ = id
      generalize NodeKind.ofName block.name = kind
      have hentered := lanes_register d (block.node kind id column) .back
      generalize d.register (block.node kind id column) .back = r at hentered ⊢
      obtain ⟨entered, isNew⟩ := r
      dsimp only at hentered ⊢
      rw [← hentered]
      split
      · rfl
      · -- Only three kinds of blocks have others placed with them.
        cases kind with
        | question =>
          cases yes with
          | none =>
            cases no with
            | none => rfl
            | some n => exact lanes_placeBranch n _ entered
          | some y =>
            cases no with
            | none => exact lanes_placeBranch y _ entered
            | some n =>
              dsimp only
              split
              · rfl
              · split
                · exact (lanes_placeBranch y _ _).trans (lanes_placeBranch n _ entered)
                · exact (lanes_placeBranch n _ _).trans (lanes_placeBranch y _ entered)
        | choice =>
          exact (lanes_placeArms children id column true [] _).trans
            (lanes_keepChoiceNext entered id _ _)
        | forEach =>
          dsimp only
          split
          · rfl
          · exact (lanes_closeLoop _ id column).trans (lanes_placeAll children column entered)
        | _ => rfl
termination_by structural o => o

/-- Placing blocks one below the other leaves the lanes as they are. -/
theorem lanes_placeAll : ∀ (os : List Outline) (column : Nat) (d : Draft),
    (placeAll os column d).lanes = d.lanes
  | [], _, _ => rfl
  | o :: os, column, d => (lanes_placeAll os column _).trans (lanes_placeIcon o column d)
termination_by structural os => os

/-- Placing what an answer leads to leaves the lanes as they are. -/
theorem lanes_placeBranch : ∀ (b : Branch) (a : Answer) (d : Draft),
    (placeBranch b a d).lanes = d.lanes
  | .mk isWritten attributes icons, a, d => by
    rw [placeBranch]
    split
    · rfl
    · split
      · rfl
      · exact (lanes_closeBranch _ a _ _).trans ((lanes_placeInBranch icons a _ _).trans
          (lanes_branchColumn d a attributes))
termination_by structural b => b

/-- Placing the blocks of a branch leaves the lanes as they are. -/
theorem lanes_placeInBranch : ∀ (os : List Outline) (a : Answer) (column : Nat) (d : Draft),
    (placeInBranch os a column d).lanes = d.lanes
  | [], _, _, _ => rfl
  | o :: os, a, column, d => by
    rw [placeInBranch, lanes_placeInBranch os a column]
    split
    · rfl
    · exact lanes_placeIcon o column d
termination_by structural os => os

/-- Placing the children of a choice leaves the lanes as they are. -/
theorem lanes_placeArms : ∀ (os : List Outline) (choice : String) (column : Nat) (isFirst : Bool)
    (arms : List Arm) (d : Draft),
    (placeArms os choice column isFirst arms d).1.lanes = d.lanes
  | [], _, _, _, _, _ => rfl
  | .mk block children yes no :: os, choice, column, isFirst, arms, d => by
    rw [placeArms]
    cases ArmKind.ofName? block.name with
    | none =>
      exact (lanes_placeArms os choice column false arms _).trans
        (lanes_placeIcon (.mk block children yes no) column d)
    | some kind =>
      dsimp only
      have hopened : (if isFirst then (column, d) else d.openColumn).2.lanes = d.lanes := by
        split <;> rfl
      generalize (if isFirst then (column, d) else d.openColumn) = opened at hopened ⊢
      generalize block.label?.getD _ = id
      have hentered := lanes_register opened.2 (block.node kind.nodeKind id opened.1) .back
      generalize opened.2.register (block.node kind.nodeKind id opened.1) .back = r at hentered ⊢
      rw [← hopened, ← hentered]
      split
      · exact lanes_placeArms os choice column false arms r.1
      · exact (lanes_placeArms os choice column false _ _).trans
          (lanes_placeInArm children opened.1 none r.1)
termination_by structural os => os

/-- Placing the blocks of an arm leaves the lanes as they are. -/
theorem lanes_placeInArm : ∀ (os : List Outline) (column : Nat) (last : Option String) (d : Draft),
    (placeInArm os column last d).1.lanes = d.lanes
  | [], _, _, _ => rfl
  | o :: os, column, _, d =>
    (lanes_placeInArm os column _ _).trans (lanes_placeIcon o column d)
termination_by structural os => os

end

/-! ## Placing lanes -/

/-- What finding the column of a lane comes to: its name has one, or it is the first of all names,
or it gets the next column. -/
theorem laneColumn_cases (d : Draft) (name : String) :
    (∃ column, d.lanes.get? name = some column ∧ d.laneColumn name = (column, d)) ∨
    d.lanes.get? name = none ∧
      (d.lanes = [] ∧ d.laneColumn name =
          (primaryColumn, { d with lanes := d.lanes.put name primaryColumn }) ∨
        d.lanes ≠ [] ∧ d.laneColumn name = (d.nextColumn,
          { d.useColumn d.nextColumn with lanes := d.lanes.put name d.nextColumn })) := by
  unfold laneColumn
  cases hname : d.lanes.get? name with
  | some column => exact .inl ⟨column, rfl, rfl⟩
  | none =>
    refine .inr ⟨rfl, ?_⟩
    cases hempty : d.lanes.isEmpty with
    | true => exact .inl ⟨List.isEmpty_iff.mp hempty, rfl⟩
    | false => exact .inr ⟨List.isEmpty_eq_false_iff.mp hempty, rfl⟩

/-- Finding the column of a lane only makes sure that the column is open. -/
theorem get?_laneColumn (d : Draft) (name other : String) :
    (d.laneColumn name).2.lanes.get? other =
      if name = other then some (d.laneColumn name).1 else d.lanes.get? other := by
  rcases laneColumn_cases d name with ⟨column, hname, he⟩ | ⟨-, ⟨-, he⟩ | ⟨-, he⟩⟩
  · rw [he]
    split
    · rename_i heq
      exact heq ▸ hname
    · rfl
  · rw [he, Table.get?_put]
  · rw [he, Table.get?_put]

/-- A name that is new makes the table longer by one. -/
theorem length_laneColumn (d : Draft) (name : String) :
    (d.laneColumn name).2.lanes.length =
      d.lanes.length + if d.lanes.get? name = none then 1 else 0 := by
  have hput : ∀ column, d.lanes.get? name = none →
      (d.lanes.put name column).length = d.lanes.length + 1 := by
    intro column hname
    rw [Table.put_of_notMem (Table.get?_eq_none_iff.mp hname), List.length_append]
    rfl
  rcases laneColumn_cases d name with ⟨column, hname, he⟩ | ⟨hname, ⟨-, he⟩ | ⟨-, he⟩⟩
  · rw [he, hname, if_neg (Option.some_ne_none column)]
    rfl
  · rw [he, if_pos hname]
    exact hput _ hname
  · rw [he, if_pos hname]
    exact hput _ hname

/-- Placing the blocks of a lane leaves the lanes as they are. -/
theorem lanes_foldl_placeInLane (name : String) (column : Nat) (os : List Outline) (d : Draft) :
    (os.foldl (placeInLane name column) d).lanes = d.lanes := by
  induction os generalizing d with
  | nil => rfl
  | cons o os ih =>
    rw [List.foldl_cons, ih, placeInLane]
    split
    · rfl
    · exact lanes_placeIcon o column d

/-- Placing a block of a root changes the lanes only where it is a lane, and then only by finding
its column. -/
theorem lanes_placeRootBlock (d : Draft) (o : Outline) :
    (d.placeRootBlock o).lanes =
      if o.block.name = "lane" then (d.laneColumn (laneName o (d.lanes.length + 1))).2.lanes
      else d.lanes := by
  unfold placeRootBlock
  split
  · exact lanes_foldl_placeInLane _ _ o.children _
  · split
    · rfl
    · exact lanes_placeIcon o primaryColumn d

/-! ## What a table of lanes is -/

/-- Different names have different columns, all of them open, and so is the primary column. -/
structure LaneTable (d : Draft) : Prop where
  /-- Ids and names lead to nodes. -/
  registry : d.Registry
  /-- Two names do not share a column. -/
  apart : ∀ {a b column}, d.lanes.get? a = some column → d.lanes.get? b = some column → a = b
  /-- The column of a lane is open. -/
  opened : ∀ {name column}, d.lanes.get? name = some column → column ∈ d.columns.keys
  /-- So is the first column. -/
  primary : primaryColumn ∈ d.columns.keys

/-- A root block starts without lanes. -/
theorem laneTable_initial (root : Block) : (initial root).LaneTable :=
  ⟨(closed_initial root).registry, nofun, nofun, List.mem_cons_self⟩

/-- A table stays right when columns are opened and the lanes are left as they are. -/
theorem LaneTable.of_extends {d e : Draft} (h : d.LaneTable) (he : e.Registry) (hx : e.Extends d)
    (lanes : e.lanes = d.lanes) : e.LaneTable := by
  refine ⟨he, fun ha hb => ?_, fun ha => ?_, hx.columns _ h.primary⟩
  · rw [lanes] at ha hb
    exact h.apart ha hb
  · rw [lanes] at ha
    exact hx.columns _ (h.opened ha)

/-- Finding the column of a lane keeps the table. -/
theorem LaneTable.laneColumn {d : Draft} (h : d.LaneTable) (name : String) :
    (d.laneColumn name).2.LaneTable := by
  have hfound : (d.laneColumn name).2.Registry :=
    ((laneColumn_expands (fun _ => True) d name).passage h.registry).registry h.registry
  -- A new name has a column that none of the others has.
  have hnew : ∀ column, (∀ other, d.lanes.get? other ≠ some column) →
      ∀ {a b c}, (d.lanes.put name column).get? a = some c →
        (d.lanes.put name column).get? b = some c → a = b := by
    intro column hfree a b c ha hb
    rw [Table.get?_put] at ha hb
    split_ifs at ha hb with hna hnb hnb
    · exact hna.symm.trans hnb
    · exact absurd (hb.trans ha.symm) (hfree b)
    · exact absurd (ha.trans hb.symm) (hfree a)
    · exact h.apart ha hb
  have hopened : ∀ {column other c}, (d.lanes.put name column).get? other = some c →
      c = column ∨ c ∈ d.columns.keys := by
    intro column other c hother
    rw [Table.get?_put] at hother
    split_ifs at hother
    · exact .inl (Option.some.inj hother).symm
    · exact .inr (h.opened hother)
  rcases laneColumn_cases d name with ⟨column, -, he⟩ | ⟨-, ⟨hnil, he⟩ | ⟨-, he⟩⟩
  · rw [he]
    exact h
  · rw [he] at hfound ⊢
    refine ⟨hfound, hnew primaryColumn fun other => ?_, fun hother => ?_, h.primary⟩
    · rw [hnil]
      exact (Option.some_ne_none primaryColumn).symm
    · exact (hopened hother).elim (fun heq => heq ▸ h.primary) id
  · rw [he] at hfound ⊢
    have hfree : ∀ other, d.lanes.get? other ≠ some d.nextColumn := fun other hother =>
      h.registry.nextColumn_notMem (h.opened hother)
    exact ⟨hfound, hnew d.nextColumn hfree,
      fun hother => mem_columns_useColumn.mpr (hopened hother),
      mem_columns_useColumn.mpr (.inr h.primary)⟩

/-- Placing a block of a root keeps the table. -/
theorem LaneTable.placeRootBlock {d : Draft} (h : d.LaneTable) (o : Outline) :
    (d.placeRootBlock o).LaneTable := by
  by_cases ho : o.block.name = "lane"
  · -- The column is found, and then the blocks of the lane are placed in it.
    obtain ⟨name, hplaced⟩ : ∃ name, d.placeRootBlock o = o.children.foldl
        (placeInLane name (d.laneColumn name).1) (d.laneColumn name).2 := ⟨_, if_pos ho⟩
    have hcolumn := h.laneColumn name
    have hpassage := (foldl_expands (P := fun _ => True)
      (fun e _ => placeInLane_expands name (d.laneColumn name).1 e) o.children
      (d.laneColumn name).2 fun _ _ => trivial).passage hcolumn.registry
    rw [hplaced]
    exact hcolumn.of_extends (hpassage.registry hcolumn.registry) hpassage.extends
      (lanes_foldl_placeInLane _ _ _ _)
  · have hpassage := (placeRootBlock_expands (P := fun _ => True) d (o := o)
      fun _ _ => trivial).passage h.registry
    refine h.of_extends (hpassage.registry h.registry) hpassage.extends ?_
    rw [lanes_placeRootBlock, if_neg ho]

/-- Placing blocks of a root one after the other keeps it. -/
theorem LaneTable.foldl {d : Draft} (h : d.LaneTable) (os : List Outline) :
    (os.foldl Draft.placeRootBlock d).LaneTable := by
  induction os generalizing d with
  | nil => exact h
  | cons o os ih => exact ih (h.placeRootBlock o)

/-! ## What becomes of the names -/

/-- The names keep their columns, and there are no fewer of them. -/
structure KeepsLanes (d e : Draft) : Prop where
  /-- A name keeps its column. -/
  names : ∀ {name column}, d.lanes.get? name = some column → e.lanes.get? name = some column
  /-- No name is lost. -/
  count : d.lanes.length ≤ e.lanes.length

/-- A draft keeps its own lanes. -/
theorem KeepsLanes.refl (d : Draft) : KeepsLanes d d := ⟨id, Nat.le_refl _⟩

/-- What is kept by two steps is kept by both together. -/
theorem KeepsLanes.trans {d e f : Draft} (h : KeepsLanes d e) (k : KeepsLanes e f) :
    KeepsLanes d f := ⟨fun hname => k.names (h.names hname), h.count.trans k.count⟩

/-- Placing a block or a lane of the root keeps all columns of lanes. -/
theorem placeRootBlock_keepsLanes (d : Draft) (o : Outline) :
    KeepsLanes d (d.placeRootBlock o) := by
  constructor
  · intro name column hname
    rw [lanes_placeRootBlock]
    split_ifs with ho
    · rw [get?_laneColumn]
      split_ifs with heq
      · rw [laneColumn, heq, hname]
      · exact hname
    · exact hname
  · rw [lanes_placeRootBlock]
    split_ifs with ho
    · rw [length_laneColumn]
      exact Nat.le_add_right _ _
    · exact Nat.le_refl _

/-- Placing blocks of a root one after the other. -/
theorem foldl_keepsLanes (os : List Outline) (d : Draft) :
    KeepsLanes d (os.foldl placeRootBlock d) := by
  induction os generalizing d with
  | nil => exact .refl d
  | cons o os ih => exact (placeRootBlock_keepsLanes d o).trans (ih _)

end Flowchart.Draft
