import Flowchart.Draft.Build
import Flowchart.Proofs.Table

/-!
# The operations on a draft

Building a diagram changes its draft by a few operations only. `Step` lists them, each under what is
known of its arguments whenever it is performed: an icon is entered under a free id, a name is
claimed for a node, an edge connects two nodes and names them. Everything that holds of a new draft
and is kept by each of these operations holds of every draft the building passes through.

`Step.extends` states what none of them undoes: an id stays in use, a claimed name stays with its
node, an open column stays open.
-/

namespace Flowchart

/-- A text that names a node: its id, or its id with an anchor behind an `@`. -/
def NamesNode (text id : String) : Prop := text = id ∨ ∃ anchor, text = id ++ "@" ++ anchor

/-- A list with one more member, at the end that the placement says. -/
def Placement.add {α : Type} (p : Placement) (a : α) (as : List α) : List α :=
  match p with
  | .back => as ++ [a]
  | .front => a :: as

namespace Draft

/-- A question and the end of its branch are nodes. -/
structure KnowsFork (d : Draft) (question : String) (fork : Fork) : Prop where
  /-- The question is a node. -/
  question : d.hasNode question
  /-- The end of the branch is a node. -/
  branchEnd : ∀ last ∈ fork.branchEnd, d.hasNode last

/-- An arm, its choice and its end are nodes. -/
structure KnowsArm (d : Draft) (arm : Arm) : Prop where
  /-- The choice is a node. -/
  choice : d.hasNode arm.choice
  /-- The head of the arm is a node. -/
  id : d.hasNode arm.id
  /-- The end of the arm is a node. -/
  armEnd : ∀ last ∈ arm.armEnd, d.hasNode last

/-- An edge names the two nodes that it is to connect. -/
structure Joins (d : Draft) (edge : Edge) (source target : String) : Prop where
  /-- The first node is there. -/
  source_known : d.hasNode source
  /-- The second node is there. -/
  target_known : d.hasNode target
  /-- The edge names the first node. -/
  source_named : NamesNode edge.source source
  /-- The edge names the second node. -/
  target_named : NamesNode edge.target target

/-- One operation on a draft. An operation may find nothing to do. -/
inductive Step (d : Draft) : Draft → Prop
  /-- Nothing is done. -/
  | stay : Step d d
  /-- A problem is noted. -/
  | report (fault : BuildFault) (span : Span) : Step d (d.report fault span)
  /-- A column is opened. -/
  | useColumn (column : Nat) : Step d (d.useColumn column)
  /-- A lane gets its column. -/
  | nameLane (lane : String) (column : Nat) : Step d { d with lanes := d.lanes.put lane column }
  /-- A node is entered whose id is free. -/
  | enter (node : Node) (p : Placement) (free : d.hasNode node.id = false) :
      Step d (d.enter node p)
  /-- A name is claimed for a node. -/
  | claim (name id : String) (known : d.hasNode id) : Step d (d.claim name id)
  /-- A node becomes the start. -/
  | setStart (id : String) (known : d.hasNode id) : Step d { d with start := some id }
  /-- A node gets its text. -/
  | setLabel (id label : String) : Step d (d.setLabel id label)
  /-- An attribute is set. -/
  | setAttribute (id key : String) (value : Value) : Step d (d.setAttribute id key value)
  /-- A question is kept. -/
  | keepFork (question : String) (fork : Fork) (known : d.KnowsFork question fork) :
      Step d { d with forks := d.forks.put question fork }
  /-- The target of a choice is kept. -/
  | keepChoiceNext (written : ChoiceNext) :
      Step d { d with choiceNexts := d.choiceNexts ++ [written] }
  /-- The arms of a choice are kept. -/
  | keepArms (arms : List Arm) (known : ∀ arm ∈ arms, d.KnowsArm arm) :
      Step d { d with arms := d.arms ++ arms }
  /-- An edge is drawn between nodes. -/
  | connect (edge : Edge) (source target : String) (joins : d.Joins edge source target) :
      Step d (d.connect edge source target)
  /-- An edge is drawn, and its nodes are noted as linked. -/
  | link (edge : Edge) (source target : String) (joins : d.Joins edge source target) :
      Step d ((d.noteLinked source target).connect edge source target)
  /-- A decoration is taken in. -/
  | attach (attachment : Attachment) :
      Step d { d with
        diagram := { d.diagram with attachments := d.diagram.attachments ++ [attachment] } }
  /-- A note is taken in. -/
  | addNote (note : Note) :
      Step d { d with diagram := { d.diagram with notes := d.diagram.notes ++ [note] } }
  /-- The ends of all edges are noted. -/
  | settle : Step d d.settleEdges

/-! ## What the operations do -/

/-- A node is there when its id is in use. -/
theorem hasNode_iff {d : Draft} {id : String} : d.hasNode id = true ↔ id ∈ d.ids.keys :=
  Table.has_iff

/-- Opening a column leaves every column its nodes. -/
theorem columnIds_useColumn (d : Draft) (column c : Nat) :
    (d.useColumn column).columnIds c = d.columnIds c := by
  unfold columnIds useColumn
  dsimp only
  split
  · rfl
  · rename_i hc
    rw [Table.get?_put]
    split
    · rename_i heq
      rw [← heq, Table.get?_eq_none_iff.mpr (mt Table.has_iff.mpr hc)]
      rfl
    · rfl

/-- The open columns after one more has been asked for. -/
theorem mem_columns_useColumn {d : Draft} {column c : Nat} :
    c ∈ (d.useColumn column).columns.keys ↔ c = column ∨ c ∈ d.columns.keys := by
  unfold useColumn
  dsimp only
  split
  · rename_i hc
    exact ⟨.inr, fun h => h.elim (fun e => e ▸ Table.has_iff.mp hc) id⟩
  · exact Table.mem_keys_put

/-- Opening a column opens none twice. -/
theorem nodup_columns_useColumn {d : Draft} (h : d.columns.keys.Nodup) (column : Nat) :
    (d.useColumn column).columns.keys.Nodup := by
  unfold useColumn
  dsimp only
  split
  · exact h
  · exact Table.nodup_keys_put h _ _

/-- What claiming names for a node does to the claimed names: those that were claimed stay, new ones
are among the given names and lead to the node, and none of the given names is left unclaimed unless
it is blank. -/
structure ClaimedFor (names : List String) (id : String) (before after : Table String String) :
    Prop where
  /-- A name keeps the node that it has. -/
  kept : ∀ name other, before.get? name = some other → after.get? name = some other
  /-- A new name belongs to this node. -/
  new : ∀ name other, (name, other) ∈ after → (name, other) ∈ before ∨ other = id
  /-- All of the names are claimed then, by this node or before. -/
  claimed : ∀ name ∈ names, ∀ trimmed, Text.trimmed? name = some trimmed → after.has trimmed
  /-- No other names are. -/
  given : ∀ trimmed ∈ after.keys, trimmed ∈ before.keys ∨
    ∃ name ∈ names, Text.trimmed? name = some trimmed

/-- Claimed names stay claimed. -/
theorem ClaimedFor.has {names : List String} {id : String} {before after : Table String String}
    (h : ClaimedFor names id before after) {name : String} (hn : before.has name) :
    after.has name := by
  obtain ⟨other, ho⟩ := Option.isSome_iff_exists.mp hn
  exact Option.isSome_iff_exists.mpr ⟨other, h.kept name other ho⟩

/-- Claiming a name changes the claimed names only. -/
theorem claim_eq (d : Draft) (name id : String) :
    ∃ aliases, ClaimedFor [name] id d.aliases aliases ∧ d.claim name id = { d with aliases } := by
  unfold claim
  split
  · -- A blank name claims nothing.
    rename_i hblank
    refine ⟨d.aliases, ⟨fun _ _ h => h, fun _ _ h => .inl h, fun n hn t ht => ?_, fun _ => .inl⟩,
      rfl⟩
    rw [List.mem_singleton.mp hn, hblank] at ht
    exact nomatch ht
  · rename_i trimmed htrimmed
    have hname : ∀ n ∈ [name], ∀ t, Text.trimmed? n = some t → t = trimmed := by
      intro n hn t ht
      rw [List.mem_singleton.mp hn, htrimmed] at ht
      exact (Option.some.inj ht).symm
    -- A name that has been claimed stays with its node, a new one leads to this node.
    split
    · rename_i hold
      refine ⟨d.aliases, ⟨fun _ _ h => h, fun _ _ h => .inl h, fun n hn t ht => ?_, fun _ => .inl⟩,
        rfl⟩
      exact hname n hn t ht ▸ hold
    · rename_i hnew
      refine ⟨d.aliases.put trimmed id,
        ⟨fun n other h => ?_, fun n other h => ?_, fun n hn t ht => ?_, fun t ht => ?_⟩, rfl⟩
      · rw [Table.get?_put, if_neg, h]
        rintro rfl
        exact hnew (Table.has_iff.mpr (Table.mem_keys_of_get? h))
      · exact (Table.mem_put h).elim (fun e => .inr e.2) .inl
      · exact Table.has_iff.mpr (Table.mem_keys_put.mpr (.inl (hname n hn t ht)))
      · rcases Table.mem_keys_put.mp ht with rfl | ht
        · exact .inr ⟨name, List.mem_singleton_self _, htrimmed⟩
        · exact .inl ht

/-- Claiming several names changes the claimed names only. -/
theorem claimAll_eq (names : List String) (id : String) (d : Draft) :
    ∃ aliases, ClaimedFor names id d.aliases aliases ∧
      d.claimAll names id = { d with aliases } := by
  induction names generalizing d with
  | nil =>
    exact ⟨d.aliases, ⟨fun _ _ h => h, fun _ _ h => .inl h,
      fun _ hn => absurd hn List.not_mem_nil, fun _ => .inl⟩, rfl⟩
  | cons name names ih =>
    obtain ⟨a, ha, hd⟩ := claim_eq d name id
    obtain ⟨b, hb, he⟩ := ih (d.claim name id)
    rw [hd] at hb
    -- The names claimed by the first name stay claimed while the others are.
    refine ⟨b, ⟨fun n other h => hb.kept _ _ (ha.kept _ _ h), fun n other h => ?_,
      fun n hn t ht => ?_, fun t ht => ?_⟩, ?_⟩
    · exact (hb.new n other h).elim (ha.new n other) .inr
    · rcases List.mem_cons.mp hn with rfl | hn
      · exact hb.has (ha.claimed n List.mem_cons_self t ht)
      · exact hb.claimed n hn t ht
    · rcases hb.given t ht with ht | ⟨n, hn, hnt⟩
      · refine (ha.given t ht).imp_right fun ⟨n, hn, hnt⟩ => ⟨n, ?_, hnt⟩
        exact List.mem_singleton.mp hn ▸ List.mem_cons_self
      · exact .inr ⟨n, List.mem_cons_of_mem _ hn, hnt⟩
    · rw [claimAll, List.foldl_cons, ← claimAll, he, hd]

/-- Entering a node puts it into the diagram, its id into its column and into the ids in use, and
claims its names. -/
theorem enter_eq (d : Draft) (node : Node) (p : Placement) :
    ∃ aliases, ClaimedFor (namesOf node) node.id d.aliases aliases ∧ d.enter node p =
      { d with
        ids := d.ids.put node.id node.block.span
        columns := (d.useColumn node.column).columns.put node.column
          (p.add node.id (d.columnIds node.column))
        nextColumn := max d.nextColumn (node.column + 1)
        diagram := { d.diagram with nodes := p.add node d.diagram.nodes }
        aliases } := by
  unfold enter
  dsimp only
  rw [columnIds_useColumn]
  cases p with
  | back =>
    obtain ⟨a, ha, he⟩ := claimAll_eq (namesOf node) node.id
      { d.useColumn node.column with
        columns := (d.useColumn node.column).columns.put node.column
          (d.columnIds node.column ++ [node.id])
        diagram := d.diagram.append node
        ids := d.ids.put node.id node.block.span }
    exact ⟨a, ha, he⟩
  | front =>
    obtain ⟨a, ha, he⟩ := claimAll_eq (namesOf node) node.id
      { d.useColumn node.column with
        columns := (d.useColumn node.column).columns.put node.column
          (node.id :: d.columnIds node.column)
        diagram := d.diagram.prepend node
        ids := d.ids.put node.id node.block.span }
    exact ⟨a, ha, he⟩

/-- Entering a node puts its id at one end of its column; no other column changes. -/
theorem columnIds_enter (d : Draft) (node : Node) (p : Placement) (c : Nat) :
    (d.enter node p).columnIds c =
      if node.column = c then p.add node.id (d.columnIds c) else d.columnIds c := by
  obtain ⟨a, -, he⟩ := enter_eq d node p
  rw [he, columnIds]
  dsimp only
  rw [Table.get?_put]
  split
  · rename_i hc
    rw [hc]
    rfl
  · exact columnIds_useColumn d node.column c

/-- A node goes behind those of its column. -/
theorem columnIds_enter_self (d : Draft) (node : Node) :
    (d.enter node .back).columnIds node.column = d.columnIds node.column ++ [node.id] := by
  rw [columnIds_enter, if_pos rfl]
  rfl

/-- Reporting faults adds problems and nothing else. -/
theorem foldl_report_eq (faults : List BuildFault) (d : Draft) :
    faults.foldl (fun d fault => d.report fault) d =
      { d with problems := d.problems ++ faults.map fun fault => ⟨fault, .nowhere⟩ } := by
  induction faults generalizing d with
  | nil => simp
  | cons fault faults ih =>
    rw [List.foldl_cons, ih]
    simp [report, List.append_assoc]

/-- The last check changes problems and edges only. -/
theorem settleEdges_eq (d : Draft) :
    d.settleEdges =
      { d with
        problems := d.problems ++
          (d.diagram.edges.flatMap d.danglingEnds).map fun fault => ⟨fault, .nowhere⟩
        diagram := { d.diagram with
          edges := d.diagram.edges.map fun e => e.settle e.leaves e.enters } } := by
  rw [settleEdges, foldl_report_eq]

/-! ## What no operation undoes -/

/-- A draft keeps the ids, the claimed names and the open columns of another one. -/
structure Extends (e d : Draft) : Prop where
  /-- No node is lost. -/
  hasNode : ∀ id, d.hasNode id → e.hasNode id
  /-- No name changes. -/
  aliases : ∀ name id, d.aliases.get? name = some id → e.aliases.get? name = some id
  /-- No column is closed. -/
  columns : ∀ c ∈ d.columns.keys, c ∈ e.columns.keys

/-- A draft extends itself. -/
theorem Extends.refl (d : Draft) : d.Extends d := ⟨fun _ h => h, fun _ _ h => h, fun _ h => h⟩

/-- What extends a draft in between extends the first one. -/
theorem Extends.trans {f e d : Draft} (hf : f.Extends e) (he : e.Extends d) : f.Extends d :=
  ⟨fun id h => hf.hasNode id (he.hasNode id h), fun n id h => hf.aliases n id (he.aliases n id h),
    fun c h => hf.columns c (he.columns c h)⟩

/-- No operation gives up an id, a name or a column. -/
theorem Step.extends {d e : Draft} (h : d.Step e) : e.Extends d := by
  cases h with
  | useColumn column =>
    exact ⟨fun _ h => h, fun _ _ h => h, fun c h => mem_columns_useColumn.mpr (.inr h)⟩
  | enter node p free =>
    obtain ⟨a, ha, he⟩ := enter_eq d node p
    rw [he]
    refine ⟨fun id h => ?_, ha.kept, fun c h => ?_⟩
    · exact hasNode_iff.mpr (Table.mem_keys_put.mpr (.inr (hasNode_iff.mp h)))
    · exact Table.mem_keys_put.mpr (.inr (mem_columns_useColumn.mpr (.inr h)))
  | claim name id known =>
    obtain ⟨a, ha, he⟩ := claim_eq d name id
    rw [he]
    exact ⟨fun _ h => h, ha.kept, fun _ h => h⟩
  | settle =>
    rw [settleEdges_eq]
    exact ⟨fun _ h => h, fun _ _ h => h, fun _ h => h⟩
  | _ => exact ⟨fun _ h => h, fun _ _ h => h, fun _ h => h⟩

end Draft

end Flowchart
