import Flowchart.Proofs.Draft.Connecting

/-!
# Edges stroke by stroke

Drawing edges reads nothing that drawing changes, apart from the pairs of nodes that are linked. So
the edges that columns, questions and arms ask for can be listed beforehand, one `Stroke` each, and
drawn one after the other; `linkColumns_eq`, `linkForks_eq` and `linkArms_eq` say that this is what
happens.

A stroke is left out when its two nodes are linked already, unless it is always drawn. `drawn` gives
those that remain and `foldl_draw` says what they make of a draft. Whatever is left out, the nodes of
every stroke are linked in the end (`ends_mem_keyed_drawn`), and no two nodes are linked twice
(`nodup_keyed_drawn`).
-/

namespace Flowchart

/-- An edge to draw between two nodes. -/
structure Stroke where
  /-- The edge that is drawn. -/
  edge : Edge
  /-- The node that it leaves. -/
  source : String
  /-- The node that it enters. -/
  target : String
  /-- Whether the edge is drawn even if the nodes are linked. -/
  always : Bool := false

namespace Stroke

/-- The two nodes of a stroke. -/
def ends (s : Stroke) : String × String := (s.source, s.target)

/-- The edge that a stroke leaves in the diagram. -/
def settled (s : Stroke) : Edge := s.edge.settle s.source s.target

/-- The strokes that remain, when the nodes of some pairs are linked. -/
def drawn : List (String × String) → List Stroke → List Stroke
  | _, [] => []
  | linked, s :: ss =>
    if s.always then s :: drawn linked ss
    else if linked.contains s.ends then drawn linked ss
    else s :: drawn (linked ++ [s.ends]) ss

/-- The pairs that strokes link. -/
def keyed (ss : List Stroke) : List (String × String) :=
  (ss.filter fun s => !s.always).map ends

/-! ## What remains -/

/-- A stroke that remains is one of those given. -/
theorem mem_of_mem_drawn {linked : List (String × String)} {ss : List Stroke} {s : Stroke}
    (h : s ∈ drawn linked ss) : s ∈ ss := by
  induction ss generalizing linked with
  | nil => exact h
  | cons t ss ih =>
    rw [drawn] at h
    split at h
    · exact (List.mem_cons.mp h).elim (fun e => e ▸ List.mem_cons_self) fun h =>
        List.mem_cons_of_mem t (ih h)
    · split at h
      · exact List.mem_cons_of_mem t (ih h)
      · exact (List.mem_cons.mp h).elim (fun e => e ▸ List.mem_cons_self) fun h =>
          List.mem_cons_of_mem t (ih h)

/-- A stroke that is always drawn remains. -/
theorem mem_drawn_of_always {linked : List (String × String)} {ss : List Stroke} {s : Stroke}
    (h : s ∈ ss) (ha : s.always = true) : s ∈ drawn linked ss := by
  induction ss generalizing linked with
  | nil => exact h
  | cons t ss ih =>
    rw [drawn]
    rcases List.mem_cons.mp h with rfl | h
    · rw [if_pos ha]
      exact List.mem_cons_self
    · split
      · exact List.mem_cons_of_mem t (ih h)
      · split
        · exact ih h
        · exact List.mem_cons_of_mem t (ih h)

/-- The pairs that strokes link are linked one after the other. -/
theorem keyed_append (ss ts : List Stroke) : keyed (ss ++ ts) = keyed ss ++ keyed ts := by
  rw [keyed, List.filter_append, List.map_append]
  rfl

/-- What strokes link. -/
theorem mem_keyed {ss : List Stroke} {p : String × String} :
    p ∈ keyed ss ↔ ∃ s ∈ ss, s.always = false ∧ s.ends = p := by
  simp [keyed, and_assoc]

/-- What is linked by the strokes that remain. -/
theorem keyed_drawn_cons {linked : List (String × String)} {s : Stroke} {ss : List Stroke} :
    keyed (drawn linked (s :: ss)) =
      if s.always ∨ s.ends ∈ linked then keyed (drawn linked ss)
      else s.ends :: keyed (drawn (linked ++ [s.ends]) ss) := by
  rw [drawn]
  cases ha : s.always with
  | true => simp [keyed, ha]
  | false => by_cases hl : s.ends ∈ linked <;> simp [keyed, ha, hl]

/-- The nodes of every stroke are linked in the end, if they were not before. -/
theorem ends_mem_keyed_drawn {linked : List (String × String)} {ss : List Stroke} {s : Stroke}
    (h : s ∈ ss) (ha : s.always = false) : s.ends ∈ linked ++ keyed (drawn linked ss) := by
  induction ss generalizing linked with
  | nil => exact absurd h List.not_mem_nil
  | cons t ss ih =>
    rw [keyed_drawn_cons]
    rcases List.mem_cons.mp h with rfl | h
    · split
      · rename_i hl
        exact List.mem_append_left _ (hl.resolve_left (by simp [ha]))
      · exact List.mem_append_right _ List.mem_cons_self
    · split
      · exact ih h
      · have hm : s.ends ∈ (linked ++ [t.ends]) ++ keyed (drawn (linked ++ [t.ends]) ss) := ih h
        rwa [List.append_assoc, List.singleton_append] at hm

/-- No two nodes are linked twice, nor those that were linked before. -/
theorem nodup_keyed_drawn (linked : List (String × String)) (ss : List Stroke) :
    (keyed (drawn linked ss)).Nodup ∧ ∀ p ∈ keyed (drawn linked ss), p ∉ linked := by
  induction ss generalizing linked with
  | nil => exact ⟨List.nodup_nil, fun _ h => absurd h List.not_mem_nil⟩
  | cons s ss ih =>
    rw [keyed_drawn_cons]
    split
    · exact ih linked
    · rename_i hs
      obtain ⟨hnodup, hnew⟩ := ih (linked ++ [s.ends])
      have hself : s.ends ∉ keyed (drawn (linked ++ [s.ends]) ss) := fun hm =>
        hnew _ hm List.mem_concat_self
      refine ⟨List.nodup_cons.mpr ⟨hself, hnodup⟩, fun p hp => ?_⟩
      rcases List.mem_cons.mp hp with rfl | hp
      · exact not_or.mp hs |>.2
      · exact fun hl => hnew p hp (List.mem_append_left _ hl)

/-- The strokes that remain of two lists, one after the other. -/
theorem drawn_append (linked : List (String × String)) (ss ts : List Stroke) :
    drawn linked (ss ++ ts) = drawn linked ss ++ drawn (linked ++ keyed (drawn linked ss)) ts := by
  induction ss generalizing linked with
  | nil => simp [drawn, keyed]
  | cons s ss ih =>
    rw [List.cons_append, keyed_drawn_cons, drawn, drawn]
    cases ha : s.always with
    | true => simp [ih]
    | false =>
      by_cases hl : s.ends ∈ linked
      · simp [hl, ih]
      · simp [hl, ih]

/-- Of the strokes that remain, only those that are always drawn can have the same nodes. -/
theorem eq_of_ends_eq {linked : List (String × String)} {ss : List Stroke} {s t : Stroke}
    (hs : s ∈ drawn linked ss) (ht : t ∈ drawn linked ss) (hs' : s.always = false)
    (ht' : t.always = false) (h : s.ends = t.ends) : s = t := by
  refine List.inj_on_of_nodup_map (nodup_keyed_drawn linked ss).1 ?_ ?_ h
  · exact List.mem_filter.mpr ⟨hs, by rw [hs']; rfl⟩
  · exact List.mem_filter.mpr ⟨ht, by rw [ht']; rfl⟩

/-- Of the strokes that remain, those from one node that link nodes lead to different ones. -/
theorem nodup_target (id : String) {linked : List (String × String)} {ss chosen : List Stroke}
    (hsub : chosen.Sublist (drawn linked ss)) (hkeyed : ∀ s ∈ chosen, s.always = false)
    (hid : ∀ s ∈ chosen, s.source = id) : (chosen.map target).Nodup := by
  have hfilter : chosen.filter (fun s => !s.always) = chosen :=
    List.filter_eq_self.mpr fun s hs => by rw [hkeyed s hs]; rfl
  have hends : (chosen.map ends).Nodup := by
    rw [← hfilter]
    exact ((hsub.filter _).map ends).nodup (nodup_keyed_drawn linked ss).1
  have hpairs : chosen.map ends = (chosen.map target).map fun target => (id, target) := by
    rw [List.map_map]
    exact List.map_congr_left fun s hs => Prod.ext (hid s hs) rfl
  exact .of_map _ (hpairs ▸ hends)

/-- Nodes that a stroke leads to are linked before, or by a stroke that remains. -/
theorem exists_mem_drawn {linked : List (String × String)} {ss : List Stroke} {s : Stroke}
    (hs : s ∈ ss) (hkeyed : s.always = false) (hnew : s.ends ∉ linked) :
    ∃ t ∈ drawn linked ss, t.always = false ∧ t.ends = s.ends :=
  mem_keyed.mp ((List.mem_append.mp (ends_mem_keyed_drawn hs hkeyed)).resolve_left hnew)

/-- The first stroke between nodes that are not linked remains. -/
theorem mem_drawn_of_first {linked : List (String × String)} {before after : List Stroke}
    {s : Stroke} (hlinked : s.ends ∉ linked) (hbefore : ∀ t ∈ before, t.ends ≠ s.ends) :
    s ∈ drawn linked (before ++ s :: after) := by
  have hnot : s.ends ∉ linked ++ keyed (drawn linked before) := by
    rw [List.mem_append, not_or]
    refine ⟨hlinked, fun hm => ?_⟩
    obtain ⟨t, ht, -, he⟩ := mem_keyed.mp hm
    exact hbefore t (mem_of_mem_drawn ht) he
  rw [drawn_append, drawn]
  refine List.mem_append_right _ ?_
  split
  · exact List.mem_cons_self
  · rw [if_neg (mt List.contains_iff_mem.mp hnot)]
    exact List.mem_cons_self

/-- All strokes that are always drawn remain, as often as they are given. -/
theorem filter_always_drawn (linked : List (String × String)) (ss : List Stroke) :
    (drawn linked ss).filter Stroke.always = ss.filter Stroke.always := by
  induction ss generalizing linked with
  | nil => rfl
  | cons s ss ih =>
    rw [drawn]
    cases ha : s.always with
    | true => simp [ha, ih]
    | false => by_cases hl : s.ends ∈ linked <;> simp [ha, hl, ih]

end Stroke

namespace Draft

open Stroke

/-- A draft with more edges and more pairs of linked nodes. -/
def extend (d : Draft) (edges : List Edge) (pairs : List (String × String)) : Draft :=
  { d with
    diagram := { d.diagram with edges := d.diagram.edges ++ edges }
    linked := d.linked ++ pairs }

/-- The new edges stand behind those that are there. -/
@[simp] theorem edges_extend (d : Draft) (edges : List Edge) (pairs : List (String × String)) :
    (d.extend edges pairs).diagram.edges = d.diagram.edges ++ edges := rfl

/-- The new links stand behind those that are there. -/
@[simp] theorem linked_extend (d : Draft) (edges : List Edge) (pairs : List (String × String)) :
    (d.extend edges pairs).linked = d.linked ++ pairs := rfl

/-- With no edges and no links a draft stays as it is. -/
theorem extend_nil (d : Draft) : d.extend [] [] = d := by
  unfold extend
  rw [List.append_nil, List.append_nil]

/-- Edges and links that are added twice are added one behind the other. -/
theorem extend_extend (d : Draft) (edges more : List Edge) (pairs others : List (String × String)) :
    (d.extend edges pairs).extend more others = d.extend (edges ++ more) (pairs ++ others) := by
  unfold extend
  dsimp only
  rw [List.append_assoc, List.append_assoc]

/-- Draws a stroke. -/
def draw (d : Draft) (s : Stroke) : Draft :=
  if s.always then d.connect s.edge s.source s.target else d.link s.edge s.source s.target

/-- Drawing a stroke adds its edge if it remains, and then links its nodes unless it is always
drawn. -/
theorem draw_eq (d : Draft) (s : Stroke) :
    d.draw s = d.extend ((drawn d.linked [s]).map settled) (keyed (drawn d.linked [s])) := by
  unfold draw link
  rw [drawn]
  cases ha : s.always with
  | true => simp [connect, Diagram.connect, extend, settled, keyed, ha, drawn]
  | false =>
    rw [if_neg Bool.false_ne_true, if_neg Bool.false_ne_true]
    cases hl : d.linked.contains s.ends with
    | true =>
      rw [ends] at hl
      rw [hl, if_pos rfl, if_pos rfl]
      exact (extend_nil d).symm
    | false =>
      rw [ends] at hl
      rw [hl, if_neg Bool.false_ne_true, if_neg Bool.false_ne_true]
      simp [noteLinked, connect, Diagram.connect, extend, settled, keyed, ha, drawn, ends]

/-- What drawing strokes makes of a draft. -/
theorem foldl_draw (ss : List Stroke) (d : Draft) :
    ss.foldl draw d =
      d.extend ((drawn d.linked ss).map settled) (keyed (drawn d.linked ss)) := by
  induction ss generalizing d with
  | nil => exact (extend_nil d).symm
  | cons s ss ih =>
    have hlinked : (d.draw s).linked = d.linked ++ keyed (drawn d.linked [s]) :=
      congrArg Draft.linked (draw_eq d s)
    have hcons := drawn_append d.linked [s] ss
    rw [List.singleton_append] at hcons
    rw [List.foldl_cons, ih, hlinked, hcons, List.map_append, keyed_append, ← extend_extend,
      ← draw_eq]

/-! ## The strokes of columns, questions and arms -/

/-- The stroke from a node to the next one. -/
def sequenceStroke (source target : String) : Stroke where
  edge := { source, target, kind := .main, attributes := .implicit [] }
  source
  target

/-- The stroke between two neighbours in a column; where the first one branches there is none. -/
def columnStroke (d : Draft) : String × String → Option Stroke
  | (source, target) => if d.isBranching source then none else some (sequenceStroke source target)

/-- The stroke that brings a branch back to the target. -/
def returnStroke (last branch : String) (target : Reference) : Stroke where
  edge :=
    { source := last
      target := target.full
      kind := .main
      attributes := .implicit [("branch", .text branch), ("rejoin", .truth true)] }
  source := last
  target := target.node

/-- The way back of a branch, unless it ends at the target. -/
def rejoinStroke (last branch : String) (target : Reference) : Option Stroke :=
  if last = target.node then none else some (returnStroke last branch target)

/-- The stroke down the main path of a question. -/
def mainStroke (question : String) (fork : Fork) (target : Reference) : Stroke where
  edge := forkEdge question target fork.side.opposite "branch_main"
  source := question
  target := target.node

/-- The stroke of an answer that leads straight to the target; it is always drawn. -/
def directStroke (question : String) (fork : Fork) (target : Reference) : Stroke where
  edge := forkEdge question target fork.side "branch_direct"
  source := question
  target := target.node
  always := true

/-- What the branch of a question asks for: it leads straight to the target, or it comes back. -/
def branchStrokes (question : String) (fork : Fork) (target : Reference) : List Stroke :=
  match fork.branchEnd with
  | none => [directStroke question fork target]
  | some last => (rejoinStroke last fork.side.key target).toList

/-- The strokes of a question; without a target there are none. -/
def forkStrokes (target : Option Reference) (p : String × Fork) : List Stroke :=
  match target with
  | some target => mainStroke p.1 p.2 target :: branchStrokes p.1 p.2 target
  | none => []

/-- The stroke from a choice to an arm. -/
def headStroke (arm : Arm) : Stroke where
  edge :=
    { source := arm.choice
      target := arm.id
      kind := arm.kind.edgeKind
      attributes := armAttributes arm "branch_case" }
  source := arm.choice
  target := arm.id

/-- The stroke from an arm without blocks to its target. -/
def emptyArmStroke (arm : Arm) (target : Reference) : Stroke where
  edge :=
    { source := arm.id
      target := target.full
      kind := arm.kind.edgeKind
      attributes := armAttributes arm "branch_direct" }
  source := arm.id
  target := target.node

/-- The strokes of an arm. -/
def armStrokes (target : Option Reference) (arm : Arm) : List Stroke :=
  headStroke arm ::
    match target, arm.armEnd with
    | none, _ => []
    | some target, none => [emptyArmStroke arm target]
    | some target, some last => (rejoinStroke last arm.kind.name target).toList

/-- Bringing a branch back is drawing its stroke. -/
theorem rejoin_eq (d : Draft) (last branch : String) (target : Reference) :
    d.rejoin last branch target = (rejoinStroke last branch target).toList.foldl draw d := by
  unfold rejoin rejoinStroke
  split <;> rfl

/-- Drawing the edges of a question is drawing its strokes. -/
theorem linkQuestion_eq (targets : Targets) (default : Option Reference) (d : Draft)
    (p : String × Fork) :
    linkQuestion targets default d p =
      (forkStrokes (targets.ofFork default p.1) p).foldl draw d := by
  obtain ⟨question, fork⟩ := p
  unfold linkQuestion forkStrokes
  dsimp only
  cases targets.ofFork default question with
  | none => rfl
  | some target =>
    dsimp only
    unfold linkFork branchStrokes
    dsimp only
    cases fork.branchEnd with
    | none => rfl
    | some last => exact rejoin_eq _ last _ target

/-- Drawing the edges of an arm is drawing its strokes. -/
theorem linkArm_eq (d : Draft) (arm : Arm) (target : Option Reference) :
    d.linkArm arm target = (armStrokes target arm).foldl draw d := by
  unfold linkArm armStrokes
  dsimp only
  cases target with
  | none => rfl
  | some target =>
    cases arm.armEnd with
    | none => rfl
    | some last => exact rejoin_eq _ last _ target

/-- Drawing the edges of every question is drawing their strokes. -/
theorem linkForks_eq (d : Draft) (targets : Targets) (default : Option Reference) :
    d.linkForks targets default =
      (d.forks.flatMap fun p => forkStrokes (targets.ofFork default p.1) p).foldl draw d := by
  rw [linkForks, List.foldl_flatMap]
  congr 1
  funext e p
  exact linkQuestion_eq targets default e p

/-- Drawing the edges of every choice is drawing the strokes of its arms. -/
theorem linkArms_eq (d : Draft) (targets : Targets) (default : Option Reference) :
    d.linkArms targets default =
      ((groupedArms d.arms).flatMap fun arm =>
        armStrokes (targets.ofArm default arm) arm).foldl draw d := by
  rw [linkArms, List.foldl_flatMap]
  congr 1
  funext e arm
  exact linkArm_eq e arm _

/-- Whether a node branches depends on the nodes and on what is kept. -/
theorem isBranching_congr {d e : Draft} (nodes : e.diagram.nodes = d.diagram.nodes)
    (forks : e.forks = d.forks) (arms : e.arms = d.arms) : e.isBranching = d.isBranching := by
  funext id
  simp only [isBranching, isCalled, Diagram.node?, nodes, forks, arms]

/-- Linking the neighbours in every column is drawing their strokes. -/
theorem linkColumns_eq (d : Draft) :
    d.linkColumns = (d.columnPairs.filterMap d.columnStroke).foldl draw d := by
  -- Drawing changes nothing that says where a node branches.
  suffices h : ∀ (pairs : List (String × String)) (e : Draft),
      e.diagram.nodes = d.diagram.nodes → e.forks = d.forks → e.arms = d.arms →
      pairs.foldl linkNeighbours e = (pairs.filterMap d.columnStroke).foldl draw e from
    h d.columnPairs d rfl rfl rfl
  intro pairs
  induction pairs with
  | nil => exact fun _ _ _ _ => rfl
  | cons p pairs ih =>
    intro e nodes forks arms
    obtain ⟨source, target⟩ := p
    have hbranch := congrFun (isBranching_congr nodes forks arms) source
    rw [List.foldl_cons, linkNeighbours, hbranch, List.filterMap_cons, columnStroke]
    cases hs : d.isBranching source with
    | true => exact ih e nodes forks arms
    | false =>
      change pairs.foldl linkNeighbours (e.draw (sequenceStroke source target)) =
        (pairs.filterMap d.columnStroke).foldl draw (e.draw (sequenceStroke source target))
      rw [draw_eq]
      exact ih _ nodes forks arms

end Draft

end Flowchart
