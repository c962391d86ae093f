import Flowchart.Layout.Depth
import Flowchart.Proofs.Layout.Layering
import Flowchart.Proofs.Table

/-!
# The invariant of the run that computes depths

The run takes a node when all its incoming arcs have been followed. `Progress` is its invariant,
for the nodes taken so far, the arcs followed so far, and those that are still to be followed for
the node in hand. It is kept by taking a node (`Progress.take`) and by following an arc
(`Progress.follow`).

The model subtracts and counts without a check. `run?` is the run with checks: it has no result when
a counter would fall below zero or nodes would be left in the queue. Where it has one, it is that of
the run (`run?_eq`).
-/

namespace Flowchart.Depth

open Layering

/-- An arc of a given weight is among those of a list. -/
def Joined (arcs : List Arc) (u v : String) (w : Nat) : Prop := (⟨u, v, w⟩ : Arc) ∈ arcs

/-- The arcs connect known nodes. -/
def Known (ids : List String) (arcs : List Arc) : Prop :=
  ∀ a ∈ arcs, a.source ∈ ids ∧ a.target ∈ ids

/-! ## A run that checks its counters -/

/-- Follows an arc; there is no result when no arc to the target is waited for. -/
def follow? (depth : Nat) (state : Table String Layer × List String) (a : Arc) :
    Option (Table String Layer × List String) :=
  match (state.1.get? a.target).map Layer.waiting with
  | some (_ + 1) => some (follow depth state a)
  | _ => none

/-- The nodes taken, in their order, and the layers at the end. There is no result when a counter
would fall below zero, or when nodes are left after `count` have been taken. -/
def run? (arcs : List Arc) : Nat → Table String Layer → List String →
    Option (List String × Table String Layer)
  | _, layers, [] => some ([], layers)
  | 0, _, _ :: _ => none
  | count + 1, layers, id :: queue => do
    let (layers, queue) ← (arcs.filter (·.source = id)).foldlM (follow? (depthOf layers id))
      (layers, queue)
    let (taken, layers) ← run? arcs count layers queue
    return (id :: taken, layers)

/-- Where following an arc with a check has a result, it is that of following the arc. -/
theorem follow?_eq {depth : Nat} {state next : Table String Layer × List String} {a : Arc}
    (h : follow? depth state a = some next) : follow depth state a = next := by
  unfold follow? at h
  split at h
  · exact Option.some.inj h
  · exact nomatch h

/-- Where following arcs with checks has a result, it is that of following the arcs. -/
theorem foldlM_follow?_eq {depth : Nat} (out : List Arc)
    {state next : Table String Layer × List String}
    (h : out.foldlM (follow? depth) state = some next) : out.foldl (follow depth) state = next := by
  induction out generalizing state with
  | nil => exact Option.some.inj h
  | cons a out ih =>
    rw [List.foldlM_cons] at h
    obtain ⟨mid, hmid, h⟩ := Option.bind_eq_some_iff.mp h
    rw [List.foldl_cons, follow?_eq hmid]
    exact ih h

/-- Where the run with checks has a result, it is that of the run. -/
theorem run?_eq {arcs : List Arc} (count : Nat) {layers last : Table String Layer}
    {queue taken : List String} (h : run? arcs count layers queue = some (taken, last)) :
    run arcs count layers queue = last := by
  induction count generalizing layers queue taken last with
  | zero =>
    cases queue with
    | nil => exact congrArg Prod.snd (Option.some.inj h)
    | cons id queue => exact nomatch h
  | succ count ih =>
    cases queue with
    | nil => exact congrArg Prod.snd (Option.some.inj h)
    | cons id queue =>
      rw [run?] at h
      obtain ⟨⟨mid, midQueue⟩, hmid, h⟩ := Option.bind_eq_some_iff.mp h
      obtain ⟨⟨rest, restLayers⟩, hrest, h⟩ := Option.bind_eq_some_iff.mp h
      rw [run, foldlM_follow?_eq _ hmid]
      exact (ih hrest).trans (congrArg Prod.snd (Option.some.inj h))

/-! ## The layers of a table -/

/-- The layer of a node after an arc has been followed. -/
theorem get?_follow (depth : Nat) (layers : Table String Layer) (queue : List String) (a : Arc)
    (v : String) :
    (follow depth (layers, queue) a).1.get? v =
      if a.target = v then (layers.get? v).map (Layer.reach · (depth + a.weight))
      else layers.get? v :=
  Table.get?_update layers a.target (Layer.reach · (depth + a.weight)) v

/-- The depth of a layer after one more incoming arc. -/
theorem reach_depth (l : Layer) (depth : Nat) :
    (Layer.reach l depth).depth.getD 0 = max (l.depth.getD 0) depth := by
  unfold Layer.reach
  cases l.depth with
  | none => exact (Nat.zero_max depth).symm
  | some known => rfl

/-- The depth of a node after an arc has been followed. -/
theorem depthOf_follow (depth : Nat) {layers : Table String Layer} (queue : List String) {a : Arc}
    (ht : a.target ∈ layers.keys) (v : String) :
    depthOf (follow depth (layers, queue) a).1 v =
      if a.target = v then max (depthOf layers v) (depth + a.weight) else depthOf layers v := by
  unfold depthOf
  rw [get?_follow]
  by_cases hv : a.target = v
  · rw [if_pos hv, if_pos hv]
    obtain ⟨l, hl⟩ := Option.isSome_iff_exists.mp (Table.has_iff.mpr (hv ▸ ht))
    rw [hl]
    exact reach_depth l _
  · rw [if_neg hv, if_neg hv]

/-- The queue after an arc has been followed to a node of a given layer. -/
theorem queue_follow {depth : Nat} {layers : Table String Layer} {queue : List String} {a : Arc}
    {l : Layer} (hl : layers.get? a.target = some l) :
    (follow depth (layers, queue) a).2 =
      if l.waiting - 1 = 0 then queue ++ [a.target] else queue := by
  have hget := get?_follow depth layers queue a a.target
  rw [if_pos rfl, hl] at hget
  unfold follow at hget ⊢
  dsimp only at hget ⊢
  rw [hget]
  by_cases hw : l.waiting - 1 = 0
  · rw [if_pos hw, if_pos]
    simp [Layer.reach, hw]
  · rw [if_neg hw, if_neg]
    simp [Layer.reach, hw]

/-- The target of an arc that is followed joins the queue if it waited for this arc only. -/
theorem mem_queue_follow {depth : Nat} {layers : Table String Layer} {queue : List String} {a : Arc}
    {l : Layer} (hl : layers.get? a.target = some l) {v : String} :
    v ∈ (follow depth (layers, queue) a).2 ↔ v ∈ queue ∨ v = a.target ∧ l.waiting - 1 = 0 := by
  rw [queue_follow hl]
  split
  · rename_i hlast
    rw [List.mem_append, List.mem_singleton, and_iff_left hlast]
  · rename_i hlast
    rw [or_iff_left fun hv => hlast hv.2]

/-- Following an arc moves no layer. -/
theorem keys_follow (depth : Nat) (layers : Table String Layer) (queue : List String) (a : Arc) :
    (follow depth (layers, queue) a).1.keys = layers.keys :=
  Table.keys_update layers a.target (Layer.reach · (depth + a.weight))

/-! ## The invariant -/

/-- The counter of a node is the number of arcs to it that have not been followed. -/
def Counted (arcs followed : List Arc) (layers : Table String Layer) : Prop :=
  ∀ v l, layers.get? v = some l →
    l.waiting + followed.countP (·.target = v) = arcs.countP (·.target = v)

/-- The depths are the greatest that the arcs followed give. -/
structure Heights (followed : List Arc) (layers : Table String Layer) : Prop where
  /-- A node lies below those that lead to it. -/
  above : ∀ a ∈ followed, depthOf layers a.source + a.weight ≤ depthOf layers a.target
  /-- A node lies no deeper than the arcs followed to it make it. -/
  attained : ∀ v, depthOf layers v = 0 ∨
    ∃ a ∈ followed, a.target = v ∧ depthOf layers v = depthOf layers a.source + a.weight

/-- A run in which `taken` have been taken. Of the arcs that leave them, `followed` have been
followed and `rest` have not. -/
structure Progress (ids : List String) (arcs : List Arc) (taken : List String)
    (followed rest : List Arc) (layers : Table String Layer) (queue : List String) : Prop where
  /-- There is a layer for every node. -/
  keys : layers.keys = ids
  /-- No node is taken twice. -/
  nodup : (taken ++ queue).Nodup
  /-- What has been taken or waits in the queue is a node. -/
  known : ∀ v ∈ taken ++ queue, v ∈ ids
  /-- The arcs to follow are those that leave the nodes taken. -/
  balance : (followed ++ rest).Perm (arcs.filter (·.source ∈ taken))
  /-- The counters say how many arcs to a node have not been followed. -/
  waiting : Counted arcs followed layers
  /-- A node joins the queue when nothing is waited for. -/
  ready : ∀ v l, layers.get? v = some l → (l.waiting = 0 ↔ v ∈ taken ++ queue)
  /-- No cycle leads to what has been taken or waits in the queue. -/
  grounded : ∀ v ∈ taken ++ queue, Acc (Linked (Joined arcs)) v
  /-- The depths are the greatest that the arcs followed so far ask for. -/
  heights : Heights followed layers

section

variable {ids : List String} {arcs : List Arc} {taken : List String} {followed rest : List Arc}
  {layers : Table String Layer} {queue : List String}

/-- The arcs to a node are either followed, still to be followed, or leave other nodes. -/
theorem countP_target (hb : (followed ++ rest).Perm (arcs.filter (·.source ∈ taken))) (v : String) :
    arcs.countP (·.target = v) = followed.countP (·.target = v) + rest.countP (·.target = v) +
      (arcs.filter (·.source ∉ taken)).countP (·.target = v) := by
  rw [← List.countP_append, hb.countP_eq,
    List.countP_eq_countP_filter_add arcs _ (fun a => decide (a.source ∈ taken))]
  simp only [decide_not]

/-- When all arcs to a node have been followed, they all leave nodes taken. -/
theorem source_taken_of_countP (hb : (followed ++ rest).Perm (arcs.filter (·.source ∈ taken)))
    {v : String} (hv : followed.countP (·.target = v) = arcs.countP (·.target = v)) {a : Arc}
    (ha : a ∈ arcs) (ht : a.target = v) : a.source ∈ taken := by
  -- The arcs followed make up the whole count, so none is left among those of other nodes.
  have hcount := countP_target hb v
  have hnone : (arcs.filter (·.source ∉ taken)).countP (·.target = v) = 0 := by omega
  by_contra hs
  have hm : a ∈ arcs.filter (·.source ∉ taken) := List.mem_filter.mpr ⟨ha, decide_eq_true hs⟩
  exact List.countP_eq_zero.mp hnone a hm (decide_eq_true ht)

/-- An arc that has been or will be followed leaves a node taken. -/
theorem Progress.source_taken (h : Progress ids arcs taken followed rest layers queue) {a : Arc}
    (ha : a ∈ followed ++ rest) : a ∈ arcs ∧ a.source ∈ taken := by
  have hm := List.mem_filter.mp (h.balance.mem_iff.mp ha)
  exact ⟨hm.1, of_decide_eq_true hm.2⟩

/-- A known node has a layer. -/
theorem Progress.get?_eq (h : Progress ids arcs taken followed rest layers queue) {v : String}
    (hv : v ∈ ids) : ∃ l, layers.get? v = some l :=
  Option.isSome_iff_exists.mp (Table.has_iff.mpr (h.keys ▸ hv))

/-- No arc leads from outside to a node that nothing is waited for. -/
theorem Progress.source_taken_of_ready
    (h : Progress ids arcs taken followed rest layers queue) {a : Arc} (ha : a ∈ arcs)
    (ht : a.target ∈ taken ++ queue) : a.source ∈ taken := by
  -- The counter of the target is zero, so all arcs to it have been followed.
  obtain ⟨l, hl⟩ := h.get?_eq (h.known _ ht)
  have hzero := (h.ready _ l hl).mpr ht
  have hwaiting := h.waiting _ l hl
  exact source_taken_of_countP h.balance (by omega) ha rfl

end

/-! ## Every step keeps it -/

/-- The layer that a node starts with. -/
theorem get?_initial (ids : List String) (arcs : List Arc) (v : String) :
    (initial ids arcs).get? v =
      if v ∈ ids then
        some ⟨arcs.countP (·.target = v), if arcs.countP (·.target = v) = 0 then some 0 else none⟩
      else none := by
  unfold initial
  induction ids with
  | nil => rfl
  | cons id ids ih =>
    rw [List.map_cons, Table.get?, ih, List.countP_eq_length_filter]
    by_cases hv : id = v
    · rw [if_pos hv, if_pos (List.mem_cons.mpr (.inl hv.symm)), hv]
    · have hm : v ∈ id :: ids ↔ v ∈ ids := by
        rw [List.mem_cons, or_iff_right (Ne.symm hv)]
      rw [if_neg hv, if_congr hm rfl rfl]

/-- Nothing has a depth at the beginning. -/
theorem depthOf_initial (ids : List String) (arcs : List Arc) (v : String) :
    depthOf (initial ids arcs) v = 0 := by
  unfold depthOf
  rw [get?_initial]
  split
  · rw [Option.bind_some]
    dsimp only
    split <;> rfl
  · rfl

/-- The nodes taken first are those that no arc leads to. -/
theorem mem_seeds {ids : List String} {arcs : List Arc} {v : String} :
    v ∈ seeds ids arcs ↔ v ∈ ids ∧ arcs.countP (·.target = v) = 0 := by
  unfold seeds
  rw [List.mem_filter, List.countP_eq_zero]
  simp

/-- The invariant holds at the beginning. -/
theorem progress_initial {ids : List String} (hids : ids.Nodup) (arcs : List Arc) :
    Progress ids arcs [] [] [] (initial ids arcs) (seeds ids arcs) where
  keys := by
    unfold initial Table.keys
    rw [List.map_map]
    exact List.map_id ids
  nodup := hids.filter _
  known v hv := (mem_seeds.mp hv).1
  balance := by
    rw [List.filter_eq_nil_iff.mpr fun a _ => by simp]
    exact List.Perm.refl _
  waiting v l hl := by
    rw [get?_initial] at hl
    split at hl
    · rw [← Option.some.inj hl]
      rfl
    · exact nomatch hl
  ready v l hl := by
    rw [get?_initial] at hl
    rw [List.nil_append, mem_seeds]
    split at hl
    · rename_i hv
      rw [← Option.some.inj hl]
      exact ⟨fun h => ⟨hv, h⟩, And.right⟩
    · exact nomatch hl
  grounded v hv := by
    refine .intro _ fun u hu => ?_
    -- No arc leads to the node, so there is nothing that has to come before it.
    obtain ⟨w, hw⟩ := hu
    exact absurd (decide_eq_true rfl) (List.countP_eq_zero.mp (mem_seeds.mp hv).2 _ hw)
  heights := ⟨fun _ ha => absurd ha List.not_mem_nil, fun v => .inl (depthOf_initial ids arcs v)⟩

/-- Taking the first node of the queue keeps the invariant; all arcs that leave it are to be
followed. -/
theorem Progress.take {ids : List String} {arcs : List Arc} {taken : List String}
    {followed : List Arc} {layers : Table String Layer} {id : String} {queue : List String}
    (h : Progress ids arcs taken followed [] layers (id :: queue)) :
    Progress ids arcs (taken ++ [id]) followed (arcs.filter (·.source = id)) layers queue := by
  have hqueue : taken ++ [id] ++ queue = taken ++ id :: queue := List.append_assoc _ _ _
  have hid : id ∉ taken := fun hm =>
    List.disjoint_of_nodup_append h.nodup hm List.mem_cons_self
  have hbalance := h.balance
  rw [List.append_nil] at hbalance
  refine ⟨h.keys, hqueue ▸ h.nodup, hqueue ▸ h.known, ?_, h.waiting, hqueue ▸ h.ready,
    hqueue ▸ h.grounded, h.heights⟩
  -- The arcs that leave the nodes taken are those that did before and those that leave `id`.
  have hold : (arcs.filter (·.source ∈ taken ++ [id])).filter (·.source ∈ taken) =
      arcs.filter (·.source ∈ taken) := by
    rw [List.filter_filter]
    refine List.filter_congr fun a _ => ?_
    rw [Bool.eq_iff_iff, Bool.and_eq_true, decide_eq_true_eq, decide_eq_true_eq, List.mem_append]
    exact ⟨And.left, fun hs => ⟨hs, .inl hs⟩⟩
  have hnew : (arcs.filter (·.source ∈ taken ++ [id])).filter (fun a => !(a.source ∈ taken)) =
      arcs.filter (·.source = id) := by
    rw [List.filter_filter]
    refine List.filter_congr fun a _ => ?_
    rw [Bool.eq_iff_iff, Bool.and_eq_true, Bool.not_eq_true', decide_eq_true_eq, decide_eq_true_eq,
      decide_eq_false_iff_not, List.mem_append, List.mem_singleton]
    exact ⟨fun hs => hs.2.resolve_left hs.1, fun hs => ⟨hs ▸ hid, .inr hs⟩⟩
  rw [← hnew]
  refine (hbalance.append_right _).trans ?_
  rw [← hold]
  exact List.filter_append_perm _ _

/-- The number of arcs to a node, with one more arc. -/
theorem countP_append_target (followed : List Arc) (a : Arc) (v : String) :
    (followed ++ [a]).countP (·.target = v) =
      followed.countP (·.target = v) + if a.target = v then 1 else 0 := by
  rw [List.countP_append, List.countP_singleton]
  simp only [decide_eq_true_eq]

/-- The target of an arc to follow still waits for it. -/
theorem Progress.target_waits {ids : List String} {arcs : List Arc} (hknown : Known ids arcs)
    {taken : List String} {followed rest : List Arc} {layers : Table String Layer}
    {queue : List String} {a : Arc}
    (h : Progress ids arcs taken followed (a :: rest) layers queue) :
    ∃ l, layers.get? a.target = some l ∧ 0 < l.waiting ∧ a.target ∉ taken ++ queue := by
  obtain ⟨ha, -⟩ := h.source_taken (List.mem_append_right _ List.mem_cons_self)
  obtain ⟨l, hl⟩ := h.get?_eq (hknown a ha).2
  -- The arc itself is counted and not followed, so the counter is positive.
  have hwaiting := h.waiting _ l hl
  have hcount := countP_target h.balance a.target
  have hone : 0 < (a :: rest).countP (·.target = a.target) :=
    List.countP_pos_iff.mpr ⟨a, List.mem_cons_self, decide_eq_true rfl⟩
  have hpos : 0 < l.waiting := by omega
  -- A node taken or in the queue would wait for nothing.
  refine ⟨l, hl, hpos, fun hm => ?_⟩
  have hzero := (h.ready _ l hl).mpr hm
  omega

/-- Following an arc to a node that waits for it keeps the counters right. -/
theorem Counted.follow {arcs followed : List Arc} {layers : Table String Layer}
    (h : Counted arcs followed layers) (depth : Nat) (queue : List String) {a : Arc} {l : Layer}
    (hl : layers.get? a.target = some l) (hpos : 0 < l.waiting) :
    Counted arcs (followed ++ [a]) (Depth.follow depth (layers, queue) a).1 := by
  intro v l' hl'
  rw [get?_follow] at hl'
  rw [countP_append_target]
  split at hl'
  · -- The counter of the target falls by one as the number of arcs followed to it grows by one.
    rename_i hv
    subst hv
    rw [hl, Option.map_some] at hl'
    have hone : l.waiting - 1 = l'.waiting := congrArg Layer.waiting (Option.some.inj hl')
    have hwaiting := h _ l hl
    rw [if_pos rfl]
    omega
  · rename_i hv
    rw [if_neg hv, Nat.add_zero]
    exact h v l' hl'

/-- Following an arc keeps the depths right, if no arc followed leaves its target. -/
theorem Heights.follow {followed : List Arc} {layers : Table String Layer}
    (h : Heights followed layers) (queue : List String) {a : Arc} (ht : a.target ∈ layers.keys)
    (hleaves : ∀ b ∈ followed ++ [a], a.target ≠ b.source) :
    Heights (followed ++ [a]) (Depth.follow (depthOf layers a.source) (layers, queue) a).1 := by
  have hdepth := depthOf_follow (depthOf layers a.source) queue ht
  -- Only the target may get a new depth, so the depths that arcs start from stay.
  have hsource : ∀ b ∈ followed ++ [a],
      depthOf (Depth.follow (depthOf layers a.source) (layers, queue) a).1 b.source =
        depthOf layers b.source := by
    intro b hb
    rw [hdepth, if_neg (hleaves b hb)]
  generalize (Depth.follow (depthOf layers a.source) (layers, queue) a).1 = layers'
    at hdepth hsource
  have ha := hsource a (List.mem_append_right _ (List.mem_singleton_self a))
  constructor
  · intro b hb
    rw [hsource b hb]
    rcases List.mem_append.mp hb with hb | hb
    · have hle : depthOf layers b.target ≤ depthOf layers' b.target := by
        rw [hdepth]
        split
        · exact Nat.le_max_left _ _
        · exact Nat.le_refl _
      exact (h.above b hb).trans hle
    · rw [List.mem_singleton.mp hb, hdepth, if_pos rfl]
      exact Nat.le_max_right _ _
  · intro v
    -- Either the depth is the one before, or the new arc gives a greater one.
    have hold : depthOf layers' v = depthOf layers v → depthOf layers' v = 0 ∨
        ∃ b ∈ followed ++ [a], b.target = v ∧
          depthOf layers' v = depthOf layers' b.source + b.weight := by
      intro hv
      rw [hv]
      refine (h.attained v).imp_right ?_
      rintro ⟨b, hb, hbv, hbd⟩
      exact ⟨b, List.mem_append_left _ hb, hbv, by rw [hsource b (List.mem_append_left _ hb), hbd]⟩
    by_cases hv : a.target = v
    · -- The target has the greater of the two.
      rcases Nat.le_total (depthOf layers a.source + a.weight) (depthOf layers v) with hle | hle
      · exact hold (by rw [hdepth, if_pos hv, Nat.max_eq_left hle])
      · refine .inr ⟨a, List.mem_append_right _ (List.mem_singleton_self a), hv, ?_⟩
        rw [ha, hdepth, if_pos hv, Nat.max_eq_right hle]
    · exact hold (by rw [hdepth, if_neg hv])

section

variable {ids : List String} {arcs : List Arc} {taken : List String} {followed rest : List Arc}
  {layers : Table String Layer} {queue : List String} {a : Arc}

/-- Following an arc keeps the invariant. -/
theorem Progress.follow (hknown : Known ids arcs)
    (h : Progress ids arcs taken followed (a :: rest) layers queue) :
    Progress ids arcs taken (followed ++ [a]) rest
      (Depth.follow (depthOf layers a.source) (layers, queue) a).1
      (Depth.follow (depthOf layers a.source) (layers, queue) a).2 := by
  obtain ⟨l, hl, hpos, htarget⟩ := h.target_waits hknown
  have hkey := Table.mem_keys_of_get? hl
  have hbalance : (followed ++ [a] ++ rest).Perm (arcs.filter (·.source ∈ taken)) := by
    rw [List.append_assoc]
    exact h.balance
  -- The target joins the queue if this was the last arc to it; no other node does.
  have hmem : ∀ v, v ∈ taken ++ (Depth.follow (depthOf layers a.source) (layers, queue) a).2 ↔
      v ∈ taken ++ queue ∨ v = a.target ∧ l.waiting - 1 = 0 := by
    intro v
    rw [List.mem_append, mem_queue_follow hl, List.mem_append, or_assoc]
  have hcounted := h.waiting.follow (depthOf layers a.source) queue hl hpos
  -- The arcs followed leave nodes taken, and the target is not one of them.
  have hleaves : ∀ b ∈ followed ++ [a], a.target ≠ b.source := by
    intro b hb hab
    have hm : b ∈ followed ++ a :: rest := by
      rw [← List.singleton_append, ← List.append_assoc]
      exact List.mem_append_left _ hb
    exact htarget (List.mem_append_left _ (hab ▸ (h.source_taken hm).2))
  refine ⟨(keys_follow _ _ _ _).trans h.keys, ?_, fun v hv => ?_, hbalance, hcounted,
    fun v l' hl' => ?_, fun v hv => ?_, h.heights.follow queue hkey hleaves⟩
  · rw [queue_follow hl]
    split
    · rw [← List.append_assoc, ← List.concat_eq_append]
      exact h.nodup.concat htarget
    · exact h.nodup
  · rcases (hmem v).mp hv with hv | ⟨rfl, -⟩
    · exact h.known v hv
    · exact h.keys ▸ hkey
  · rw [get?_follow] at hl'
    rw [hmem]
    split at hl'
    · rename_i hv
      subst hv
      rw [hl, Option.map_some] at hl'
      have hone : l.waiting - 1 = l'.waiting := congrArg Layer.waiting (Option.some.inj hl')
      rw [or_iff_right htarget, and_iff_right rfl, hone]
    · rename_i hv
      rw [h.ready v l' hl', or_iff_left fun hv' => hv hv'.1.symm]
  · rcases (hmem v).mp hv with hv | ⟨rfl, hlast⟩
    · exact h.grounded v hv
    · -- The last arc to the node has been followed, so they all leave nodes taken.
      have hall : (followed ++ [a]).countP (·.target = a.target) =
          arcs.countP (·.target = a.target) := by
        have hwaiting := h.waiting _ l hl
        rw [countP_append_target, if_pos rfl]
        omega
      refine .intro _ fun u hu => ?_
      obtain ⟨w, hw⟩ := hu
      exact h.grounded u (List.mem_append_left _ (source_taken_of_countP hbalance hall hw rfl))

/-- The counter of the target does not fall below zero. -/
theorem Progress.follow?_eq (hknown : Known ids arcs)
    (h : Progress ids arcs taken followed (a :: rest) layers queue) (depth : Nat) :
    follow? depth (layers, queue) a = some (Depth.follow depth (layers, queue) a) := by
  obtain ⟨l, hl, hpos, -⟩ := h.target_waits hknown
  obtain ⟨n, hn⟩ := Nat.exists_eq_add_one_of_ne_zero (Nat.ne_of_gt hpos)
  unfold follow?
  dsimp only
  rw [hl, Option.map_some, hn]

/-- The nodes taken keep their depths when an arc is followed. -/
theorem Progress.depthOf_taken (hknown : Known ids arcs)
    (h : Progress ids arcs taken followed (a :: rest) layers queue) {v : String} (hv : v ∈ taken) :
    depthOf (Depth.follow (depthOf layers a.source) (layers, queue) a).1 v = depthOf layers v := by
  obtain ⟨l, hl, -, htarget⟩ := h.target_waits hknown
  rw [depthOf_follow _ queue (Table.mem_keys_of_get? hl), if_neg]
  rintro rfl
  exact htarget (List.mem_append_left _ hv)

end

end Flowchart.Depth
