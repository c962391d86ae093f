import Flowchart.Table
import Mathlib.Data.List.Induction
import Mathlib.Data.List.Nodup

/-!
# Tables as maps

What the operations of a table do to its two views: the entry under a key (`get?`) and the keys in
their order (`keys`). Putting an entry in changes one entry only (`get?_put`) and adds the key at
the end if it is new (`keys_put`). When no key occurs twice, the entry under a key is the one it is
written with (`get?_eq_some_iff`), and the two views determine the table (`eq_filterMap_keys`).

In the table of a list of pairs every key has the place of its first pair and the entry of its last
one (`ofPairs_eq_filterMap`).
-/

namespace Flowchart.Table

/-- The keys of a table, in its order. -/
def keys {κ α : Type} (t : Table κ α) : List κ := t.map Prod.fst

/-- The empty table has no keys. -/
@[simp] theorem keys_nil {κ α : Type} : keys ([] : Table κ α) = [] := rfl

/-- The first entry has the first key. -/
@[simp] theorem keys_cons {κ α : Type} (p : κ × α) (t : Table κ α) :
    keys (p :: t) = p.1 :: keys t := rfl

variable {κ α : Type} [DecidableEq κ]

/-- Nothing is found in the empty table. -/
@[simp] theorem get?_nil (key : κ) : get? ([] : Table κ α) key = none := rfl

/-- There is no entry under what is no key. -/
theorem get?_eq_none_iff {t : Table κ α} {key : κ} : t.get? key = none ↔ key ∉ t.keys := by
  induction t with
  | nil => simp
  | cons p t ih =>
    rw [get?, keys_cons, List.mem_cons, not_or]
    by_cases h : p.1 = key
    · simp [h]
    · rw [if_neg h, ih]
      exact ⟨fun hm => ⟨Ne.symm h, hm⟩, And.right⟩

/-- There is an entry under every key and under no other value. -/
theorem has_iff {t : Table κ α} {key : κ} : t.has key = true ↔ key ∈ t.keys := by
  rw [has, Option.isSome_iff_ne_none, ne_eq, get?_eq_none_iff, not_not]

/-- An entry that is found is one of the table. -/
theorem mem_of_get? {t : Table κ α} {key : κ} {a : α} (h : t.get? key = some a) : (key, a) ∈ t := by
  induction t with
  | nil => simp at h
  | cons p t ih =>
    rw [get?] at h
    split at h
    · rename_i hp
      obtain ⟨k, b⟩ := p
      simp only [Option.some.injEq] at h hp
      rw [← hp, ← h]
      exact List.mem_cons_self
    · exact List.mem_cons_of_mem _ (ih h)

/-- A key is among the keys when some entry is found under it. -/
theorem mem_keys_of_get? {t : Table κ α} {key : κ} {a : α} (h : t.get? key = some a) :
    key ∈ t.keys :=
  List.mem_map_of_mem (mem_of_get? h)

/-- When no key occurs twice, the entries that are found are those of the table. -/
theorem get?_eq_some_iff {t : Table κ α} (hk : t.keys.Nodup) {key : κ} {a : α} :
    t.get? key = some a ↔ (key, a) ∈ t := by
  refine ⟨mem_of_get?, fun hm => ?_⟩
  induction t with
  | nil => simp at hm
  | cons p t ih =>
    rw [keys_cons, List.nodup_cons] at hk
    rw [get?]
    rcases List.mem_cons.mp hm with rfl | hm
    · rw [if_pos rfl]
    · -- A pair in front with the same key would make the key occur twice.
      rw [if_neg, ih hk.2 hm]
      rintro hp
      exact hk.1 (hp ▸ List.mem_map_of_mem (f := Prod.fst) hm)

/-- A key that does not occur twice has one entry. -/
theorem eq_of_mem {t : Table κ α} (hk : t.keys.Nodup) {key : κ} {a b : α} (ha : (key, a) ∈ t)
    (hb : (key, b) ∈ t) : a = b :=
  Option.some.inj (((get?_eq_some_iff hk).mpr ha).symm.trans ((get?_eq_some_iff hk).mpr hb))

/-- A table in which no key occurs twice is given by its keys and what is found under them. -/
theorem eq_filterMap_keys {t : Table κ α} (hk : t.keys.Nodup) :
    t = t.keys.filterMap fun key => (t.get? key).map (Prod.mk key) := by
  have hself : ∀ p ∈ t, (t.get? p.1).map (Prod.mk p.1) = some p := by
    intro p hp
    rw [(get?_eq_some_iff hk).mpr hp, Option.map_some]
  rw [keys, List.filterMap_map]
  exact ((List.filterMap_congr hself).trans (List.filterMap_some)).symm

/-- What is found in a table after all its entries have been changed. -/
theorem get?_map {β : Type} (t : Table κ α) (f : α → β) (key : κ) :
    get? (t.map fun (k, a) => (k, f a)) key = (t.get? key).map f := by
  induction t with
  | nil => rfl
  | cons p t ih =>
    obtain ⟨k, a⟩ := p
    rw [List.map_cons, get?, get?, ih]
    split <;> rfl

/-- Putting an entry in changes what is found under its key and nothing else. -/
theorem get?_put (t : Table κ α) (k : κ) (a : α) (key : κ) :
    (t.put k a).get? key = if k = key then some a else t.get? key := by
  induction t with
  | nil => rfl
  | cons p t ih =>
    rw [put]
    -- Where the key is already there, its pair is changed and the rest of the table stays.
    by_cases hp : p.1 = k
    · rw [if_pos hp, get?, get?, hp]
      by_cases hk : k = key
      · rw [if_pos hk, if_pos hk]
      · rw [if_neg hk, if_neg hk, if_neg hk]
    · rw [if_neg hp, get?, get?, ih]
      by_cases hk : k = key
      · rw [if_pos hk, if_pos hk, if_neg (fun h => hp (h.trans hk.symm))]
      · rw [if_neg hk, if_neg hk]

/-- A new key goes to the end; a known one keeps its place. -/
theorem keys_put (t : Table κ α) (k : κ) (a : α) :
    (t.put k a).keys = if k ∈ t.keys then t.keys else t.keys ++ [k] := by
  induction t with
  | nil => rfl
  | cons p t ih =>
    rw [put]
    by_cases hp : p.1 = k
    · rw [if_pos hp, keys_cons, keys_cons, if_pos (List.mem_cons.mpr (.inl hp.symm))]
    · rw [if_neg hp, keys_cons, keys_cons, ih]
      have hk : k ∈ p.1 :: keys t ↔ k ∈ keys t := by
        rw [List.mem_cons, or_iff_right (Ne.symm hp)]
      by_cases hm : k ∈ keys t
      · rw [if_pos hm, if_pos (hk.mpr hm)]
      · rw [if_neg hm, if_neg (mt hk.mp hm), List.cons_append]

/-- The keys after an entry has been put in. -/
theorem mem_keys_put {t : Table κ α} {k key : κ} {a : α} :
    key ∈ (t.put k a).keys ↔ key = k ∨ key ∈ t.keys := by
  rw [keys_put]
  split
  · rename_i hk
    exact ⟨.inr, fun h => h.elim (fun e => e ▸ hk) id⟩
  · rw [List.mem_append, List.mem_singleton, or_comm]

/-- A new key goes to the end. -/
theorem put_of_notMem {t : Table κ α} {k : κ} (hk : k ∉ t.keys) (a : α) :
    t.put k a = t ++ [(k, a)] := by
  induction t with
  | nil => rfl
  | cons p t ih =>
    obtain ⟨hp, ht⟩ := not_or.mp (mt List.mem_cons.mpr hk)
    rw [put, if_neg (Ne.symm hp), ih ht, List.cons_append]

/-- What is read off the entries of a table, each of it under the key of its entry, is under one key
what the entry there gives. -/
theorem filter_filterMap {β : Type} {t : Table κ α} (hk : t.keys.Nodup) {k : κ} {a : α}
    (hm : (k, a) ∈ t) {read : κ × α → Option β} {key : β → κ}
    (hkey : ∀ p b, read p = some b → key b = p.1) :
    (t.filterMap read).filter (key · = k) = (read (k, a)).toList := by
  induction t with
  | nil => exact absurd hm List.not_mem_nil
  | cons p t ih =>
    obtain ⟨hp, hk⟩ := List.nodup_cons.mp hk
    rcases List.mem_cons.mp hm with rfl | hm
    · -- No other entry has this key.
      have hrest : (t.filterMap read).filter (key · = k) = [] := by
        refine List.filter_eq_nil_iff.mpr fun b hb heq => hp ?_
        obtain ⟨q, hq, hb⟩ := List.mem_filterMap.mp hb
        have hkq : q.1 ∈ t.map Prod.fst := List.mem_map_of_mem hq
        exact ((hkey q b hb).symm.trans (of_decide_eq_true heq)) ▸ hkq
      rw [List.filterMap_cons]
      cases hread : read (k, a) with
      | none => exact hrest
      | some b =>
        dsimp only
        rw [List.filter_cons, if_pos (decide_eq_true (hkey _ b hread)), hrest]
        rfl
    · have hne : p.1 ≠ k := fun heq => hp (heq ▸ List.mem_map_of_mem hm)
      rw [List.filterMap_cons]
      cases hread : read p with
      | none => exact ih hk hm
      | some b =>
        dsimp only
        rw [List.filter_cons, if_neg, ih hk hm]
        rw [decide_eq_true_eq, hkey _ b hread]
        exact hne

/-- Putting an entry in makes no key occur twice. -/
theorem nodup_keys_put {t : Table κ α} (hk : t.keys.Nodup) (k : κ) (a : α) :
    (t.put k a).keys.Nodup := by
  rw [keys_put]
  split
  · exact hk
  · rename_i hm
    rw [List.nodup_append]
    exact ⟨hk, List.nodup_singleton k, fun x hx y hy => by
      rw [List.mem_singleton] at hy
      rintro rfl
      exact hm (hy ▸ hx)⟩

/-- An entry after one has been put in is that one or was there before. -/
theorem mem_put {t : Table κ α} {k key : κ} {a b : α} (h : (key, b) ∈ t.put k a) :
    (key = k ∧ b = a) ∨ (key, b) ∈ t := by
  induction t with
  | nil => exact .inl (by simpa [put] using h)
  | cons p t ih =>
    rw [put] at h
    split at h
    · rename_i hp
      rcases List.mem_cons.mp h with h | h
      · rw [Prod.mk.injEq] at h
        exact .inl ⟨h.1.trans hp, h.2⟩
      · exact .inr (List.mem_cons_of_mem _ h)
    · rcases List.mem_cons.mp h with h | h
      · exact .inr (h ▸ List.mem_cons_self)
      · exact (ih h).imp_right (List.mem_cons_of_mem _)

/-! ## Tables of pairs -/

/-- A pair behind all others is put in last. -/
theorem ofPairs_concat (pairs : List (κ × α)) (p : κ × α) :
    ofPairs (pairs ++ [p]) = (ofPairs pairs).put p.1 p.2 := by
  rw [ofPairs, putAll, List.foldl_append]
  rfl

/-- Changing all entries of a table into which one is put. -/
theorem map_put {β : Type} (f : α → β) (t : Table κ α) (k : κ) (a : α) :
    (t.put k a).map (fun p => (p.1, f p.2)) = put (t.map fun p => (p.1, f p.2)) k (f a) := by
  induction t with
  | nil => rfl
  | cons p t ih =>
    rw [put, List.map_cons, put]
    split
    · rw [List.map_cons]
    · rw [List.map_cons, ih]

/-- Changing all entries of a table of pairs. -/
theorem map_ofPairs {β : Type} (f : α → β) (pairs : List (κ × α)) :
    (ofPairs pairs).map (fun p => (p.1, f p.2)) = ofPairs (pairs.map fun p => (p.1, f p.2)) := by
  induction pairs using List.reverseRecOn with
  | nil => rfl
  | append_singleton pairs p ih =>
    rw [ofPairs_concat, map_put, ih, List.map_append, List.map_singleton, ofPairs_concat]

/-- The keys of pairs, each at the place where it occurs first. -/
theorem keys_ofPairs (pairs : List (κ × α)) :
    (ofPairs pairs).keys = (pairs.map Prod.fst).eraseDups := by
  induction pairs using List.reverseRecOn with
  | nil => rfl
  | append_singleton pairs p ih =>
    rw [ofPairs_concat, keys_put, ih, List.map_append, List.map_singleton, List.eraseDups_append]
    by_cases hp : p.1 ∈ pairs.map Prod.fst
    · simp [List.removeAll, hp]
    · simp [List.removeAll, hp, List.eraseDups_cons]

/-- The entry under a key is that of the last pair with the key. -/
theorem get?_ofPairs (pairs : List (κ × α)) (key : κ) :
    (ofPairs pairs).get? key = (pairs.reverse.find? (·.1 = key)).map Prod.snd := by
  induction pairs using List.reverseRecOn with
  | nil => rfl
  | append_singleton pairs p ih =>
    rw [ofPairs_concat, get?_put, ih, List.reverse_append, List.reverse_singleton,
      List.singleton_append, List.find?_cons]
    by_cases hp : p.1 = key
    · rw [if_pos hp, decide_eq_true hp, Option.map_some]
    · rw [if_neg hp, decide_eq_false hp]

/-- Pairs with different keys are a table as they are. -/
theorem ofPairs_of_nodup {pairs : List (κ × α)} (h : (pairs.map Prod.fst).Nodup) :
    ofPairs pairs = pairs := by
  induction pairs using List.reverseRecOn with
  | nil => rfl
  | append_singleton pairs p ih =>
    rw [List.map_append, List.nodup_append] at h
    have hnew : p.1 ∉ keys pairs := fun hp => h.2.2 p.1 hp p.1 List.mem_cons_self rfl
    rw [ofPairs_concat, ih h.1, put_of_notMem hnew]

/-- No key occurs twice in a table of pairs. -/
theorem nodup_keys_ofPairs (pairs : List (κ × α)) : (ofPairs pairs).keys.Nodup := by
  induction pairs using List.reverseRecOn with
  | nil => exact List.nodup_nil
  | append_singleton pairs p ih =>
    rw [ofPairs_concat]
    exact nodup_keys_put ih _ _

/-- The pairs that are left of a list are, for each key in the order of first places, the last one
with that key. -/
theorem ofPairs_eq_filterMap (pairs : List (κ × α)) :
    ofPairs pairs =
      (pairs.map Prod.fst).eraseDups.filterMap fun key => pairs.reverse.find? (·.1 = key) := by
  -- A pair that is found under a key has that key.
  have hentry : ∀ key ∈ (ofPairs pairs).keys,
      ((ofPairs pairs).get? key).map (Prod.mk key) = pairs.reverse.find? (·.1 = key) := by
    intro key _
    rw [get?_ofPairs, Option.map_map]
    cases hf : pairs.reverse.find? (·.1 = key) with
    | none => rfl
    | some p =>
      have hp := List.find?_some hf
      rw [decide_eq_true_eq] at hp
      rw [Option.map_some, Function.comp_apply, ← hp]
  rw [← keys_ofPairs, ← List.filterMap_congr hentry]
  exact eq_filterMap_keys (nodup_keys_ofPairs pairs)

/-- Changing an entry moves no key. -/
theorem keys_update (t : Table κ α) (k : κ) (f : α → α) : (t.update k f).keys = t.keys := by
  rw [keys, update, List.map_map]
  refine List.map_congr_left fun p _ => ?_
  obtain ⟨key, a⟩ := p
  rw [Function.comp_apply]
  dsimp only
  split <;> rfl

/-- Changing an entry changes what is found under its key and nothing else. -/
theorem get?_update (t : Table κ α) (k : κ) (f : α → α) (key : κ) :
    (t.update k f).get? key = if k = key then (t.get? key).map f else t.get? key := by
  induction t with
  | nil => simp [update]
  | cons p t ih =>
    obtain ⟨k', a⟩ := p
    have hstep : update ((k', a) :: t) k f = (k', if k' = k then f a else a) :: update t k f := by
      by_cases hk : k' = k
      · simp [update, hk]
      · simp [update, hk]
    rw [hstep, get?, get?, ih]
    by_cases hp : k' = key
    · rw [if_pos hp, if_pos hp, hp]
      by_cases hk : k = key
      · rw [if_pos hk, if_pos hk.symm, Option.map_some]
      · rw [if_neg hk, if_neg (Ne.symm hk)]
    · rw [if_neg hp, if_neg hp]

end Flowchart.Table
