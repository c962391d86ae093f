import Flowchart.Proofs.Layout.LineBreaks
import Mathlib.Data.Nat.Find

/-!
# Bisection finds the longest piece

A word that does not fit is cut into pieces, and the length of each is found by bisection. Where the
front parts of a text are no wider than the text, the lengths that fit come first, so bisection finds
the greatest one of them (`bisect_eq_longest`), as trying them all would do.

`cut?` is the cutting of a word with both bounds of the search kept as they are on a machine, where
none of them may fall below zero. It comes to its end and gives the pieces (`cut?_eq`), whatever
fits. Which pieces these are is said by `Cuts`, and there is one way only to cut a word like that
(`Cuts.unique`).
-/

namespace Flowchart

namespace Wrap

/-! ## Bisection -/

section

variable {fits : ℕ → Bool} {low count best : ℕ}

/-- What bisection finds is among the numbers it looks at, unless it is the one it started with. -/
theorem bisect_le (fits : ℕ → Bool) (low count best : ℕ) :
    bisect fits low count best ≤ max best (low + count - 1) := by
  induction count using Nat.strong_induction_on generalizing low best with
  | _ count ih =>
    rw [bisect]
    split
    · exact le_max_left _ _
    · rename_i hcount
      dsimp only
      split
      · have hupper := ih (count - 1 - (count - 1) / 2) (by omega) (low + (count - 1) / 2 + 1)
          (low + (count - 1) / 2)
        omega
      · have hlower := ih ((count - 1) / 2) (by omega) low best
        omega

/-- Where a number fits if a greater one does, bisection finds the greatest that fits. -/
theorem le_bisect (hmono : ∀ m n, 0 < m → m ≤ n → fits n = true → fits m = true) (hlow : 0 < low)
    {n : ℕ} (hn : low ≤ n) (hlt : n < low + count) (hfits : fits n = true) :
    n ≤ bisect fits low count best := by
  induction count using Nat.strong_induction_on generalizing low best with
  | _ count ih =>
    rw [bisect, if_neg (by omega)]
    dsimp only
    split
    · rcases Nat.lt_or_ge (low + (count - 1) / 2) n with habove | hbelow
      · exact ih (count - 1 - (count - 1) / 2) (by omega) (by omega) habove (by omega)
      · -- The middle fits, and nothing less is found from there on.
        have hfound := bisect_eq_or fits (low + (count - 1) / 2 + 1) (count - 1 - (count - 1) / 2)
          (low + (count - 1) / 2)
        omega
    · rename_i hmiddle
      have hbelow : n < low + (count - 1) / 2 := by
        by_contra hge
        exact hmiddle (hmono _ n (by omega) (not_lt.mp hge) hfits)
      exact ih ((count - 1) / 2) (by omega) hlow hn hbelow

/-- The greatest of the numbers up to `count` that fits, found by trying them all, else one. -/
def longest (fits : ℕ → Bool) (count : ℕ) : ℕ := max 1 (Nat.findGreatest (fits · = true) count)

/-- **Bisection finds what trying all numbers does.** -/
theorem bisect_eq_longest (hmono : ∀ m n, 0 < m → m ≤ n → fits n = true → fits m = true) :
    bisect fits 1 count 1 = longest fits count := by
  have hle := bisect_le fits 1 count 1
  have hfound := bisect_eq_or fits 1 count 1
  apply le_antisymm
  · rcases hfound with hone | ⟨-, hfits⟩
    · rw [hone]
      exact le_max_left _ _
    · rcases Nat.lt_or_ge count (bisect fits 1 count 1) with habove | hbelow
      · exact le_max_of_le_left (by omega)
      · exact le_max_of_le_right (Nat.le_findGreatest hbelow hfits)
  · refine max_le (by omega) ?_
    rcases Nat.eq_zero_or_pos (Nat.findGreatest (fits · = true) count) with hzero | hpos
    · omega
    · have hgreatest := Nat.findGreatest_of_ne_zero rfl hpos.ne'
      exact le_bisect hmono Nat.one_pos hpos (by
        have := Nat.findGreatest_le (P := (fits · = true)) count
        omega) hgreatest

/-- Bisection with both bounds included, on numbers that may not fall below zero: `none` says that
the upper bound would. -/
def search? (fits : ℕ → Bool) (low high best : ℕ) : Option ℕ :=
  if low ≤ high then
    let middle := (low + high) / 2
    if fits middle then search? fits (middle + 1) high middle
    else if middle = 0 then none
    else search? fits low (middle - 1) best
  else some best
termination_by high + 1 - low

/-- From a positive number on, the upper bound never falls below zero. -/
theorem search?_eq (hlow : 0 < low) (high : ℕ) :
    search? fits low high best = some (bisect fits low (high + 1 - low) best) := by
  induction hcount : high + 1 - low using Nat.strong_induction_on generalizing low high best with
  | _ count ih =>
    rw [search?, bisect]
    by_cases hle : low ≤ high
    · have hsome : count ≠ 0 := by omega
      -- The middle is the same number, counted from zero or from the lower bound.
      have hmiddle : low + (count - 1) / 2 = (low + high) / 2 := by omega
      have hpos : (low + high) / 2 ≠ 0 := by omega
      rw [if_pos hle, if_neg hsome]
      dsimp only
      rw [hmiddle, if_neg hpos]
      have habove : high + 1 - ((low + high) / 2 + 1) = count - 1 - (count - 1) / 2 := by omega
      have hbelow : (low + high) / 2 - 1 + 1 - low = (count - 1) / 2 := by omega
      split
      · exact ih _ (by omega) (Nat.succ_pos _) high habove
      · exact ih _ (by omega) hlow _ hbelow
    · rw [if_neg hle, if_pos (by omega)]

end

/-! ## Pieces -/

/-- Cuts a word with the search above. It is `none` if the search fails, if more would be taken than
there is, or if nothing would be taken, which would go on forever. -/
def cut? (fits : List Char → Bool) : List Char → Option (List (List Char))
  | [] => some []
  | c :: cs =>
    match search? (fun n => fits ((c :: cs).take n)) 1 (cs.length + 1) 1 with
    | some (more + 1) =>
      if more ≤ cs.length then (cut? fits (cs.drop more)).map ((c :: cs.take more) :: ·) else none
    | _ => none
termination_by cs => cs.length
decreasing_by simp only [List.length_drop, List.length_cons]; omega

/-- Of what is left of a word, one character is taken and perhaps more of those behind it. -/
theorem exists_pieces_eq (fits : List Char → Bool) (c : Char) (cs : List Char) :
    ∃ more, more ≤ cs.length ∧
      bisect (fun n => fits ((c :: cs).take n)) 1 (cs.length + 1) 1 = more + 1 ∧
      pieces fits (c :: cs) = (c :: cs.take more) :: pieces fits (cs.drop more) := by
  have hle := bisect_le (fun n => fits ((c :: cs).take n)) 1 (cs.length + 1) 1
  have hfound := bisect_eq_or (fun n => fits ((c :: cs).take n)) 1 (cs.length + 1) 1
  rw [pieces]
  generalize bisect (fun n => fits ((c :: cs).take n)) 1 (cs.length + 1) 1 = found at *
  exact ⟨found - 1, by omega, by omega, rfl⟩

/-- **Cutting a word comes to its end** and gives its pieces, whatever fits. -/
theorem cut?_eq (fits : List Char → Bool) (word : List Char) :
    cut? fits word = some (pieces fits word) := by
  induction hlength : word.length using Nat.strong_induction_on generalizing word with
  | _ length ih =>
    cases word with
    | nil => rw [cut?, pieces]
    | cons c cs =>
      obtain ⟨more, hmore, hfound, hpieces⟩ := exists_pieces_eq fits c cs
      have hshorter : (cs.drop more).length < length := by
        rw [List.length_drop, ← hlength, List.length_cons]
        omega
      rw [cut?, search?_eq Nat.one_pos, Nat.add_sub_cancel, hfound]
      dsimp only
      rw [if_pos hmore, ih _ hshorter _ rfl, hpieces]
      rfl

section

variable {fits : List Char → Bool} {rest piece word : List Char}

/-- A piece is the longest front part that fits, or a single character if none does. -/
structure IsLongest (fits : List Char → Bool) (rest piece : List Char) : Prop where
  /-- The piece is the front of the text. -/
  front : piece <+: rest
  /-- It has at least one character. -/
  ne_nil : piece ≠ []
  /-- It fits and no longer front does, or not even one character fits and it has just one. -/
  longest :
    (fits piece = true ∧
      ∀ longer, longer <+: rest → fits longer = true → longer.length ≤ piece.length) ∨
    (piece.length = 1 ∧ ∀ longer, longer <+: rest → longer ≠ [] → fits longer = false)

/-- There is one longest piece. -/
theorem IsLongest.unique {piece' : List Char} (h : IsLongest fits rest piece)
    (h' : IsLongest fits rest piece') : piece = piece' := by
  have hle : ∀ {p q : List Char}, IsLongest fits rest p → IsLongest fits rest q →
      p.length ≤ q.length := by
    intro p q hp hq
    have hpos := List.length_pos_of_ne_nil hq.ne_nil
    rcases hp.longest with ⟨hfits, -⟩ | ⟨hone, -⟩
    · rcases hq.longest with ⟨-, hlongest⟩ | ⟨-, hnone⟩
      · exact hlongest p hp.front hfits
      · exact absurd hfits (by simp [hnone p hp.front hp.ne_nil])
    · omega
  exact List.IsPrefix.eq_of_length (List.prefix_of_prefix_length_le h.front h'.front (hle h h'))
    (le_antisymm (hle h h') (hle h' h))

/-- Cutting off one longest piece after the other. -/
inductive Cuts (fits : List Char → Bool) : List Char → List (List Char) → Prop where
  /-- The empty text has no pieces. -/
  | done : Cuts fits [] []
  /-- The longest piece is cut off, and then the others. -/
  | cut {piece rest : List Char} {pieces : List (List Char)}
      (hpiece : IsLongest fits (piece ++ rest) piece) (hrest : Cuts fits rest pieces) :
      Cuts fits (piece ++ rest) (piece :: pieces)

/-- A word is cut in one way. -/
theorem Cuts.unique {ps qs : List (List Char)} (hp : Cuts fits word ps) (hq : Cuts fits word qs) :
    ps = qs := by
  induction hp generalizing qs with
  | done =>
    generalize hword : ([] : List Char) = word at hq
    cases hq with
    | done => rfl
    | cut hpiece _ => exact absurd (List.append_eq_nil_iff.mp hword.symm).1 hpiece.ne_nil
  | @cut piece rest pieces hpiece hrest ih =>
    generalize hword : piece ++ rest = word at hq
    cases hq with
    | done => exact absurd (List.append_eq_nil_iff.mp hword).1 hpiece.ne_nil
    | @cut piece' rest' pieces' hpiece' hrest' =>
      obtain rfl : piece = piece' := (hword ▸ hpiece).unique hpiece'
      obtain rfl : rest = rest' := List.append_cancel_left hword
      rw [ih hrest']

section

variable (hmono : ∀ s t, s ≠ [] → s <+: t → fits t = true → fits s = true)

include hmono

/-- The lengths at which the front of a text fits come first. -/
theorem fits_take (rest : List Char) (m n : ℕ) (hm : 0 < m) (hle : m ≤ n)
    (hfits : fits (rest.take n) = true) : fits (rest.take m) = true := by
  cases rest with
  | nil => rwa [List.take_nil] at hfits ⊢
  | cons c cs =>
    have hne : (c :: cs).take m ≠ [] := by simp [hm.ne']
    exact hmono _ _ hne (List.take_prefix_take_left hle) hfits

/-- What bisection finds is the length of the longest piece. -/
theorem isLongest_take {c : Char} {cs : List Char} {more : ℕ} (hmore : more ≤ cs.length)
    (hfound : bisect (fun n => fits ((c :: cs).take n)) 1 (cs.length + 1) 1 = more + 1) :
    IsLongest fits (c :: cs) (c :: cs.take more) := by
  -- No longer piece from the front fits, or the search would have found it.
  have hlongest : ∀ longer, longer <+: c :: cs → longer ≠ [] → fits longer = true →
      longer.length ≤ more + 1 := by
    intro longer hfront hne hfits
    have hshort := hfront.length_le
    rw [List.length_cons] at hshort
    rw [List.prefix_iff_eq_take.mp hfront] at hfits
    have hle : longer.length ≤ bisect (fun n => fits ((c :: cs).take n)) 1 (cs.length + 1) 1 :=
      le_bisect (fits_take hmono (c :: cs)) Nat.one_pos (List.length_pos_of_ne_nil hne)
        (by omega) hfits
    rwa [hfound] at hle
  have hlength : (c :: cs.take more).length = more + 1 := by
    rw [List.length_cons, List.length_take, min_eq_left hmore]
  refine ⟨⟨cs.drop more, by rw [List.cons_append, List.take_append_drop]⟩, List.cons_ne_nil _ _, ?_⟩
  by_cases hfits : fits (c :: cs.take more) = true
  · refine .inl ⟨hfits, fun longer hfront hlonger => ?_⟩
    rcases eq_or_ne longer [] with rfl | hne
    · exact Nat.zero_le _
    · rw [hlength]
      exact hlongest longer hfront hne hlonger
  · -- The search has kept the one that it started with, so that nothing longer fits either.
    obtain rfl : more = 0 := by
      rcases bisect_eq_or (fun n => fits ((c :: cs).take n)) 1 (cs.length + 1) 1 with hone | ⟨-, hyes⟩
      · omega
      · rw [hfound] at hyes
        exact absurd hyes hfits
    refine .inr ⟨hlength, fun longer hfront hne => ?_⟩
    by_contra hlonger
    rw [Bool.not_eq_false] at hlonger
    obtain ⟨d, rfl⟩ : ∃ d, longer = [d] := List.length_eq_one_iff.mp
      (le_antisymm (hlongest longer hfront hne hlonger) (List.length_pos_of_ne_nil hne))
    obtain ⟨rfl, -⟩ := List.cons_prefix_cons.mp hfront
    exact hfits hlonger

/-- Where a front part fits if a longer one does, a word is cut into its longest pieces. -/
theorem cuts_pieces (word : List Char) : Cuts fits word (pieces fits word) := by
  induction hlength : word.length using Nat.strong_induction_on generalizing word with
  | _ length ih =>
    cases word with
    | nil =>
      rw [pieces]
      exact .done
    | cons c cs =>
      obtain ⟨more, hmore, hfound, hpieces⟩ := exists_pieces_eq fits c cs
      have hpiece := isLongest_take hmono hmore hfound
      have hsplit : c :: cs = (c :: cs.take more) ++ cs.drop more := by
        rw [List.cons_append, List.take_append_drop]
      have hshorter : (cs.drop more).length < length := by
        rw [List.length_drop, ← hlength, List.length_cons]
        omega
      rw [hpieces]
      rw [hsplit] at hpiece ⊢
      exact .cut hpiece (ih _ hshorter _ rfl)

end

end

end Wrap

/-- **Bisection equals the plain scan.** Where the front parts of a text are no wider than the text,
as with every measure that grows with the number of characters, the search finds for what is left of
a word the length that trying all lengths does. So each piece is the longest front part that fits, or
one character if none does, and this is the only way to cut the word like that. Whatever the measure
is, cutting comes to its end without a bound below zero, the pieces make up the word, and none is
empty. -/
theorem pieces_longest (measure : Measure) (limit : Float32) :
    ((∀ s t, s ≠ [] → s <+: t → measure s ≤ measure t) →
      (∀ rest : List Char,
        Wrap.search? (fun n => measure.fits limit (rest.take n)) 1 rest.length 1 =
          some (Wrap.longest (fun n => measure.fits limit (rest.take n)) rest.length)) ∧
      ∀ word pieces, Wrap.Cuts (measure.fits limit) word pieces ↔
        pieces = Wrap.pieces (measure.fits limit) word) ∧
    ∀ word, Wrap.cut? (measure.fits limit) word = some (Wrap.pieces (measure.fits limit) word) ∧
      (Wrap.pieces (measure.fits limit) word).flatten = word ∧
      ∀ piece ∈ Wrap.pieces (measure.fits limit) word, piece ≠ [] := by
  refine ⟨fun hgrows => ?_, fun word => ?_⟩
  · have hmono : ∀ s t, s ≠ [] → s <+: t → measure.fits limit t = true →
        measure.fits limit s = true := by
      intro s t hne hfront hfits
      exact decide_eq_true (Machine.le_trans (hgrows s t hne hfront) (of_decide_eq_true hfits))
    refine ⟨fun rest => ?_, fun word pieces => ⟨fun hcuts => ?_, ?_⟩⟩
    · rw [Wrap.search?_eq Nat.one_pos, Nat.add_sub_cancel,
        Wrap.bisect_eq_longest (Wrap.fits_take hmono rest)]
    · exact hcuts.unique (Wrap.cuts_pieces hmono word)
    · rintro rfl
      exact Wrap.cuts_pieces hmono word
  · obtain ⟨hflatten, hpieces⟩ := Wrap.flatten_pieces (measure.fits limit) word
    exact ⟨Wrap.cut?_eq _ word, hflatten, fun piece hpiece => (hpieces piece hpiece).1⟩

/-- A word of ten characters that is cut into pieces of four. -/
theorem pieces_longest_ten :
    Wrap.pieces ((Measure.fixed 10).fits 40) "abcdefghij".toList =
        ["abcd".toList, "efgh".toList, "ij".toList] ∧
      Wrap.Cuts ((Measure.fixed 10).fits 40) "abcdefghij".toList
        ["abcd".toList, "efgh".toList, "ij".toList] := by
  have hpieces : Wrap.pieces ((Measure.fixed 10).fits 40) "abcdefghij".toList =
      ["abcd".toList, "efgh".toList, "ij".toList] := by decide +kernel
  have hgrows : ∀ s t, s ≠ [] → s <+: t → Measure.fixed 10 s ≤ Measure.fixed 10 t :=
    fun s t hne hfront => Measure.grows_fixed (by decide +kernel) s t hne hfront.isInfix
  exact ⟨hpieces, (((pieces_longest (.fixed 10) 40).1 hgrows).2 _ _).mpr hpieces.symm⟩

end Flowchart
