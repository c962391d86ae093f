import Flowchart.Decimal.Text
import Flowchart.Proofs.Decimal.Rounding
import Flowchart.Proofs.Json.Grammar
import Mathlib.Data.List.TakeWhile

/-!
# Decimal text

The digits of a text and the point among them say which rational number it stands for. Positional
notation stands for its digits times their power of ten (`value_positional`), so the text of a finite
number stands for one that rounds to it (`value_magnitude_mem`), and two numbers of a format have
different texts (`Binary.eq_of_text_eq`).

The text of a finite number is a number of JSON (`Binary.isNumber_text`): digits that are not zero
start with none.
-/

namespace Flowchart.Decimal

/-! ## The value of a text -/

/-- The number of digits behind the point. -/
def fractionLength (cs : List Char) : ℕ := (cs.dropWhile (· != '.')).length - 1

/-- The rational number that digits, perhaps with a point among them, stand for. -/
def value (cs : List Char) : ℚ :=
  (Nat.ofDigitChars 10 (cs.filter (· != '.')) 0 : ℚ) * 10 ^ (-(fractionLength cs : ℤ))

section

variable {cs ds : List Char}

/-- A digit is no point. -/
theorem ne_point_of_isDigit {c : Char} (h : c.isDigit = true) : (c != '.') = true := by
  rw [bne_iff_ne]
  rintro rfl
  exact Bool.noConfusion h

/-- Digits have no point among them. -/
theorem filter_point (h : ∀ c ∈ cs, c.isDigit = true) : cs.filter (· != '.') = cs :=
  List.filter_eq_self.mpr fun c hc => ne_point_of_isDigit (h c hc)

/-- Digits without a point stand for a whole number. -/
theorem value_digits (h : ∀ c ∈ cs, c.isDigit = true) : value cs = Nat.ofDigitChars 10 cs 0 := by
  have hnone : cs.dropWhile (· != '.') = [] :=
    List.dropWhile_eq_nil_iff.mpr fun c hc => ne_point_of_isDigit (h c hc)
  simp [value, fractionLength, filter_point h, hnone]

/-- A point divides by a power of ten. -/
theorem value_point (h : ∀ c ∈ cs, c.isDigit = true) (h' : ∀ c ∈ ds, c.isDigit = true) :
    value (cs ++ '.' :: ds) = Nat.ofDigitChars 10 (cs ++ ds) 0 * 10 ^ (-(ds.length : ℤ)) := by
  have hfraction : (cs ++ '.' :: ds).dropWhile (· != '.') = '.' :: ds := by
    rw [List.dropWhile_append_of_pos fun c hc => ne_point_of_isDigit (h c hc)]
    rfl
  have hdigits : (cs ++ '.' :: ds).filter (· != '.') = cs ++ ds := by
    rw [List.filter_append, filter_point h]
    simp [filter_point h']
  rw [value, fractionLength, hfraction, hdigits, List.length_cons, Nat.add_sub_cancel]

end

/-- The digits of a number. -/
theorem isDigit_of_mem_toDigits (n : ℕ) : ∀ c ∈ Nat.toDigits 10 n, c.isDigit = true :=
  fun _ => Nat.isDigit_of_mem_toDigits (by norm_num) (by norm_num)

/-- Zeros are digits. -/
theorem isDigit_of_mem_replicate (n : ℕ) : ∀ c ∈ List.replicate n '0', c.isDigit = true := by
  intro c hc
  rw [List.eq_of_mem_replicate hc]
  rfl

/-- Zeros in front of digits do not matter. -/
theorem ofDigitChars_replicate_append (n digits : ℕ) :
    Nat.ofDigitChars 10 (List.replicate n '0' ++ Nat.toDigits 10 digits) 0 = digits := by
  rw [Nat.ofDigitChars_append, Nat.ofDigitChars_replicate_zero, Nat.mul_zero,
    Nat.ofDigitChars_ten_toDigits]

/-- **Positional notation** stands for its digits times their power of ten. -/
theorem value_positional (digits : ℕ) (place : ℤ) :
    value (positional [] digits place) = digits * 10 ^ place := by
  have hwritten := isDigit_of_mem_toDigits digits
  rw [positional]
  split
  · -- Zeros behind the digits make up the power of ten.
    rename_i hplaces
    have hplace : place = (place.toNat : ℕ) := by omega
    rw [List.append_nil, value_digits (List.forall_mem_append.mpr
      ⟨hwritten, isDigit_of_mem_replicate _⟩), Nat.ofDigitChars_append,
      Nat.ofDigitChars_ten_toDigits, Nat.ofDigitChars_replicate_zero]
    conv_rhs => rw [hplace, zpow_natCast]
    push_cast
    ring
  · rename_i hplaces
    split
    · -- The point stands among the digits.
      rename_i hlong
      have hlength : ((Nat.toDigits 10 digits).drop
          ((Nat.toDigits 10 digits).length - (-place).toNat)).length = (-place).toNat := by
        rw [List.length_drop]
        omega
      rw [value_point (fun c hc => hwritten c (List.mem_of_mem_take hc))
        (fun c hc => hwritten c (List.mem_of_mem_drop hc)), List.take_append_drop,
        Nat.ofDigitChars_ten_toDigits, hlength]
      congr 2
      omega
    · -- The digits start behind the point, with zeros in front of them.
      rename_i hshort
      have hfront : ∀ c ∈ ['0'], c.isDigit = true := List.forall_mem_singleton.mpr rfl
      have hbehind := List.forall_mem_append.mpr
        ⟨isDigit_of_mem_replicate ((-place).toNat - (Nat.toDigits 10 digits).length), hwritten⟩
      refine (value_point hfront hbehind).trans ?_
      rw [List.singleton_append, ← List.cons_append, ← List.replicate_succ,
        ofDigitChars_replicate_append, List.length_append, List.length_replicate]
      congr 2
      omega

/-- The text of a finite number stands for one that rounds to it. -/
theorem value_magnitude_mem (m : ℕ) (e : ℤ) (narrow : Bool) :
    (Interval.around m e narrow).Mem (value (magnitude .plain m e narrow)) := by
  rw [magnitude]
  split
  · rename_i hzero
    have hvalue : value ['0'] = (m : ℚ) * 2 ^ e := by
      rw [hzero, value_digits (List.forall_mem_singleton.mpr rfl)]
      simp [Nat.ofDigitChars_cons]
    show (Interval.around m e narrow).Mem (value ['0'])
    rw [hvalue]
    exact Interval.mem_around m e narrow
  · have hmem := shortest_mem m e narrow
    rw [← value_positional] at hmem
    exact hmem

/-! ## The form of a text -/

/-- The digits of a number that is not zero start with none. -/
theorem exists_toDigits_eq {n : ℕ} (h : n ≠ 0) : ∃ c cs, Nat.toDigits 10 n = c :: cs ∧ c ≠ '0' := by
  induction n using Nat.strong_induction_on with
  | _ n ih =>
    rcases Nat.lt_or_ge n 10 with hlt | hge
    · refine ⟨n.digitChar, [], Nat.toDigits_of_lt_base hlt, ?_⟩
      rwa [Ne, Nat.digitChar_eq_zero]
    · obtain ⟨c, cs, hcs, hc⟩ := ih (n / 10) (by omega) (by omega)
      refine ⟨c, cs ++ [(n % 10).digitChar], ?_, hc⟩
      rw [Nat.toDigits_of_base_le (by norm_num) hge, hcs, List.cons_append]

/-- Positional notation is a whole number and perhaps a fraction. -/
theorem exists_positional_eq {digits : ℕ} (h : digits ≠ 0) (place : ℤ) :
    ∃ whole fraction, positional [] digits place = whole ++ fraction ∧
      Json.IsWhole whole ∧ Json.IsFraction fraction := by
  obtain ⟨c, cs, hwritten, hc⟩ := exists_toDigits_eq h
  have hall := isDigit_of_mem_toDigits digits
  rw [hwritten] at hall
  obtain ⟨hfirst, hmore⟩ := List.forall_mem_cons.mp hall
  rw [positional, hwritten]
  split
  · refine ⟨_, [], rfl, ?_, .none⟩
    rw [List.cons_append]
    refine .nonzero hc ⟨List.cons_ne_nil _ _, List.forall_mem_cons.mpr ⟨hfirst, ?_⟩⟩
    exact List.forall_mem_append.mpr ⟨hmore, isDigit_of_mem_replicate _⟩
  · rename_i hplaces
    split
    · -- At least one digit stands in front of the point.
      rename_i hlong
      obtain ⟨k, hk⟩ : ∃ k, (c :: cs).length - (-place).toNat = k + 1 :=
        ⟨(c :: cs).length - (-place).toNat - 1, by omega⟩
      refine ⟨_, _, rfl, ?_, .some ⟨?_, ?_⟩⟩
      · rw [hk, List.take_succ_cons]
        refine .nonzero hc ⟨List.cons_ne_nil _ _, List.forall_mem_cons.mpr ⟨hfirst, ?_⟩⟩
        exact fun d hd => hmore d (List.mem_of_mem_take hd)
      · rw [Ne, List.drop_eq_nil_iff]
        omega
      · exact fun d hd => hall d (List.mem_of_mem_drop hd)
    · -- No digit is left in front of the point but a zero.
      refine ⟨['0'], _, rfl, .zero, .some ⟨by simp, ?_⟩⟩
      exact List.forall_mem_append.mpr ⟨isDigit_of_mem_replicate _, hall⟩

/-- The shortest decimal of a number that is not zero has digits. -/
theorem shortest_ne_zero {m : ℕ} (h : m ≠ 0) (e : ℤ) (narrow : Bool) :
    (shortest m e narrow).1 ≠ 0 := by
  intro hzero
  have hle := (shortest_mem m e narrow).low_le
  have hlow : 0 < (Interval.around m e narrow).low := by
    show 0 < 4 * m - if narrow then 1 else 2
    split <;> omega
  have hpos : (0 : ℚ) < (Interval.around m e narrow).low * 2 ^ (Interval.around m e narrow).exponent :=
    mul_pos (Nat.cast_pos.mpr hlow) (by positivity)
  rw [hzero, Nat.cast_zero, zero_mul] at hle
  exact absurd (hpos.trans_le hle) (lt_irrefl _)

/-- The text of a magnitude is a whole number and perhaps a fraction. -/
theorem exists_magnitude_eq (m : ℕ) (e : ℤ) (narrow : Bool) :
    ∃ whole fraction, magnitude .plain m e narrow = whole ++ fraction ∧
      Json.IsWhole whole ∧ Json.IsFraction fraction := by
  rw [magnitude]
  split
  · exact ⟨['0'], [], rfl, .zero, .none⟩
  · rename_i hne
    exact exists_positional_eq (shortest_ne_zero hne e narrow) _

/-- The text of a magnitude is made of digits and perhaps a point, with a digit in front. -/
theorem exists_magnitude_cons (m : ℕ) (e : ℤ) (narrow : Bool) :
    ∃ c cs, magnitude .plain m e narrow = c :: cs ∧ c.isDigit = true ∧
      ∀ d ∈ cs, d.isDigit = true ∨ d = '.' := by
  obtain ⟨whole, fraction, heq, hwhole, hfraction⟩ := exists_magnitude_eq m e narrow
  obtain ⟨c, cs, rfl, hc, hcs⟩ : ∃ c cs, whole = c :: cs ∧ c.isDigit = true ∧
      ∀ d ∈ cs, d.isDigit = true := by
    cases hwhole with
    | zero => exact ⟨'0', [], rfl, rfl, nofun⟩
    | nonzero _ hdigits => exact ⟨_, _, rfl, List.forall_mem_cons.mp hdigits.digits⟩
  refine ⟨c, cs ++ fraction, heq, hc, List.forall_mem_append.mpr ⟨fun d hd => .inl (hcs d hd), ?_⟩⟩
  cases hfraction with
  | none => exact nofun
  | some hdigits =>
    exact List.forall_mem_cons.mpr ⟨.inr rfl, fun d hd => .inl (hdigits.digits d hd)⟩

namespace Binary

open text (signed)

/-! ## The text of a binary number -/

/-- Whether the number is a negative one. -/
def negative : Binary → Bool
  | .notANumber => false
  | .infinite negative => negative
  | .finite negative .. => negative

/-- The plain text of a number without its sign. -/
def unsigned : Binary → List Char
  | .notANumber => ['N', 'a', 'N']
  | .infinite _ => ['i', 'n', 'f']
  | .finite _ m e narrow => magnitude .plain m e narrow

/-- In plain notation a number is written with its sign in front of the rest. -/
theorem text_plain (b : Binary) : b.text .plain = signed b.negative b.unsigned := by
  cases b <;> rfl

/-- What can stand at the front of a text and behind it. -/
theorem exists_unsigned_cons (b : Binary) : ∃ c cs, b.unsigned = c :: cs ∧
    (c.isDigit = true ∨ c = 'i' ∨ c = 'N') ∧
      ∀ d ∈ cs, d.isDigit = true ∨ d ∈ ['.', 'n', 'f', 'a', 'N'] := by
  cases b with
  | notANumber => exact ⟨'N', ['a', 'N'], rfl, .inr (.inr rfl), by simp⟩
  | infinite => exact ⟨'i', ['n', 'f'], rfl, .inr (.inl rfl), by simp⟩
  | finite _ m e narrow =>
    obtain ⟨c, cs, heq, hc, hcs⟩ := exists_magnitude_cons m e narrow
    refine ⟨c, cs, heq, .inl hc, fun d hd => (hcs d hd).imp_right ?_⟩
    rintro rfl
    exact List.mem_cons_self

/-- The characters of a text. -/
theorem mem_text {b : Binary} {c : Char} (hc : c ∈ b.text .plain) :
    c.isDigit = true ∨ c ∈ ['-', '.', 'i', 'n', 'f', 'N', 'a'] := by
  obtain ⟨d, ds, hd, hfront, hbehind⟩ := b.exists_unsigned_cons
  rw [text_plain, hd, signed] at hc
  have hbody (h : c ∈ d :: ds) : c.isDigit = true ∨ c ∈ ['-', '.', 'i', 'n', 'f', 'N', 'a'] := by
    rcases List.mem_cons.mp h with rfl | h
    · rcases hfront with h | rfl | rfl
      · exact .inl h
      · exact .inr (by decide)
      · exact .inr (by decide)
    · refine (hbehind c h).imp_right fun h => ?_
      simp only [List.mem_cons, List.not_mem_nil, or_false] at h ⊢
      tauto
  split at hc
  · rcases List.mem_cons.mp hc with rfl | hc
    · exact .inr List.mem_cons_self
    · exact hbody hc
  · exact hbody hc

/-- A text shows its sign. -/
theorem signed_inj {a b : Binary} (h : signed a.negative a.unsigned = signed b.negative b.unsigned) :
    a.negative = b.negative ∧ a.unsigned = b.unsigned := by
  obtain ⟨c, cs, hc, hcfront, -⟩ := a.exists_unsigned_cons
  obtain ⟨d, ds, hd, hdfront, -⟩ := b.exists_unsigned_cons
  have hdash : ∀ {f : Char}, f.isDigit = true ∨ f = 'i' ∨ f = 'N' → f ≠ '-' := by
    rintro f hf rfl
    exact absurd hf (by decide)
  rw [hc, hd] at h ⊢
  cases hs : a.negative <;> cases ht : b.negative <;> rw [hs, ht] at h
  · exact ⟨rfl, h⟩
  · exact absurd (List.cons.inj h).1 (hdash hcfront)
  · exact absurd (List.cons.inj h).1.symm (hdash hdfront)
  · exact ⟨rfl, (List.cons.inj h).2⟩

/-- The number is one of the format with this hidden bit and this least exponent. -/
def Of (hidden : ℕ) (lowest : ℤ) : Binary → Prop
  | .finite _ m e narrow => Fits hidden lowest m e narrow
  | _ => True

/-- **Two numbers of a format have different texts.** -/
theorem eq_of_text_eq {hidden : ℕ} {lowest : ℤ} {a b : Binary} (ha : a.Of hidden lowest)
    (hb : b.Of hidden lowest) (h : a.text .plain = b.text .plain) : a = b := by
  rw [text_plain, text_plain] at h
  obtain ⟨hsign, hbody⟩ := signed_inj h
  -- The text of a finite number starts with a digit, and no other text does.
  have hword (m : ℕ) (e : ℤ) (narrow : Bool) (c : Char) (cs : List Char)
      (hc : c.isDigit = false) : magnitude .plain m e narrow ≠ c :: cs := by
    obtain ⟨d, ds, hd, hdigit, -⟩ := exists_magnitude_cons m e narrow
    rw [hd]
    rintro heq
    rw [(List.cons.inj heq).1, hc] at hdigit
    exact Bool.false_ne_true hdigit
  match a, b with
  | .notANumber, .notANumber => rfl
  | .infinite s, .infinite t => exact congrArg infinite hsign
  | .finite s m e narrow, .finite t m' e' narrow' =>
    have hmem := value_magnitude_mem m e narrow
    have hmem' := value_magnitude_mem m' e' narrow'
    have hsame : magnitude .plain m e narrow = magnitude .plain m' e' narrow' := hbody
    rw [← hsame] at hmem'
    obtain ⟨rfl, rfl, rfl⟩ := Fits.eq_of_mem ha hb hmem hmem'
    exact congrArg (finite · m e narrow) hsign
  | .notANumber, .infinite _ => exact nomatch hbody
  | .infinite _, .notANumber => exact nomatch hbody
  | .finite _ m e narrow, .notANumber => exact absurd hbody (hword m e narrow 'N' _ rfl)
  | .notANumber, .finite _ m e narrow => exact absurd hbody.symm (hword m e narrow 'N' _ rfl)
  | .finite _ m e narrow, .infinite _ => exact absurd hbody (hword m e narrow 'i' _ rfl)
  | .infinite _, .finite _ m e narrow => exact absurd hbody.symm (hword m e narrow 'i' _ rfl)

/-- **The text of a finite number is a number of JSON.** -/
theorem isNumber_text (s : Bool) (m : ℕ) (e : ℤ) (narrow : Bool) :
    Json.IsNumber ((finite s m e narrow).text .plain) := by
  obtain ⟨whole, fraction, heq, hwhole, hfraction⟩ := exists_magnitude_eq m e narrow
  have hbody : (finite s m e narrow).unsigned = whole ++ (fraction ++ []) := by
    rw [List.append_nil]
    exact heq
  rw [text_plain, hbody]
  cases s with
  | false => exact .parts (.inl rfl) hwhole hfraction .none
  | true => exact .parts (.inr rfl) hwhole hfraction .none

end Binary

end Flowchart.Decimal
