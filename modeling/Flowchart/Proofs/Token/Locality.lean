import Mathlib.Data.List.TakeWhile
import Flowchart.Token.Lexer

/-!
# How far reading looks ahead

A reader of the lexer is handed the whole text that is left, and takes some characters from its
front. `Reader.Local` says that what it makes of them depends on nothing behind them, as long as a
new line or the end of the text comes next: the characters of a token are read the same by
themselves, and more text behind the end of a line changes nothing. Only a quoted text or a heredoc
that nothing has closed goes on, and that one reaches to the end of the source.

A choice between local readers is local, and so is a reader behind a character that it asks for.
-/

namespace Flowchart

/-- Whether it is the end of the source that shows the fault. -/
def LexicalFault.isOpen : LexicalFault → Bool
  | .unexpectedCharacter _ => false
  | _ => true

namespace Lexer

/-- The codes of the faults that the end of the source shows. -/
def openCodes : List Code := [.unterminatedString, .unterminatedEscape, .unterminatedHeredoc]

/-- The codes are those of the faults in which something is left open. -/
theorem mem_openCodes {p : LexicalProblem} : p.code ∈ openCodes ↔ p.fault.isOpen = true := by
  rw [LexicalProblem.code]
  cases p.fault <;> simp [openCodes, LexicalFault.isOpen]

/-! ## Lines -/

/-- What the first character of either text satisfies, the first character of both does. -/
theorem head?_append {P : Char → Prop} {cs t : List Char} (hcs : ∀ c ∈ cs.head?, P c)
    (ht : ∀ c ∈ t.head?, P c) : ∀ c ∈ (cs ++ t).head?, P c := by
  cases cs with
  | nil => exact ht
  | cons c cs => exact hcs

/-- A part of a text starts with the same character or is empty. -/
theorem head?_take {P : Char → Prop} {cs : List Char} (hcs : ∀ c ∈ cs.head?, P c) (n : Nat) :
    ∀ c ∈ (cs.take n).head?, P c := by
  cases n with
  | zero => exact fun _ hc => nomatch hc
  | succ n =>
    cases cs with
    | nil => exact hcs
    | cons c cs => exact hcs

/-- A text is over or goes on with a new line. -/
def EndsLine (cs : List Char) : Prop := ∀ c ∈ cs.head?, c = '\n'

/-- The end of the text ends its last line. -/
theorem endsLine_nil : EndsLine [] := fun _ hc => nomatch hc

/-- A line feed ends a line. -/
theorem endsLine_newline (cs : List Char) : EndsLine ('\n' :: cs) :=
  fun _ hc => (Option.some.inj hc).symm

/-- What no newline satisfies, the first character of the next line does not. -/
theorem EndsLine.head? {t : List Char} (ht : EndsLine t) {p : Char → Bool} (hp : p '\n' = false) :
    ∀ c ∈ t.head?, p c = false :=
  fun c hc => by rw [ht c hc, hp]

/-- A text is a run of characters that pass a test and what comes behind the run. -/
theorem exists_run (p : Char → Bool) (cs : List Char) :
    ∃ run rest, cs = run ++ rest ∧ (∀ c ∈ run, p c = true) ∧ ∀ c ∈ rest.head?, p c = false := by
  refine ⟨cs.takeWhile p, cs.dropWhile p, List.takeWhile_append_dropWhile.symm,
    fun c hc => List.mem_takeWhile_imp hc, fun c hc => ?_⟩
  have hnot := List.head?_dropWhile_not p cs
  rw [Option.mem_def.mp hc] at hnot
  simpa using hnot

/-- A run is taken as a whole and nothing behind it. -/
theorem takeWhile_run {p : Char → Bool} {run rest : List Char} (hrun : ∀ c ∈ run, p c = true)
    (hrest : ∀ c ∈ rest.head?, p c = false) : (run ++ rest).takeWhile p = run := by
  have hnone : rest.takeWhile p = [] := by
    cases rest with
    | nil => rfl
    | cons c rest =>
      exact List.takeWhile_cons_of_neg (by rw [hrest c rfl]; exact Bool.false_ne_true)
  rw [List.takeWhile_append_of_pos hrun, hnone, List.append_nil]

/-- A run of characters among which there is no newline ends at the latest where the line does. -/
theorem takeWhile_append {p : Char → Bool} (hp : p '\n' = false) (cs : List Char) {t : List Char}
    (ht : EndsLine t) : (cs ++ t).takeWhile p = cs.takeWhile p := by
  obtain ⟨run, rest, rfl, hrun, hrest⟩ := exists_run p cs
  rw [List.append_assoc, takeWhile_run hrun (head?_append hrest (ht.head? hp)),
    takeWhile_run hrun hrest]

/-- A run is the same in any part of the text that holds it. -/
theorem takeWhile_take {p : Char → Bool} {cs : List Char} {n : Nat}
    (hn : (cs.takeWhile p).length ≤ n) : (cs.take n).takeWhile p = cs.takeWhile p := by
  rw [← List.take_takeWhile, List.take_of_length_le hn]

/-- A text is a line without its end and what comes behind the line. -/
theorem exists_line (cs : List Char) :
    ∃ line rest, cs = line ++ rest ∧ '\n' ∉ line ∧ EndsLine rest := by
  obtain ⟨line, rest, rfl, hline, hrest⟩ := exists_run (· != '\n') cs
  exact ⟨line, rest, rfl, fun hmem => absurd (hline _ hmem) (by decide),
    fun c hc => by simpa using hrest c hc⟩

/-- The front of a text up to its first newline is its first line. -/
theorem takeWhile_line {line rest : List Char} (hline : '\n' ∉ line) (hrest : EndsLine rest) :
    (line ++ rest).takeWhile (· != '\n') = line :=
  takeWhile_run (fun _ hc => bne_iff_ne.mpr fun heq => hline (heq ▸ hc))
    fun c hc => by rw [hrest c hc]; rfl

/-! ## Local readers -/

/-- The piece can be made of the first `n` characters of a text. It is a token other than the end of
the source or a fault, and what nothing has closed takes the whole text. -/
def Piece.Fits (cs : List Char) (n : Nat) : Piece → Prop
  | .trivia => False
  | .token t => t ≠ .finish ∧ n ≤ cs.length
  | .fault f => n ≤ cs.length ∧ (f.isOpen = true → n = cs.length)

/-- A piece that fits is no longer than the text. -/
theorem Piece.Fits.length_le {cs : List Char} {n : Nat} {piece : Piece} (h : piece.Fits cs n) :
    n ≤ cs.length := by
  cases piece with
  | trivia => exact h.elim
  | token t => exact h.2
  | fault f => exact h.1

/-- One character more in front is one character more that is taken. -/
theorem Piece.fits_cons {c : Char} {cs : List Char} {n : Nat} {piece : Piece} :
    piece.Fits (c :: cs) (n + 1) ↔ piece.Fits cs n := by
  cases piece with
  | trivia => exact Iff.rfl
  | token t => exact and_congr Iff.rfl Nat.succ_le_succ_iff
  | fault f => exact and_congr Nat.succ_le_succ_iff (imp_congr Iff.rfl Nat.succ_inj)

/-- What looks at the front of a text and may find a piece there, with the number of its
characters. -/
abbrev Reader := List Char → Option (Piece × Nat)

/-- What a reader finds does not depend on the text behind it. -/
structure Reader.Local (r : Reader) : Prop where
  /-- What is found is made of the characters that are there. -/
  fits : ∀ cs piece n, r cs = some (piece, n) → piece.Fits cs n
  /-- A token is the same without the text behind it. -/
  token_take : ∀ cs t n, r cs = some (.token t, n) → r (cs.take n) = some (.token t, n)
  /-- Where nothing stands, nothing stands in a part of the text. -/
  none_take : ∀ cs n, r cs = none → r (cs.take n) = none
  /-- Unless something is open, the reader stops at the end of a line. -/
  append : ∀ cs t, EndsLine t → (∀ f n, r cs = some (.fault f, n) → f.isOpen = false) →
    r (cs ++ t) = r cs

namespace Reader.Local

variable {r s : Reader}

/-- Trying a second reader where the first finds nothing. -/
theorem orElse (hr : r.Local) (hs : s.Local) : Reader.Local fun cs => (r cs).or (s cs) where
  fits cs piece n h := by
    cases hcs : r cs with
    | none => exact hs.fits cs piece n (by rwa [hcs, Option.none_or] at h)
    | some found => exact hr.fits cs piece n (by rwa [hcs, Option.some_or, ← hcs] at h)
  token_take cs t n h := by
    cases hcs : r cs with
    | none =>
      rw [hcs, Option.none_or] at h
      rw [hr.none_take cs n hcs, Option.none_or]
      exact hs.token_take cs t n h
    | some found =>
      rw [hcs, Option.some_or] at h
      rw [hr.token_take cs t n (hcs.trans h), Option.some_or]
  none_take cs n h := by
    obtain ⟨hcs, hcs'⟩ := Option.or_eq_none_iff.mp h
    rw [hr.none_take cs n hcs, hs.none_take cs n hcs', Option.none_or]
  append cs t ht h := by
    -- Text behind makes no difference to the first reader, and then none to the second.
    have hfront : r (cs ++ t) = r cs :=
      hr.append cs t ht fun f n hcs => h f n (by rw [hcs, Option.some_or])
    cases hcs : r cs with
    | none =>
      rw [hfront, hcs, Option.none_or, Option.none_or]
      exact hs.append cs t ht fun f n hcs' => h f n (by rw [hcs, hcs', Option.none_or])
    | some found => rw [hfront, hcs, Option.some_or, Option.some_or]

/-- A reader that is tried under a condition on what stands before. -/
theorem guard (hr : r.Local) (p : Prop) [Decidable p] :
    Reader.Local fun cs => if p then r cs else none := by
  by_cases hp : p
  · simpa only [hp, if_true] using hr
  · simp only [hp, if_false]
    exact ⟨fun _ _ _ => nofun, fun _ _ _ => nofun, fun _ _ _ => rfl, fun _ _ _ _ => rfl⟩

/-- Reading without looking at the text. -/
theorem mark (found : Option Piece) (hfits : ∀ piece ∈ found, ∀ cs, piece.Fits cs 0) :
    Reader.Local fun _ => found.map (·, 0) where
  fits cs _ _ h := by
    obtain ⟨piece, hfound, heq⟩ := Option.map_eq_some_iff.mp h
    obtain ⟨rfl, rfl⟩ := Prod.mk.inj heq
    exact hfits piece hfound cs
  token_take _ _ _ h := h
  none_take _ _ h := h
  append _ _ _ _ := rfl

/-- A reader that counts its characters from one character further in front. -/
theorem within (hr : r.Local) (hpos : ∀ cs piece n, r cs = some (piece, n) → 0 < n) (c : Char) :
    Reader.Local fun cs => (r (c :: cs)).map fun found => (found.1, found.2 - 1) := by
  -- One character more is counted in front, and the reader always takes one.
  have hfound : ∀ cs piece n, ((r (c :: cs)).map fun found => (found.1, found.2 - 1)) =
      some (piece, n) ↔ r (c :: cs) = some (piece, n + 1) := by
    intro cs piece n
    rw [Option.map_eq_some_iff]
    constructor
    · rintro ⟨⟨_, m⟩, hm, heq⟩
      cases heq
      rwa [Nat.sub_add_cancel (hpos _ _ _ hm)]
    · exact fun hm => ⟨_, hm, rfl⟩
  constructor
  case fits =>
    intro cs piece n h
    exact Piece.fits_cons.mp (hr.fits _ piece _ ((hfound cs piece n).mp h))
  case token_take =>
    intro cs t n h
    exact (hfound _ _ n).mpr (hr.token_take _ t _ ((hfound cs _ n).mp h))
  case none_take =>
    intro cs n h
    rw [Option.map_eq_none_iff] at h ⊢
    exact hr.none_take _ (n + 1) h
  case append =>
    intro cs t ht h
    have hfront : r (c :: cs ++ t) = r (c :: cs) :=
      hr.append _ t ht fun f n hf => h f (n - 1) (Option.map_eq_some_iff.mpr ⟨_, hf, rfl⟩)
    exact congrArg _ hfront

end Reader.Local

/-- A reader behind one character that passes a test. -/
def Reader.behind (p : Char → Bool) (r : Reader) : Reader
  | [] => none
  | c :: cs => if p c then (r cs).map fun found => (found.1, found.2 + 1) else none

namespace Reader

variable {r : Reader} {p : Char → Bool}

/-- What is found behind a character is one character longer with it. -/
theorem behind_eq_some {cs : List Char} {piece : Piece} {n : Nat} :
    behind p r cs = some (piece, n) ↔
      ∃ c rest m, cs = c :: rest ∧ p c = true ∧ r rest = some (piece, m) ∧ n = m + 1 := by
  constructor
  · intro h
    cases cs with
    | nil => cases h
    | cons c rest =>
      rw [behind] at h
      split at h
      · rename_i hc
        obtain ⟨⟨_, m⟩, hfound, heq⟩ := Option.map_eq_some_iff.mp h
        obtain ⟨rfl, rfl⟩ := Prod.mk.inj heq
        exact ⟨c, rest, m, rfl, hc, hfound, rfl⟩
      · cases h
  · rintro ⟨c, rest, m, rfl, hc, hfound, rfl⟩
    rw [behind, if_pos hc, hfound]
    rfl

/-- Behind the right character the reader goes on. -/
theorem behind_cons {c : Char} (hc : p c = true) (cs : List Char) :
    behind p r (c :: cs) = (r cs).map fun found => (found.1, found.2 + 1) := by
  rw [behind, if_pos hc]

/-- A reader stays local behind a character that ends no line. -/
theorem Local.behind (hr : r.Local) (hp : p '\n' = false) : (behind p r).Local where
  fits cs piece n h := by
    obtain ⟨c, rest, m, rfl, -, hfound, rfl⟩ := behind_eq_some.mp h
    exact Piece.fits_cons.mpr (hr.fits rest piece m hfound)
  token_take cs t n h := by
    obtain ⟨c, rest, m, rfl, hc, hfound, rfl⟩ := behind_eq_some.mp h
    exact behind_eq_some.mpr ⟨c, rest.take m, m, rfl, hc, hr.token_take _ t m hfound, rfl⟩
  none_take cs n h := by
    cases cs with
    | nil => rwa [List.take_nil]
    | cons c rest =>
      cases n with
      | zero => rfl
      | succ n =>
        by_cases hc : p c = true
        · rw [behind_cons hc, Option.map_eq_none_iff] at h
          rw [List.take_succ_cons, behind_cons hc, hr.none_take rest n h, Option.map_none]
        · exact if_neg hc
  append cs t ht h := by
    cases cs with
    | nil =>
      -- The character cannot be one that starts a new line.
      cases t with
      | nil => rfl
      | cons c t =>
        obtain rfl : c = '\n' := ht c rfl
        exact if_neg (by rw [hp]; exact Bool.false_ne_true)
    | cons c rest =>
      by_cases hc : p c = true
      · have hfront : r (rest ++ t) = r rest := hr.append rest t ht fun f n hfound =>
          h f (n + 1) (behind_eq_some.mpr ⟨c, rest, n, rfl, hc, hfound, rfl⟩)
        rw [List.cons_append, behind_cons hc, behind_cons hc, hfront]
      · rw [List.cons_append]
        exact (if_neg hc).trans (if_neg hc).symm

end Reader

end Lexer

end Flowchart
