import Flowchart.Text.Blank
import Mathlib.Data.List.Chain

/-!
# Lines and words

A text that is put together is taken apart again: lines joined with newlines have the same lines
(`lines_joinLines`), and words with one space between each two have the same words
(`words_joinWords`). Everything about words follows from one equation, that a blank ends a word and
belongs to none (`words_append_blank`).

A line is tidy when it has no blank at either end and no two blanks next to each other, which is how
words with single spaces between them look (`tidy_joinWords`).
-/

namespace Flowchart.Text

/-- The pieces of a text are those of the library. -/
theorem split_eq_splitOnP (cut : Char → Bool) (cs : List Char) : split cut cs = cs.splitOnP cut := by
  induction cs with
  | nil => rw [List.splitOnP_nil, split]
  | cons c cs ih =>
    rw [split, List.splitOnP_cons_eq_if_modifyHead, ih]
    cases hcut : cut c with
    | true => rw [if_pos rfl, if_pos rfl]
    | false =>
      rw [if_neg Bool.false_ne_true, if_neg Bool.false_ne_true]
      cases hpieces : cs.splitOnP cut with
      | nil => exact absurd hpieces (List.splitOnP_ne_nil _ _)
      | cons piece pieces => rfl

/-- No piece holds a character that was cut at. -/
theorem cut_eq_false_of_mem_split {cut : Char → Bool} {cs piece : List Char}
    (h : piece ∈ split cut cs) : ∀ c ∈ piece, cut c = false := by
  induction cs generalizing piece with
  | nil =>
    obtain rfl := List.mem_singleton.mp h
    exact fun c hc => nomatch hc
  | cons c cs ih =>
    rw [split] at h
    cases hcut : cut c with
    | true =>
      rw [if_pos hcut] at h
      rcases List.mem_cons.mp h with rfl | h
      · exact fun c hc => nomatch hc
      · exact ih h
    | false =>
      rw [if_neg (by rw [hcut]; exact Bool.false_ne_true)] at h
      -- The character goes to the first of the other pieces.
      cases hpieces : split cut cs with
      | nil =>
        rw [hpieces] at h
        obtain rfl := List.mem_singleton.mp h
        exact List.forall_mem_singleton.mpr hcut
      | cons first rest =>
        rw [hpieces] at h ih
        rcases List.mem_cons.mp h with rfl | h
        · exact List.forall_mem_cons.mpr ⟨hcut, ih List.mem_cons_self⟩
        · exact ih (List.mem_cons_of_mem _ h)

/-! ## Lines -/

/-- Every text has at least one line. -/
theorem lines_ne_nil (cs : List Char) : lines cs ≠ [] := by
  rw [lines, split_eq_splitOnP]
  exact List.splitOnP_ne_nil _ _

/-- One line is a text by itself. -/
@[simp]
theorem joinLines_singleton (line : List Char) : joinLines [line] = line :=
  List.intercalate_singleton

/-- The first line ends where the next one starts. -/
theorem joinLines_cons {ls : List (List Char)} (h : ls ≠ []) (line : List Char) :
    joinLines (line :: ls) = line ++ '\n' :: joinLines ls := by
  refine (List.intercalate_cons_of_ne_nil h).trans ?_
  rw [List.append_assoc]
  rfl

/-- A line holds no newline. -/
theorem newline_notMem_of_mem_lines {cs line : List Char} (h : line ∈ lines cs) : '\n' ∉ line :=
  fun hmem => Bool.noConfusion (cut_eq_false_of_mem_split h _ hmem)

/-- Lines joined with newlines are taken apart again. -/
theorem lines_joinLines {ls : List (List Char)} (hne : ls ≠ []) (h : ∀ line ∈ ls, '\n' ∉ line) :
    lines (joinLines ls) = ls := by
  rw [lines, split_eq_splitOnP]
  exact List.splitOn_intercalate '\n' h hne

/-- The lines of a text, joined with newlines, are the text. -/
theorem joinLines_lines (cs : List Char) : joinLines (lines cs) = cs := by
  rw [lines, split_eq_splitOnP]
  exact List.intercalate_splitOn '\n'

/-- A text without a newline is its only line. -/
theorem lines_eq_singleton {cs : List Char} (h : '\n' ∉ cs) : lines cs = [cs] := by
  have hjoined := lines_joinLines (List.cons_ne_nil cs []) (List.forall_mem_singleton.mpr h)
  rwa [joinLines_singleton] at hjoined

/-! ## Words -/

/-- A word is a text that is not empty and holds no blank. -/
structure IsWord (cs : List Char) : Prop where
  /-- It has at least one character. -/
  ne_nil : cs ≠ []
  /-- None of them is blank. -/
  solid : ∀ c ∈ cs, isBlank c = false

/-- The words of a text are words: not empty and without blanks. -/
theorem isWord_of_mem_words {cs word : List Char} (h : word ∈ words cs) : IsWord word := by
  obtain ⟨hpiece, hsome⟩ := List.mem_filter.mp h
  refine ⟨?_, cut_eq_false_of_mem_split hpiece⟩
  rintro rfl
  exact Bool.noConfusion hsome

/-- A blank ends a word and belongs to none. -/
theorem words_append_blank {c : Char} (hc : isBlank c = true) (front back : List Char) :
    words (front ++ c :: back) = words front ++ words back := by
  simp only [words, split_eq_splitOnP]
  rw [List.splitOnP_append_cons front back hc, List.filter_append]

/-- A text without blanks is one word, if it is not empty. -/
theorem IsWord.words_eq {cs : List Char} (h : IsWord cs) : words cs = [cs] := by
  have hsome : (!cs.isEmpty) = true := by
    rw [Bool.not_eq_true', List.isEmpty_eq_false_iff]
    exact h.ne_nil
  rw [words, split_eq_splitOnP, List.splitOnP_eq_singleton h.solid, List.filter_singleton, hsome]
  rfl

/-- A carriage return at the end belongs to no word. -/
theorem words_dropReturn (cs : List Char) : words (dropReturn cs) = words cs := by
  rw [dropReturn]
  split
  · rename_i hlast
    obtain ⟨front, rfl⟩ := List.getLast?_eq_some_iff.mp hlast
    rw [List.dropLast_concat, words_append_blank (by decide)]
    exact (List.append_nil _).symm
  · rfl

/-- The part of a text that is not blank. -/
def solidPart (cs : List Char) : List Char := cs.filter (! isBlank ·)

/-- Of a text without blanks everything is solid. -/
theorem solidPart_eq_self {cs : List Char} (h : ∀ c ∈ cs, isBlank c = false) :
    solidPart cs = cs :=
  List.filter_eq_self.mpr fun c hc => by rw [h c hc]; rfl

/-- The solid part of a text is made of those of its parts. -/
theorem solidPart_append (cs ds : List Char) :
    solidPart (cs ++ ds) = solidPart cs ++ solidPart ds :=
  List.filter_append ..

/-- The words of a text have, in their order, all of its characters that are not blank. -/
theorem flatten_words (cs : List Char) : (words cs).flatten = solidPart cs := by
  have hpieces : ((words cs)).flatten = (split isBlank cs).flatten := by
    rw [words]
    induction split isBlank cs with
    | nil => rfl
    | cons piece pieces ih => cases piece <;> simp [ih]
  rw [hpieces]
  clear hpieces
  induction cs with
  | nil => rfl
  | cons c cs ih =>
    rw [split, solidPart, List.filter_cons, ← solidPart, ← ih]
    cases hblank : isBlank c with
    | true => rfl
    | false => cases split isBlank cs <;> rfl

/-- Words with one space between each two. -/
def joinWords (ws : List (List Char)) : List Char := (ws.intersperse [' ']).flatten

/-- One word is a text by itself. -/
@[simp]
theorem joinWords_singleton (w : List Char) : joinWords [w] = w := List.intercalate_singleton

/-- Behind the first word comes a blank. -/
theorem joinWords_cons {ws : List (List Char)} (h : ws ≠ []) (w : List Char) :
    joinWords (w :: ws) = w ++ ' ' :: joinWords ws := by
  refine (List.intercalate_cons_of_ne_nil h).trans ?_
  rw [List.append_assoc]
  rfl

/-- Between the words of two texts comes a blank. -/
theorem joinWords_append {vs ws : List (List Char)} (hvs : vs ≠ []) (hws : ws ≠ []) :
    joinWords (vs ++ ws) = joinWords vs ++ ' ' :: joinWords ws := by
  induction vs with
  | nil => exact absurd rfl hvs
  | cons v vs ih =>
    cases vs with
    | nil => rw [List.singleton_append, joinWords_cons hws, joinWords_singleton]
    | cons u vs =>
      have hne : u :: vs ≠ [] := List.cons_ne_nil u vs
      rw [List.cons_append, joinWords_cons (List.append_ne_nil_of_left_ne_nil hne ws), ih hne,
        joinWords_cons hne, List.append_assoc, List.cons_append]

/-- Words with one space between each two are taken apart again. -/
theorem words_joinWords {ws : List (List Char)} (h : ∀ w ∈ ws, IsWord w) :
    words (joinWords ws) = ws := by
  induction ws with
  | nil => rfl
  | cons w ws ih =>
    obtain ⟨hw, hws⟩ := List.forall_mem_cons.mp h
    cases ws with
    | nil => rw [joinWords_singleton, hw.words_eq]
    | cons v ws =>
      rw [joinWords_cons (List.cons_ne_nil v ws), words_append_blank (by decide), hw.words_eq,
        ih hws]
      rfl

/-- No newline comes into words that are put together. -/
theorem newline_notMem_joinWords {ws : List (List Char)} (h : ∀ w ∈ ws, IsWord w) :
    '\n' ∉ joinWords ws := by
  induction ws with
  | nil => exact List.not_mem_nil
  | cons w ws ih =>
    obtain ⟨hw, hws⟩ := List.forall_mem_cons.mp h
    have hfirst : '\n' ∉ w := fun hmem => Bool.noConfusion (hw.solid _ hmem)
    cases ws with
    | nil => rwa [joinWords_singleton]
    | cons v ws =>
      rw [joinWords_cons (List.cons_ne_nil v ws)]
      simp [hfirst, ih hws]

/-! ## Tidy lines -/

/-- A line without a blank at its ends, and without two blanks next to each other. -/
structure Tidy (line : List Char) : Prop where
  /-- The line does not start with a blank. -/
  head : ∀ c ∈ line.head?, isBlank c = false
  /-- It does not end with one. -/
  last : ∀ c ∈ line.getLast?, isBlank c = false
  /-- No two blanks stand side by side. -/
  single : line.IsChain fun c d => isBlank c = false ∨ isBlank d = false

/-- The empty text is tidy. -/
theorem tidy_nil : Tidy [] := ⟨nofun, nofun, List.isChain_nil⟩

/-- A text without blanks is tidy. -/
theorem tidy_of_solid {cs : List Char} (h : ∀ c ∈ cs, isBlank c = false) : Tidy cs where
  head c hc := h c (List.mem_of_mem_head? hc)
  last c hc := h c (List.mem_of_mem_getLast? hc)
  single := by
    refine List.Pairwise.isChain (List.pairwise_iff_forall_sublist.mpr fun {c d} hsub => ?_)
    exact .inl (h c (hsub.subset List.mem_cons_self))

/-- A word, a space and a tidy line that is not empty make a tidy line. -/
theorem Tidy.cons_word {w line : List Char} (hw : IsWord w) (hne : line ≠ []) (h : Tidy line) :
    Tidy (w ++ ' ' :: line) where
  head c hc := by
    rw [List.head?_append, List.head?_eq_some_head hw.ne_nil, Option.some_or] at hc
    exact hw.solid c (Option.some.inj hc ▸ List.head_mem hw.ne_nil)
  last c hc := by
    refine h.last c ?_
    rwa [List.getLast?_append, List.getLast?_cons_of_ne_nil hne, List.getLast?_eq_some_getLast hne,
      Option.some_or, ← List.getLast?_eq_some_getLast hne] at hc
  single := by
    refine List.isChain_append.mpr ⟨(tidy_of_solid hw.solid).single, ?_, fun c hc d _ => ?_⟩
    · exact List.isChain_cons.mpr ⟨fun d hd => .inr (h.head d hd), h.single⟩
    · exact .inl ((tidy_of_solid hw.solid).last c hc)

/-- Words with one space between each two are tidy. -/
theorem tidy_joinWords {ws : List (List Char)} (hne : ws ≠ []) (h : ∀ w ∈ ws, IsWord w) :
    Tidy (joinWords ws) ∧ joinWords ws ≠ [] := by
  induction ws with
  | nil => exact absurd rfl hne
  | cons w ws ih =>
    obtain ⟨hw, hws⟩ := List.forall_mem_cons.mp h
    cases ws with
    | nil =>
      rw [joinWords_singleton]
      exact ⟨tidy_of_solid hw.solid, hw.ne_nil⟩
    | cons v ws =>
      obtain ⟨htidy, hsome⟩ := ih (List.cons_ne_nil v ws) hws
      rw [joinWords_cons (List.cons_ne_nil v ws)]
      exact ⟨htidy.cons_word hw hsome, List.append_ne_nil_of_left_ne_nil hw.ne_nil _⟩

/-- Put together, words have the characters they had. -/
theorem solidPart_joinWords {ws : List (List Char)} (h : ∀ w ∈ ws, IsWord w) :
    solidPart (joinWords ws) = ws.flatten := by
  rw [← flatten_words, words_joinWords h]

end Flowchart.Text
