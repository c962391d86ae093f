import Mathlib.Order.Bounds.Basic
import Flowchart.Proofs.Layout.Wrapping

/-!
# Line breaks

Under a measure by which no part of a text is wider than the text, filling from the left is the best
one can do: it stays ahead of every other way of breaking the words of a line, so it needs the
fewest lines (`wrap_fewest`). In particular, words that fit on one line are put on one line, and so
a line that came out of wrapping comes out of it again, whatever kind of line it is (`wrap_stable`).
-/

namespace Flowchart

namespace Wrap

/-- What fits still does when some of it is left out at the ends. -/
def Closed (fits : List Char → Bool) : Prop :=
  ∀ s t, s ≠ [] → s <:+: t → fits t = true → fits s = true

/-- A way of breaking words into lines: consecutive groups of them, each of which fits when it is
joined with single spaces. -/
structure Breaking (fits : List Char → Bool) (words : List (List Char))
    (groups : List (List (List Char))) : Prop where
  /-- The groups are made of the words, in their order. -/
  flatten : groups.flatten = words
  /-- No group is empty. -/
  ne_nil : ∀ group ∈ groups, group ≠ []
  /-- Every group fits on a line. -/
  fits : ∀ group ∈ groups, fits (Text.joinWords group) = true

variable {fits : List Char → Bool} {words lines : List (List Char)}

/-- Words that follow each other are joined to a part of what all the words are joined to. -/
theorem joinWords_isInfix {ws : List (List Char)} (hne : ws ≠ []) (front back : List (List Char)) :
    Text.joinWords ws <:+: Text.joinWords (front ++ (ws ++ back)) := by
  have hfront : Text.joinWords (ws ++ back) <:+ Text.joinWords (front ++ (ws ++ back)) := by
    rcases eq_or_ne front [] with rfl | hfront
    · exact List.suffix_rfl
    · rw [Text.joinWords_append hfront (List.append_ne_nil_of_left_ne_nil hne back)]
      exact (List.suffix_cons ' ' _).trans (List.suffix_append _ _)
  have hback : Text.joinWords ws <+: Text.joinWords (ws ++ back) := by
    rcases eq_or_ne back [] with rfl | hback
    · exact (List.append_nil ws).symm ▸ List.prefix_rfl
    · rw [Text.joinWords_append hne hback]
      exact List.prefix_append _ _
  exact hback.isInfix.trans hfront.isInfix

/-! ## Filling stays ahead -/

/-- When words are the last ones of a group and what follows it, `w` and those behind it come after the
group, or the group has `w` and all that is before it. -/
theorem suffix_or_exists_append {ws group rest : List (List Char)} {w : List Char}
    (h : ws ++ w :: words <:+ group ++ rest) :
    w :: words <:+ rest ∨ ∃ front back, group = front ++ (ws ++ [w] ++ back) := by
  obtain ⟨front, happend⟩ := h
  rw [← List.append_assoc] at happend
  rcases List.append_eq_append_iff.mp happend with ⟨back, rfl, hback⟩ | ⟨before, -, hrest⟩
  · cases back with
    | nil => exact .inl (hback ▸ List.suffix_rfl)
    | cons v back =>
      obtain ⟨rfl, -⟩ := List.cons.inj hback
      exact .inr ⟨front, back, by simp⟩
  · exact .inl ⟨before, hrest.symm⟩

/-- Filling stays ahead of a breaking: when the words on the current line and those that are left are
the last ones of some groups that fit, it makes no more lines of them than there are groups. -/
theorem length_fill_some_le (h : Closed fits) (hwords : ∀ w ∈ words, fits w = true)
    {ws : List (List Char)} (hne : ws ≠ []) {groups : List (List (List Char))}
    (hgroups : ∀ group ∈ groups, fits (Text.joinWords group) = true)
    (hsuffix : ws ++ words <:+ groups.flatten) :
    (fill fits (some (Text.joinWords ws)) words).length ≤ groups.length := by
  induction words generalizing ws groups with
  | nil =>
    cases groups with
    | nil => exact absurd (List.append_eq_nil_iff.mp (List.suffix_nil.mp hsuffix)).1 hne
    | cons group groups => exact Nat.succ_le_succ (Nat.zero_le _)
  | cons w words ih =>
    obtain ⟨hfits, hwords⟩ := List.forall_mem_cons.mp hwords
    have hjoined : Text.joinWords ws ++ ' ' :: w = Text.joinWords (ws ++ [w]) := by
      rw [Text.joinWords_append hne (List.cons_ne_nil w []), Text.joinWords_singleton]
    rw [fill, hjoined]
    split
    · refine ih hwords (by simp) hgroups ?_
      rwa [List.append_assoc, List.singleton_append]
    · rename_i hlonger
      cases groups with
      | nil => exact absurd (List.append_eq_nil_iff.mp (List.suffix_nil.mp hsuffix)).1 hne
      | cons group groups =>
        obtain ⟨hgroup, hgroups⟩ := List.forall_mem_cons.mp hgroups
        rw [List.flatten_cons] at hsuffix
        rcases suffix_or_exists_append hsuffix with hrest | ⟨front, back, rfl⟩
        · have hle := ih hwords (List.cons_ne_nil w []) hgroups hrest
          rw [Text.joinWords_singleton] at hle
          exact Nat.succ_le_succ hle
        · -- The group would have words on one line that do not fit on one.
          have hsome : Text.joinWords (ws ++ [w]) ≠ [] := by
            rw [← hjoined]
            exact List.append_ne_nil_of_right_ne_nil _ (List.cons_ne_nil ' ' w)
          exact absurd (h _ _ hsome (joinWords_isInfix (by simp) front back) hgroup) hlonger

/-- Before any line is begun, filling makes no more lines of words than a breaking has groups. -/
theorem Breaking.length_fill_le {groups : List (List (List Char))}
    (hgroups : Breaking fits words groups) (h : Closed fits) (hwords : ∀ w ∈ words, fits w = true) :
    (fill fits none words).length ≤ groups.length := by
  cases words with
  | nil => exact Nat.zero_le _
  | cons w words =>
    obtain ⟨hfits, hwords⟩ := List.forall_mem_cons.mp hwords
    have hsuffix : [w] ++ words <:+ groups.flatten := hgroups.flatten ▸ List.suffix_rfl
    have hle := length_fill_some_le h hwords (List.cons_ne_nil w []) hgroups.fits hsuffix
    rw [fill, if_pos hfits]
    rwa [Text.joinWords_singleton] at hle

/-- Filling breaks words that fit, and puts each group of them on a line. -/
theorem Filled.exists_breaking (h : Filled fits words lines)
    (hwords : ∀ w ∈ words, fits w = true) :
    ∃ groups, Breaking fits words groups ∧ lines = groups.map Text.joinWords := by
  induction h with
  | done => exact ⟨[], ⟨rfl, nofun, nofun⟩, rfl⟩
  | @line ws _ _ hne hfits _ ih =>
    obtain ⟨groups, hgroups, rfl⟩ := ih (List.forall_mem_append.mp hwords).2
    refine ⟨ws :: groups, ⟨?_, ?_, ?_⟩, rfl⟩
    · rw [List.flatten_cons, hgroups.flatten]
    · exact List.forall_mem_cons.mpr ⟨hne, hgroups.ne_nil⟩
    · exact List.forall_mem_cons.mpr ⟨hfits, hgroups.fits⟩
  | cut hlong _ _ _ =>
    exact absurd (hwords _ List.mem_cons_self) (Bool.eq_false_iff.mp hlong)

/-- Filling breaks words that fit into the fewest lines. -/
theorem isLeast_length_fill (h : Closed fits) (hwords : ∀ w ∈ words, fits w = true) :
    IsLeast {n | ∃ groups, Breaking fits words groups ∧ groups.length = n}
      (fill fits none words).length := by
  constructor
  · obtain ⟨groups, hgroups, hlines⟩ := (filled_fill words).1.exists_breaking hwords
    exact ⟨groups, hgroups, by rw [hlines, List.length_map]⟩
  · rintro n ⟨groups, hgroups, rfl⟩
    exact hgroups.length_fill_le h hwords

/-! ## Lines that are filled again -/

/-- Words that fit on one line are put on one line. -/
theorem fill_joinWords (h : Closed fits) (hne : words ≠ [])
    (hwords : ∀ w ∈ words, Text.IsWord w) (hfits : fits (Text.joinWords words) = true) :
    fill fits none words = [Text.joinWords words] := by
  have hword : ∀ w ∈ words, fits w = true := by
    intro w hw
    obtain ⟨front, back, rfl⟩ := List.append_of_mem hw
    have hpart := joinWords_isInfix (List.cons_ne_nil w []) front back
    rw [Text.joinWords_singleton] at hpart
    exact h _ _ (hwords w hw).ne_nil hpart hfits
  have hone : Breaking fits words [words] :=
    ⟨List.flatten_singleton, List.forall_mem_singleton.mpr hne, List.forall_mem_singleton.mpr hfits⟩
  have hle := hone.length_fill_le h hword
  obtain ⟨groups, hgroups, hlines⟩ := (filled_fill words).1.exists_breaking hword
  rw [hlines, List.length_map] at hle
  -- A breaking into one line at most has all of the words in one group.
  match groups, hle with
  | [], _ => exact absurd hgroups.flatten.symm hne
  | [group], _ =>
    obtain rfl : group = words := by
      rw [← hgroups.flatten, List.flatten_singleton]
    exact hlines

/-- A piece of a word, which may be too wide if it is a single character, stays as it is. -/
theorem fill_singleton {word : List Char} (hne : word ≠ []) (h : Narrow fits word) :
    fill fits none [word] = [word] := by
  by_cases hfits : fits word = true
  · rw [fill, if_pos hfits]
    rfl
  · rw [fill, if_neg hfits]
    obtain ⟨c, rfl⟩ : ∃ c, word = [c] :=
      List.length_eq_one_iff.mp (le_antisymm (h.resolve_left hfits) (List.length_pos_of_ne_nil hne))
    obtain ⟨piece, rest, hword, hpiece, -, hpieces⟩ := exists_pieces_cons fits c []
    rcases List.append_eq_singleton_iff.mp hword with ⟨rfl, -⟩ | ⟨rfl, rfl⟩
    · exact absurd rfl hpiece
    · rw [hpieces, pieces]
      rfl

/-- No line breaks on a line, and what was filled is filled with its words to the same line. -/
theorem Filled.fill_words_eq (h : Filled fits words lines) (hclosed : Closed fits)
    (hwords : ∀ w ∈ words, Text.IsWord w) :
    ∀ line ∈ lines, '\n' ∉ line ∧ fill fits none (Text.words line) = [line] := by
  induction h with
  | done => exact nofun
  | line hne hfits _ ih =>
    obtain ⟨hws, hwords⟩ := List.forall_mem_append.mp hwords
    refine List.forall_mem_cons.mpr ⟨⟨Text.newline_notMem_joinWords hws, ?_⟩, ih hwords⟩
    rw [Text.words_joinWords hws, fill_joinWords hclosed hne hws hfits]
  | @cut ps _ _ _ hpieces _ ih =>
    obtain ⟨hword, hwords⟩ := List.forall_mem_cons.mp hwords
    refine List.forall_mem_append.mpr ⟨fun p hp => ?_, ih hwords⟩
    have hpiece : Text.IsWord p :=
      ⟨(hpieces p hp).1, fun c hc => hword.solid c (List.mem_flatten_of_mem hp hc)⟩
    refine ⟨fun hmem => Bool.noConfusion (hpiece.solid _ hmem), ?_⟩
    rw [hpiece.words_eq, fill_singleton hpiece.ne_nil (hpieces p hp).2]

/-- A line that came out of wrapping is a line of its own, and comes out of it again. -/
theorem wrapLine_of_mem_wrapLine (h : Closed fits) {source line : List Char}
    (hline : line ∈ wrapLine fits source) :
    '\n' ∉ line ∧ wrapLine fits (Text.dropReturn line) = [line] := by
  rw [wrapLine, Text.words_dropReturn]
  rcases wrapLine_eq fits source with ⟨hlines, -⟩ | ⟨hlines, -⟩
  · rw [hlines] at hline
    obtain rfl := List.mem_singleton.mp hline
    exact ⟨List.not_mem_nil, rfl⟩
  · rw [hlines] at hline
    obtain ⟨hnewline, hfill⟩ := (filled_fill (Text.words source)).1.fill_words_eq h
      (fun _ => Text.isWord_of_mem_words) line hline
    exact ⟨hnewline, by rw [hfill]⟩

/-- Wrapping the lines of a wrapped label changes nothing. -/
theorem wrapChars_joinLines (h : Closed fits) (label : List Char) :
    wrapChars fits (Text.joinLines (wrapChars fits label)) = wrapChars fits label := by
  have hlines : ∀ line ∈ wrapChars fits label,
      '\n' ∉ line ∧ wrapLine fits (Text.dropReturn line) = [line] := by
    intro line hline
    obtain ⟨source, -, hline⟩ := List.mem_flatMap.mp hline
    exact wrapLine_of_mem_wrapLine h hline
  have hne : wrapChars fits label ≠ [] := by
    obtain ⟨source, hsource⟩ := List.exists_mem_of_ne_nil _ (Text.lines_ne_nil label)
    intro hnil
    exact (wraps_wrapLine fits source).ne_nil (List.flatMap_eq_nil_iff.mp hnil source hsource)
  calc wrapChars fits (Text.joinLines (wrapChars fits label))
      = (wrapChars fits label).flatMap fun line => wrapLine fits (Text.dropReturn line) := by
        rw [wrapChars, Text.lines_joinLines hne fun line hline => (hlines line hline).1]
    _ = (wrapChars fits label).flatMap fun line => [line] :=
        List.flatMap_congr fun line hline => (hlines line hline).2
    _ = wrapChars fits label := List.flatMap_singleton' _

end Wrap

/-! ## Measures that grow -/

/-- A part of a text is at most as wide as the text, if there is anything of it. -/
def Measure.Grows (measure : Measure) : Prop :=
  ∀ s t, s ≠ [] → s <:+: t → measure s ≤ measure t

/-- A measure that grows with the number of characters. -/
theorem Measure.grows_of_length {measure : Measure}
    (h : ∀ s t, s ≠ [] → s.length ≤ t.length → measure s ≤ measure t) : measure.Grows :=
  fun s t hne hpart => h s t hne hpart.length_le

/-- The width may be infinite, since the texts that are compared are not empty. -/
theorem Measure.grows_fixed {charWidth : Float32} (h : 0 < charWidth) :
    (Measure.fixed charWidth).Grows := by
  refine grows_of_length fun s t hne hle => ?_
  exact Machine.mul_le_mul_right (Machine.ofNat_le_ofNat hle) (Machine.rank_ofNat_nonneg _).2
    (Machine.rank_pos_of_pos h) (.inl (Machine.rank_ofNat_pos (List.length_pos_of_ne_nil hne)))

/-- With a measure that grows, what fits still does without some characters at its ends. -/
theorem Measure.Grows.closed {measure : Measure} (h : measure.Grows) (limit : Float32) :
    Wrap.Closed (measure.fits limit) := by
  intro s t hne hpart hfits
  exact decide_eq_true (Machine.le_trans (h s t hne hpart) (of_decide_eq_true hfits))

/-- A line is a label without line breaks. -/
theorem wrap_ofList (measure : Measure) (limit : Float32) {line : List Char} (h : '\n' ∉ line) :
    wrap measure limit (String.ofList line) =
      (Wrap.wrapLine (measure.fits limit) (Text.dropReturn line)).map String.ofList := by
  rw [wrap, Wrap.wrapChars, String.toList_ofList, Text.lines_eq_singleton h,
    List.flatMap_singleton]

/-- A label is wrapped as its lines are, each taken for a label. -/
theorem wrap_eq_flatMap (measure : Measure) (limit : Float32) (label : String) :
    wrap measure limit label = (Text.lines label.toList).flatMap fun line =>
      wrap measure limit (String.ofList line) := by
  rw [wrap, Wrap.wrapChars, List.map_flatMap]
  exact List.flatMap_congr fun line hline =>
    (wrap_ofList measure limit (Text.newline_notMem_of_mem_lines hline)).symm

/-- **Wrapping uses as few lines as possible.** This holds for characters of one positive width, and
for every measure that grows with the number of characters: of each line of a label that has words,
all of which fit, wrapping makes as few lines as any way of breaking these words does. -/
theorem wrap_fewest :
    (∀ charWidth, 0 < charWidth → (Measure.fixed charWidth).Grows) ∧
    (∀ measure : Measure,
      (∀ s t, s ≠ [] → s.length ≤ t.length → measure s ≤ measure t) → measure.Grows) ∧
    ∀ measure : Measure, measure.Grows → ∀ limit label,
      wrap measure limit label = ((Text.lines label.toList).flatMap fun line =>
        wrap measure limit (String.ofList line)) ∧
      ∀ line ∈ Text.lines label.toList, Text.words line ≠ [] →
        (∀ word ∈ Text.words line, measure word ≤ limit) →
          IsLeast {n | ∃ groups, Wrap.Breaking (measure.fits limit) (Text.words line) groups ∧
            groups.length = n} (wrap measure limit (String.ofList line)).length := by
  refine ⟨fun _ => Measure.grows_fixed, fun _ => Measure.grows_of_length, ?_⟩
  intro measure hgrows limit label
  refine ⟨wrap_eq_flatMap measure limit label, fun line hline hsome hwords => ?_⟩
  have hlines : wrap measure limit (String.ofList line) =
      (Wrap.fill (measure.fits limit) none (Text.words line)).map String.ofList := by
    rw [wrap_ofList measure limit (Text.newline_notMem_of_mem_lines hline)]
    rcases Wrap.wrapLine_eq (measure.fits limit) (Text.dropReturn line) with
      ⟨-, hnone⟩ | ⟨hfill, -⟩
    · exact absurd ((Text.words_dropReturn line).symm.trans hnone) hsome
    · rw [hfill, Text.words_dropReturn]
  rw [hlines, List.length_map]
  exact Wrap.isLeast_length_fill (hgrows.closed limit) fun word hword =>
    decide_eq_true (hwords word hword)

/-- Four words that need three lines. -/
theorem wrap_fewest_four :
    wrap (.fixed 10) 90 "one two three four" = ["one two", "three", "four"] ∧
      IsLeast {n | ∃ groups, Wrap.Breaking ((Measure.fixed 10).fits 90)
        (Text.words "one two three four".toList) groups ∧ groups.length = n} 3 := by
  have hlines : wrap (.fixed 10) 90 "one two three four" = ["one two", "three", "four"] := by
    decide +kernel
  refine ⟨hlines, ?_⟩
  have hleast := ((wrap_fewest.2.2 (.fixed 10) (wrap_fewest.1 10 (by decide +kernel)) 90
    "one two three four").2 "one two three four".toList (by decide +kernel) (by decide +kernel)
    (by decide +kernel))
  rwa [String.ofList_toList, hlines] at hleast

/-- **Wrapping is stable.** The lines of a wrapped label, joined with newlines, are wrapped to
themselves, at any limit and with words or characters that are too wide for it. -/
theorem wrap_stable (charWidth : Float32) (h : 0 < charWidth) (limit : Float32) (label : String) :
    wrap (.fixed charWidth) limit ("\n".intercalate (wrap (.fixed charWidth) limit label)) =
      wrap (.fixed charWidth) limit label := by
  have hclosed := (Measure.grows_fixed h).closed limit
  have hjoined : ("\n".intercalate (wrap (.fixed charWidth) limit label)).toList =
      Text.joinLines (Wrap.wrapChars ((Measure.fixed charWidth).fits limit) label.toList) := by
    have hid : String.toList ∘ String.ofList = id := funext fun _ => String.toList_ofList
    rw [String.toList_intercalate, wrap, List.map_map, hid, List.map_id]
    rfl
  rw [wrap, hjoined, Wrap.wrapChars_joinLines hclosed, ← wrap]

/-- A word that is too long, a carriage return and a blank line. -/
theorem wrap_stable_longWord :
    wrap (.fixed 10) 40 "abcdef  gh\r\n\n i" = ["abcd", "ef", "gh", "", "i"] ∧
      wrap (.fixed 10) 40 "abcd\nef\ngh\n\ni" = ["abcd", "ef", "gh", "", "i"] := by
  have hlines : wrap (.fixed 10) 40 "abcdef  gh\r\n\n i" = ["abcd", "ef", "gh", "", "i"] := by
    decide +kernel
  have hstable := wrap_stable 10 (by decide +kernel) 40 "abcdef  gh\r\n\n i"
  rw [hlines] at hstable
  exact ⟨hlines, hstable⟩

end Flowchart
