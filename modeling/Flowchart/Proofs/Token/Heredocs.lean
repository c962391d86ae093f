import Flowchart.Proofs.Token.Accounting

/-!
# Heredocs

A heredoc holds lines as they are, between an opening line with a marker and a closing line that
holds only that marker and blanks. `IsMarker` and `HeldBy` say which markers and which lines there
are, and a source that is put together of such a marker and such lines is one token, the lines
joined by newlines (`scan_heredoc`).

With the mark that asks to strip, the lines can be written further in: all but the blank ones start
with the same number of spaces, and as long as one of them started without a blank before, stripping
gives the lines back (`stripIndent_indentLines`).
-/

namespace Flowchart

namespace Text

/-! ## Trimming and stripping -/

/-- Blanks in front are trimmed. -/
theorem trimChars_append {indent : List Char} (h : ∀ c ∈ indent, isBlank c = true)
    (cs : List Char) : trimChars (indent ++ cs) = trimChars cs := by
  rw [trimChars, trimLeft, List.dropWhile_append_of_pos h, trimChars, trimLeft]

/-- There is nothing to trim of a text without blanks. -/
theorem trimChars_solid {cs : List Char} (h : ∀ c ∈ cs, isBlank c = false) :
    trimChars cs = cs := by
  have hdrop : ∀ {ds : List Char}, (∀ c ∈ ds, isBlank c = false) → ds.dropWhile isBlank = ds := by
    intro ds hds
    refine List.dropWhile_eq_self_iff.mpr fun hlength => ?_
    rw [hds _ (List.getElem_mem hlength)]
    exact Bool.false_ne_true
  have hreverse : ∀ c ∈ cs.reverse, isBlank c = false := fun c hc => h c (List.mem_reverse.mp hc)
  rw [trimChars, trimLeft, hdrop h, trimRight, hdrop hreverse, List.reverse_reverse]

/-- The lines, with `n` spaces before those that are not blank. -/
def indentLines (n : Nat) (lines : List (List Char)) : List (List Char) :=
  lines.map fun line => if isBlankText line then line else List.replicate n ' ' ++ line

/-- Blanks in front of a line do not matter to whether it is blank. -/
theorem isBlankText_replicate_append (n : Nat) (line : List Char) :
    isBlankText (List.replicate n ' ' ++ line) = isBlankText line := by
  have hspaces : (List.replicate n ' ').all isBlank = true :=
    List.all_eq_true.mpr fun c hc => List.eq_of_mem_replicate hc ▸ rfl
  rw [isBlankText, List.all_append, hspaces, Bool.true_and, isBlankText]

/-- Blanks in front of a line are added to its indentation. -/
theorem indentOf_replicate_append (n : Nat) (line : List Char) :
    indentOf (List.replicate n ' ' ++ line) = n + indentOf line := by
  have hspaces : ∀ c ∈ List.replicate n ' ', isBlank c = true :=
    fun c hc => List.eq_of_mem_replicate hc ▸ rfl
  rw [indentOf, List.takeWhile_append_of_pos hspaces, List.length_append, List.length_replicate,
    indentOf]

/-- A line is indented by as much as it was before and the spaces in front of it. -/
theorem map_indentOf_indentLines (n : Nat) (lines : List (List Char)) :
    ((indentLines n lines).filter (! isBlankText ·)).map indentOf =
      ((lines.filter (! isBlankText ·)).map indentOf).map (n + ·) := by
  induction lines with
  | nil => rfl
  | cons line lines ih =>
    rw [indentLines, List.map_cons, ← indentLines]
    cases hline : isBlankText line with
    | true => simpa [hline] using ih
    | false =>
      rw [if_neg Bool.false_ne_true]
      simp [isBlankText_replicate_append, indentOf_replicate_append, hline, ih]

/-- When a line that is not blank starts without a blank, the spaces in front are all that the lines
have in common. -/
theorem commonIndent_indentLines (n : Nat) {lines : List (List Char)} {line : List Char}
    (hline : line ∈ lines) (hsolid : isBlankText line = false) (hstart : indentOf line = 0) :
    commonIndent (indentLines n lines) = n := by
  -- The line without an indent is now indented by `n`, and no other line by less.
  have hkept : line ∈ lines.filter (! isBlankText ·) :=
    List.mem_filter.mpr ⟨hline, by rw [hsolid]; rfl⟩
  have hmem : n ∈ ((lines.filter (! isBlankText ·)).map indentOf).map (n + ·) :=
    List.mem_map.mpr ⟨0, List.mem_map.mpr ⟨line, hkept, hstart⟩, rfl⟩
  rw [commonIndent, map_indentOf_indentLines]
  have hmin : (((lines.filter (! isBlankText ·)).map indentOf).map (n + ·)).min? = some n := by
    refine List.min?_eq_some_iff.mpr ⟨hmem, fun m hm => ?_⟩
    obtain ⟨k, -, rfl⟩ := List.mem_map.mp hm
    exact Nat.le_add_right n k
  rw [hmin, Option.getD_some]

/-- **Stripping undoes indenting** when blank lines are empty and a line that is not blank, if there
is one, starts without a blank. -/
theorem stripIndent_indentLines (n : Nat) {lines : List (List Char)}
    (hblank : ∀ line ∈ lines, isBlankText line = true → line = [])
    (hflush : (∃ line ∈ lines, isBlankText line = false) →
      ∃ line ∈ lines, isBlankText line = false ∧ indentOf line = 0) :
    stripIndent (indentLines n lines) = lines := by
  rw [stripIndent, indentLines, List.map_map, ← indentLines]
  refine (List.map_congr_left fun line hline => ?_).trans (List.map_id lines)
  rw [Function.comp_apply, id]
  cases hsolid : isBlankText line with
  | true =>
    obtain rfl := hblank line hline hsolid
    rfl
  | false =>
    obtain ⟨flush, hmem, hflush, hstart⟩ := hflush ⟨line, hline, hsolid⟩
    rw [if_neg Bool.false_ne_true, isBlankText_replicate_append, hsolid, if_neg Bool.false_ne_true,
      commonIndent_indentLines n hmem hflush hstart]
    exact List.drop_left' (List.length_replicate ..)

end Text

namespace Lexer

/-! ## What a heredoc is made of -/

/-- A marker is made of ASCII letters, digits and underscores, at least one of them. -/
def IsMarker (marker : List Char) : Prop := marker ≠ [] ∧ ∀ c ∈ marker, continuesMarker c = true

/-- A line that a heredoc with this marker can hold as it is. -/
structure HeldBy (marker line : List Char) : Prop where
  /-- It is one line. -/
  newline : '\n' ∉ line
  /-- It does not end with a carriage return. -/
  carriage : line.getLast? ≠ some '\r'
  /-- It is not the marker with blanks around it. -/
  closes : Text.trimChars line ≠ marker

/-- Lines with the newlines that end them. -/
def terminated (lines : List (List Char)) : List Char := lines.flatMap (· ++ ['\n'])

/-- A heredoc as it stands in a source: `mark` is empty or asks to strip, and `indent` stands before
the marker on the closing line. -/
def heredocSource (mark marker : List Char) (lines : List (List Char)) (indent : List Char) :
    List Char :=
  '<' :: '<' :: (mark ++ (marker ++ '\n' :: (terminated lines ++ (indent ++ marker))))

/-- No blank continues a marker. -/
theorem isBlank_of_continuesMarker {c : Char} (h : continuesMarker c = true) :
    Text.isBlank c = false := by
  -- The ASCII blanks come before all digits, letters and underscores, and the others far behind.
  have hascii : 48 ≤ c.toNat ∧ c.toNat ≤ 122 := by
    rcases (Bool.or_eq_true _ _).mp h with halphanum | hunderscore
    · rcases (Bool.or_eq_true _ _).mp halphanum with hletter | hdigit
      · rcases (Bool.or_eq_true _ _).mp hletter with hupper | hlower
        · have hrange : 65 ≤ c.toNat ∧ c.toNat ≤ 90 := of_decide_eq_true hupper
          omega
        · obtain ⟨hlow, hhigh⟩ := (Bool.and_eq_true _ _).mp hlower
          have hrange : 97 ≤ c.toNat ∧ c.toNat ≤ 122 :=
            ⟨of_decide_eq_true hlow, of_decide_eq_true hhigh⟩
          omega
      · obtain ⟨hlow, hhigh⟩ := (Bool.and_eq_true _ _).mp hdigit
        have hrange : 48 ≤ c.toNat ∧ c.toNat ≤ 57 :=
          ⟨of_decide_eq_true hlow, of_decide_eq_true hhigh⟩
        omega
    · rw [beq_iff_eq.mp hunderscore]
      decide
  simp only [Text.isBlank, Text.blankRanges, List.any_cons, List.any_nil, Bool.or_false,
    Bool.or_eq_false_iff, Bool.and_eq_false_iff, decide_eq_false_iff_not]
  omega

section

variable {marker indent : List Char} (hmarker : IsMarker marker)
include hmarker

/-- A marker has no blanks. -/
theorem IsMarker.isBlank_eq_false : ∀ c ∈ marker, Text.isBlank c = false :=
  fun c hc => isBlank_of_continuesMarker (hmarker.2 c hc)

/-- The characters of a marker are other ones than the blanks. -/
theorem IsMarker.ne_blank {c : Char} (hc : c ∈ marker) {blank : Char}
    (hblank : Text.isBlank blank = true) : c ≠ blank := by
  rintro rfl
  rw [hmarker.isBlank_eq_false c hc] at hblank
  exact Bool.noConfusion hblank

/-- The closing line holds no newline. -/
theorem IsMarker.newline_notMem (hindent : '\n' ∉ indent) : '\n' ∉ indent ++ marker := fun hm =>
  (List.mem_append.mp hm).elim hindent fun hm => hmarker.ne_blank hm (by decide) rfl

/-- The closing line is recognised. -/
theorem IsMarker.closes (hindent : ∀ c ∈ indent, Text.isBlank c = true) :
    Text.trimChars (Text.dropReturn (indent ++ marker)) = marker := by
  -- The line ends with a character of the marker.
  have hlast : (indent ++ marker).getLast? ≠ some '\r' := by
    rw [List.getLast?_append, List.getLast?_eq_some_getLast hmarker.1, Option.some_or,
      ← List.getLast?_eq_some_getLast]
    exact fun heq => hmarker.ne_blank (List.mem_of_getLast? heq) (by decide) rfl
  rw [Text.dropReturn, if_neg hlast, Text.trimChars_append hindent,
    Text.trimChars_solid hmarker.isBlank_eq_false]

/-- The lines of a heredoc are read up to the closing one. -/
theorem IsMarker.heredocLines_eq (hblank : ∀ c ∈ indent, Text.isBlank c = true)
    (hindent : '\n' ∉ indent) {lines : List (List Char)}
    (hlines : ∀ line ∈ lines, HeldBy marker line) :
    heredocLines marker ('\n' :: (terminated lines ++ (indent ++ marker))) =
      some (lines, ('\n' :: (terminated lines ++ (indent ++ marker))).length) := by
  induction lines with
  | nil =>
    have hclosing := heredocLines_line marker '\n' (hmarker.newline_notMem hindent) endsLine_nil
    rw [List.append_nil, if_pos (hmarker.closes hblank)] at hclosing
    exact hclosing
  | cons line lines ih =>
    obtain ⟨hline, hlines⟩ := List.forall_mem_cons.mp hlines
    have hsplit : terminated (line :: lines) ++ (indent ++ marker) =
        line ++ '\n' :: (terminated lines ++ (indent ++ marker)) := by
      rw [terminated, List.flatMap_cons, List.append_assoc, List.append_assoc]
      rfl
    have hkept : Text.dropReturn line = line := if_neg hline.carriage
    rw [hsplit, heredocLines_line marker '\n' hline.newline (endsLine_newline _), hkept,
      if_neg hline.closes, ih hlines, Option.map_some]
    simp only [Option.some.injEq, Prod.mk.injEq, List.length_cons, List.length_append, true_and]
    omega

/-- What follows the opening `<<` of a heredoc and its mark is one token up to its end. -/
theorem IsMarker.heredocBody_eq (strips : Bool) (hblank : ∀ c ∈ indent, Text.isBlank c = true)
    (hindent : '\n' ∉ indent) {lines : List (List Char)}
    (hlines : ∀ line ∈ lines, HeldBy marker line) :
    heredocBody strips (marker ++ '\n' :: (terminated lines ++ (indent ++ marker))) =
      some (.token (.text (String.ofList (Text.joinLines
          (if strips then Text.stripIndent lines else lines)))),
        (marker ++ '\n' :: (terminated lines ++ (indent ++ marker))).length) := by
  have hnewline : '\n' ∉ marker := fun hm => hmarker.ne_blank hm (by decide) rfl
  have hrun : marker.takeWhile continuesMarker = marker :=
    List.takeWhile_eq_self_iff.mpr hmarker.2
  have hsome : marker.isEmpty ≠ true := fun hempty => hmarker.1 (List.isEmpty_iff.mp hempty)
  rw [heredocBody_line strips hnewline (endsLine_newline _), hrun, if_neg hsome,
    hmarker.heredocLines_eq hblank hindent hlines, List.length_append]

end

/-! ## The scan of a heredoc -/

/-- Behind `<` a heredoc is tried first. -/
theorem front_heredoc {cs : List Char} {piece : Piece} {n : Nat}
    (h : heredoc? cs = some (piece, n)) : front '<' cs = (piece, n) := by
  apply Option.some.inj
  rw [front_solid (by decide) rfl, solidFront, if_neg (by decide), Option.none_or, if_pos rfl, h,
    Option.some_or]

/-- A source that is one token from `<` on. -/
theorem alone_heredoc {cs : List Char} {t : Token}
    (h : heredoc? cs = some (.token t, cs.length)) : Alone t ('<' :: cs) := by
  have halone := alone_of_front (front_heredoc h)
  rwa [List.take_length] at halone

/-- The spaces in front of its lines do not change what a heredoc can hold. -/
theorem HeldBy.indentLines {marker : List Char} {lines : List (List Char)}
    (h : ∀ line ∈ lines, HeldBy marker line) (n : Nat) :
    ∀ line ∈ Text.indentLines n lines, HeldBy marker line := by
  intro written hwritten
  obtain ⟨line, hline, rfl⟩ := List.mem_map.mp hwritten
  obtain ⟨hnewline, hcarriage, hcloses⟩ := h line hline
  have hspaces : ∀ c ∈ List.replicate n ' ', c = ' ' := fun c hc => List.eq_of_mem_replicate hc
  cases hsolid : Text.isBlankText line with
  | true => exact h line hline
  | false =>
    rw [if_neg Bool.false_ne_true]
    have hne : line ≠ [] := by
      rintro rfl
      exact absurd hsolid (by decide)
    refine ⟨fun hm => ?_, ?_, ?_⟩
    · rcases List.mem_append.mp hm with hm | hm
      · exact absurd (hspaces _ hm) (by decide)
      · exact hnewline hm
    · rwa [List.getLast?_append, List.getLast?_eq_some_getLast hne, Option.some_or,
        ← List.getLast?_eq_some_getLast]
    · rwa [Text.trimChars_append fun c hc => hspaces c hc ▸ rfl]

/-- **Heredocs are read back.** Lines between an opening line and a closing one are a single token
and no problem: the lines joined by newlines. With a mark that asks to strip, this holds of lines
that have been written further in, provided that blank ones are empty and one of the others starts
without a blank. -/
theorem scan_heredoc {marker : List Char} (hmarker : IsMarker marker) {lines : List (List Char)}
    (hlines : ∀ line ∈ lines, HeldBy marker line) {indent : List Char}
    (hblank : ∀ c ∈ indent, Text.isBlank c = true) (hindent : '\n' ∉ indent) :
    Alone (.text (String.ofList (Text.joinLines lines))) (heredocSource [] marker lines indent) ∧
    ((∀ line ∈ lines, Text.isBlankText line = true → line = []) →
      ((∃ line ∈ lines, Text.isBlankText line = false) →
        ∃ line ∈ lines, ∃ c ∈ line.head?, Text.isBlank c = false) →
      ∀ mark, asksToStrip mark = true → ∀ n,
        Alone (.text (String.ofList (Text.joinLines lines)))
          (heredocSource [mark] marker (Text.indentLines n lines) indent)) := by
  constructor
  · -- No character of a marker is taken for the mark.
    have hkeeps : ∀ c ∈ (marker ++ '\n' :: (terminated lines ++ (indent ++ marker))).head?,
        asksToStrip c = false := by
      intro c hc
      rw [List.head?_append, List.head?_eq_some_head hmarker.1, Option.some_or] at hc
      have hcontinues := hmarker.2 c (Option.some.inj hc ▸ List.head_mem hmarker.1)
      cases hmark : asksToStrip c with
      | false => rfl
      | true =>
        rcases Bool.or_eq_true_iff.mp hmark with heq | heq
        all_goals
          obtain rfl := beq_iff_eq.mp heq
          exact absurd hcontinues (by decide)
    apply alone_heredoc
    rw [List.nil_append, heredoc?_keeps hkeeps, hmarker.heredocBody_eq false hblank hindent hlines]
    rfl
  · intro hempty hflush mark hmark n
    -- What was put in front of the lines is the indentation that all of them have.
    have hstripped : Text.stripIndent (Text.indentLines n lines) = lines := by
      refine Text.stripIndent_indentLines n hempty fun hsome => ?_
      obtain ⟨line, hline, c, hc, hsolid⟩ := hflush hsome
      cases line with
      | nil => exact nomatch hc
      | cons d line =>
        obtain rfl : d = c := Option.some.inj hc
        refine ⟨d :: line, hline, ?_, ?_⟩
        · rw [Text.isBlankText, List.all_cons, hsolid, Bool.false_and]
        · rw [Text.indentOf, List.takeWhile_cons_of_neg (by rw [hsolid]; exact Bool.false_ne_true)]
          rfl
    apply alone_heredoc
    rw [List.singleton_append, heredoc?_strips hmark,
      hmarker.heredocBody_eq true hblank hindent (HeldBy.indentLines hlines n), if_pos rfl,
      hstripped]
    rfl

/-- An empty line, one further in than the others and one with the marker in it. -/
def mixedLines : List (List Char) := [[' ', ' ', 'a'], [], ['b', ' '], ['E', '1', ' ', '~']]

/-- Written four spaces further in, with a tab before the closing marker, they are the token that
they are without the spaces. -/
theorem scan_heredoc_mixed :
    IsMarker ['E', '1'] ∧ (∀ line ∈ mixedLines, HeldBy ['E', '1'] line) ∧
      Alone (.text "  a\n\nb \nE1 ~") "<<E1\n  a\n\nb \nE1 ~\n\tE1".toList ∧
      Alone (.text "  a\n\nb \nE1 ~")
        "<<~E1\n      a\n\n    b \n    E1 ~\n\tE1".toList := by
  have hmarker : IsMarker ['E', '1'] := ⟨List.cons_ne_nil _ _, List.all_eq_true.mp rfl⟩
  have hlines : ∀ line ∈ mixedLines, HeldBy ['E', '1'] line := by
    have hheld : ∀ line ∈ mixedLines,
        '\n' ∉ line ∧ line.getLast? ≠ some '\r' ∧ Text.trimChars line ≠ ['E', '1'] := by decide
    exact fun line hline => ⟨(hheld line hline).1, (hheld line hline).2.1, (hheld line hline).2.2⟩
  have htab : ∀ c ∈ ['\t'], Text.isBlank c = true := List.all_eq_true.mp rfl
  obtain ⟨hplain, hstripped⟩ := scan_heredoc hmarker hlines htab (by decide)
  have hempty : ∀ line ∈ mixedLines, Text.isBlankText line = true → line = [] := by decide
  have hflush : ∃ line ∈ mixedLines, ∃ c ∈ line.head?, Text.isBlank c = false :=
    ⟨['b', ' '], by decide, 'b', rfl, by decide⟩
  exact ⟨hmarker, hlines, hplain, hstripped hempty (fun _ => hflush) '~' rfl 4⟩

end Lexer

end Flowchart
