import Flowchart.Proofs.Token.Locality

/-!
# The readers of the lexer are local

One section each for quoted texts, heredocs, numbers and names. A reader that works line by line or
run by run has an equation for a text that is cut there (`heredocLines_line`, `heredocBody_line`,
`numeral_run`), and its locality is read off that equation.
-/

namespace Flowchart.Lexer

/-! ## Quoted texts -/

/-- A closed quotation with one more character in front has this character before its value. -/
theorem Quoted.push_eq_closed {c : Char} {n length : Nat} {q : Quoted} {value : List Char} :
    q.push c n = .closed value length ↔
      ∃ inner rest, q = .closed inner rest ∧ value = c :: inner ∧ length = n + rest := by
  cases q with
  | closed inner rest =>
    rw [Quoted.push, Quoted.closed.injEq]
    constructor
    · rintro ⟨rfl, rfl⟩
      exact ⟨inner, rest, rfl, rfl, rfl⟩
    · rintro ⟨_, _, heq, rfl, rfl⟩
      obtain ⟨rfl, rfl⟩ := Quoted.closed.inj heq
      exact ⟨rfl, rfl⟩
  | unclosed => exact ⟨nofun, fun ⟨_, _, heq, _⟩ => nomatch heq⟩
  | brokenEscape => exact ⟨nofun, fun ⟨_, _, heq, _⟩ => nomatch heq⟩

/-- Without a backslash, a character closes the text or belongs to it. -/
theorem quoted_cons {quote c : Char} (hc : c ≠ '\\') (cs : List Char) :
    quoted quote (c :: cs) = if c = quote then .closed [] 1 else (quoted quote cs).push c 1 := by
  rw [quoted]
  · exact fun heq => absurd heq hc
  · exact fun _ _ heq => absurd heq hc

/-- A character that begins no escape is not a backslash. -/
theorem ne_backslash {c : Char} {cs : List Char} (hlast : c = '\\' → cs = [] → False)
    (hmore : ∀ d ds, c = '\\' → cs = d :: ds → False) : c ≠ '\\' := by
  intro heq
  cases cs with
  | nil => exact hlast heq rfl
  | cons d ds => exact hmore d ds heq rfl

/-- A text that is closed is read the same whatever follows it. -/
theorem quoted_take {quote : Char} {cs value : List Char} {length : Nat}
    (h : quoted quote cs = .closed value length) (t : List Char) :
    quoted quote (cs.take length ++ t) = .closed value length := by
  fun_induction quoted quote cs generalizing value length with
  | case1 => exact nomatch h
  | case2 => exact nomatch h
  | case3 c cs ih =>
    obtain ⟨inner, rest, hcs, rfl, rfl⟩ := Quoted.push_eq_closed.mp h
    rw [Nat.add_comm 2 rest]
    show quoted quote ('\\' :: c :: (cs.take rest ++ t)) = _
    rw [quoted, ih hcs, Quoted.push, Nat.add_comm rest 2]
  | case4 cs hlast hmore =>
    obtain ⟨rfl, rfl⟩ := Quoted.closed.inj h
    rw [List.take_succ_cons, List.cons_append, quoted_cons (ne_backslash hlast hmore), if_pos rfl]
  | case5 c cs hlast hmore hne ih =>
    obtain ⟨inner, rest, hcs, rfl, rfl⟩ := Quoted.push_eq_closed.mp h
    rw [Nat.add_comm 1 rest, List.take_succ_cons, List.cons_append,
      quoted_cons (ne_backslash hlast hmore), if_neg hne, ih hcs, Quoted.push, Nat.add_comm rest 1]

/-- A text that is closed has no more characters than there are. -/
theorem quoted_length_le {quote : Char} {cs value : List Char} {length : Nat}
    (h : quoted quote cs = .closed value length) : length ≤ cs.length := by
  fun_induction quoted quote cs generalizing value length with
  | case1 => exact nomatch h
  | case2 => exact nomatch h
  | case3 c cs ih =>
    obtain ⟨inner, rest, hcs, rfl, rfl⟩ := Quoted.push_eq_closed.mp h
    have := ih hcs
    simp only [List.length_cons]
    omega
  | case4 =>
    obtain ⟨rfl, rfl⟩ := Quoted.closed.inj h
    exact Nat.le_add_left 1 _
  | case5 c cs _ _ _ ih =>
    obtain ⟨inner, rest, hcs, rfl, rfl⟩ := Quoted.push_eq_closed.mp h
    have := ih hcs
    simp only [List.length_cons]
    omega

/-- The piece behind an opening quote. -/
def quotation (quote : Char) (cs : List Char) : Piece × Nat :=
  match quoted quote cs with
  | .closed value length => (.token (.text (String.ofList value)), length)
  | .unclosed => (.fault (.unterminatedString quote), cs.length)
  | .brokenEscape => (.fault .unterminatedEscape, cs.length)

/-- A quotation depends on no text behind the quote that closes it. -/
theorem local_quotation (quote : Char) : Reader.Local fun cs => some (quotation quote cs) where
  fits cs piece n h := by
    rw [quotation] at h
    cases hq : quoted quote cs with
    | closed value length => rw [hq] at h; cases h; exact ⟨nofun, quoted_length_le hq⟩
    | unclosed => rw [hq] at h; cases h; exact ⟨Nat.le_refl _, fun _ => rfl⟩
    | brokenEscape => rw [hq] at h; cases h; exact ⟨Nat.le_refl _, fun _ => rfl⟩
  token_take cs t n h := by
    rw [quotation] at h
    cases hq : quoted quote cs with
    | closed value length =>
      rw [hq] at h
      cases h
      -- What is closed is read from the characters up to the quote.
      have htake := quoted_take hq []
      rw [List.append_nil] at htake
      rw [quotation, htake]
    | unclosed => rw [hq] at h; cases h
    | brokenEscape => rw [hq] at h; cases h
  none_take _ _ h := nomatch h
  append cs t _ h := by
    cases hq : quoted quote cs with
    | closed value length =>
      have hmore := quoted_take hq (cs.drop length ++ t)
      rw [← List.append_assoc, List.take_append_drop] at hmore
      rw [quotation, quotation, hq, hmore]
    -- What is left open is excluded.
    | unclosed =>
      exact Bool.noConfusion (h (.unterminatedString quote) cs.length (by rw [quotation, hq]))
    | brokenEscape =>
      exact Bool.noConfusion (h .unterminatedEscape cs.length (by rw [quotation, hq]))

/-! ## Heredocs -/

/-- What is read of the lines behind the opening line, line by line. -/
theorem heredocLines_line (marker : List Char) (c : Char) {line rest : List Char}
    (hline : '\n' ∉ line) (hrest : EndsLine rest) :
    heredocLines marker (c :: (line ++ rest)) =
      if Text.trimChars (Text.dropReturn line) = marker then some ([], line.length + 1)
      else (heredocLines marker rest).map fun (lines, length) =>
        (Text.dropReturn line :: lines, length + (line.length + 1)) := by
  rw [heredocLines, takeWhile_line hline hrest, List.drop_left]
  split
  · rfl
  · cases heredocLines marker rest <;> rfl

/-- A text behind the end of a line is used up line by line. -/
theorem lines_induction {motive : List Char → Prop} (nil : motive [])
    (line : ∀ c line rest, '\n' ∉ line → EndsLine rest → motive rest →
      motive (c :: (line ++ rest))) (cs : List Char) : motive cs := by
  induction hlength : cs.length using Nat.strong_induction_on generalizing cs with
  | _ n ih =>
    cases cs with
    | nil => exact nil
    | cons c cs =>
      obtain ⟨front, rest, rfl, hfront, hrest⟩ := exists_line cs
      have hlt : rest.length < n := by
        rw [← hlength, List.length_cons, List.length_append]
        omega
      exact line c front rest hfront hrest (ih _ hlt rest rfl)

/-- The lines up to the closing one are the same by themselves. -/
theorem heredocLines_take {marker cs : List Char} {lines : List (List Char)} {length : Nat}
    (h : heredocLines marker cs = some (lines, length)) :
    heredocLines marker (cs.take length) = some (lines, length) := by
  induction cs using lines_induction generalizing lines length with
  | nil => rw [List.take_nil, h]
  | line c line rest hline hrest ih =>
    rw [heredocLines_line marker c hline hrest] at h
    split at h
    · -- The closing line is the last, so that it ends where the text is cut.
      rename_i hcloses
      obtain ⟨rfl, rfl⟩ := Prod.mk.inj (Option.some.inj h)
      have halone := heredocLines_line marker c hline endsLine_nil
      rw [List.append_nil, if_pos hcloses] at halone
      rw [List.take_succ_cons, List.take_left, halone]
    · rename_i hopen
      obtain ⟨⟨lines, length⟩, hlines, heq⟩ := Option.map_eq_some_iff.mp h
      obtain ⟨rfl, rfl⟩ := Prod.mk.inj heq
      have htake : (c :: (line ++ rest)).take (length + (line.length + 1)) =
          c :: (line ++ rest.take length) := by
        rw [← Nat.add_assoc, List.take_succ_cons, Nat.add_comm length,
          List.take_length_add_append]
      rw [htake, heredocLines_line marker c hline (head?_take hrest length), if_neg hopen, ih hlines,
        Option.map_some]

/-- The lines up to the closing one have no more characters than there are. -/
theorem heredocLines_length_le {marker cs : List Char} {lines : List (List Char)} {length : Nat}
    (h : heredocLines marker cs = some (lines, length)) : length ≤ cs.length := by
  induction cs using lines_induction generalizing lines length with
  | nil =>
    rw [heredocLines] at h
    cases h
  | line c line rest hline hrest ih =>
    rw [heredocLines_line marker c hline hrest] at h
    simp only [List.length_cons, List.length_append]
    split at h
    · cases h
      omega
    · obtain ⟨⟨lines, length⟩, hlines, heq⟩ := Option.map_eq_some_iff.mp h
      cases heq
      have := ih hlines
      omega

/-- Lines behind the closing one have no part in the heredoc. -/
theorem heredocLines_append {marker cs t : List Char} (ht : EndsLine t)
    (h : heredocLines marker cs ≠ none) :
    heredocLines marker (cs ++ t) = heredocLines marker cs := by
  induction cs using lines_induction with
  | nil => exact absurd (heredocLines.eq_1 marker) h
  | line c line rest hline hrest ih =>
    rw [heredocLines_line marker c hline hrest] at h ⊢
    rw [List.cons_append, List.append_assoc, heredocLines_line marker c hline (head?_append hrest ht)]
    split
    · rfl
    · rename_i hopen
      rw [if_neg hopen] at h
      rw [ih fun hnone => h (by rw [hnone, Option.map_none])]

/-- The mark behind `<<` that asks to strip the indentation. -/
def asksToStrip (c : Char) : Bool := c == '-' || c == '~'

/-- Reads a heredoc from its marker on. -/
def heredocBody (strips : Bool) : Reader := fun cs =>
  let marker := cs.takeWhile continuesMarker
  let line := cs.takeWhile (· != '\n')
  if marker.isEmpty then none
  else
    match heredocLines marker (cs.drop line.length) with
    | none => some (.fault (.unterminatedHeredoc (String.ofList marker)), cs.length)
    | some (lines, length) =>
      let content := if strips then Text.stripIndent lines else lines
      some (.token (.text (String.ofList (Text.joinLines content))), line.length + length)

/-- The body of a heredoc in terms of the opening line and the lines behind it. -/
theorem heredocBody_line (strips : Bool) {line rest : List Char} (hline : '\n' ∉ line)
    (hrest : EndsLine rest) :
    heredocBody strips (line ++ rest) =
      if (line.takeWhile continuesMarker).isEmpty then none
      else
        match heredocLines (line.takeWhile continuesMarker) rest with
        | none =>
          some (.fault (.unterminatedHeredoc (String.ofList (line.takeWhile continuesMarker))),
            (line ++ rest).length)
        | some (lines, length) =>
          some (.token (.text (String.ofList (Text.joinLines
            (if strips then Text.stripIndent lines else lines)))), line.length + length) := by
  rw [heredocBody, takeWhile_append rfl line hrest, takeWhile_line hline hrest, List.drop_left]

/-- Without a marker there is no heredoc. -/
theorem heredocBody_eq_none {strips : Bool} {cs : List Char} :
    heredocBody strips cs = none ↔ (cs.takeWhile continuesMarker).isEmpty = true := by
  rw [heredocBody]
  constructor
  · intro h
    by_contra hmarker
    rw [if_neg hmarker] at h
    split at h <;> cases h
  · exact fun hmarker => if_pos hmarker

/-- A heredoc depends on no text behind the line of the marker that closes it. -/
theorem local_heredocBody (strips : Bool) : (heredocBody strips).Local where
  fits cs piece n h := by
    -- A heredoc is the line of the marker and the lines up to the one that closes it.
    obtain ⟨line, rest, rfl, hline, hrest⟩ := exists_line cs
    rw [heredocBody_line strips hline hrest] at h
    split at h
    · cases h
    split at h
    · cases h
      exact ⟨Nat.le_refl _, fun _ => rfl⟩
    · rename_i hlines
      cases h
      refine ⟨nofun, ?_⟩
      rw [List.length_append]
      exact Nat.add_le_add_left (heredocLines_length_le hlines) _
  token_take cs t n h := by
    obtain ⟨line, rest, rfl, hline, hrest⟩ := exists_line cs
    rw [heredocBody_line strips hline hrest] at h
    split at h
    · cases h
    rename_i hmarker
    split at h
    · cases h
    rename_i lines length hlines
    cases h
    -- The line of the marker is kept whole, and the others as far as they are read.
    rw [List.take_length_add_append, heredocBody_line strips hline (head?_take hrest length),
      if_neg hmarker, heredocLines_take hlines]
  none_take cs n h := by
    rw [heredocBody_eq_none] at h ⊢
    rw [← List.take_takeWhile, List.isEmpty_iff.mp h, List.take_nil, List.isEmpty_nil]
  append cs t ht h := by
    obtain ⟨line, rest, rfl, hline, hrest⟩ := exists_line cs
    rw [List.append_assoc, heredocBody_line strips hline (head?_append hrest ht)]
    rw [heredocBody_line strips hline hrest] at h ⊢
    split
    · rfl
    rename_i hmarker
    rw [if_neg hmarker] at h
    cases hlines : heredocLines (line.takeWhile continuesMarker) rest with
    | none =>
      rw [hlines] at h
      exact Bool.noConfusion (h _ _ rfl)
    | some found => rw [heredocLines_append ht (by rw [hlines]; exact nofun), hlines]

/-- Without a sign that asks for it, the lines of a heredoc keep their indentation. -/
theorem heredoc?_keeps {cs : List Char} (h : ∀ c ∈ cs.head?, asksToStrip c = false) :
    heredoc? ('<' :: cs) = (heredocBody false cs).map fun found => (found.1, found.2 + 1) := by
  have hstrips : (cs.head? == some '-' || cs.head? == some '~') = false := by
    cases cs with
    | nil => rfl
    | cons c cs => exact h c rfl
  rw [heredoc?, hstrips, heredocBody]
  simp only [Bool.false_eq_true, if_false, Nat.add_sub_cancel]
  split
  · rfl
  · cases heredocLines (cs.takeWhile continuesMarker)
        (cs.drop (cs.takeWhile (· != '\n')).length) with
    | none => rfl
    | some found => rw [Option.map_some, Nat.add_right_comm]

/-- Behind a sign that asks for it, the lines of a heredoc lose what they have in common. -/
theorem heredoc?_strips {c : Char} (hc : asksToStrip c = true) (cs : List Char) :
    heredoc? ('<' :: c :: cs) = (heredocBody true cs).map fun found => (found.1, found.2 + 2) := by
  have hstrips : ((c :: cs).head? == some '-' || (c :: cs).head? == some '~') = true := hc
  have hdrop (n : Nat) : (c :: cs).drop (n + 2 - 1) = cs.drop n := rfl
  rw [heredoc?, hstrips, heredocBody]
  simp only [if_true, List.drop_succ_cons, List.drop_zero, hdrop]
  split
  · rfl
  · cases heredocLines (cs.takeWhile continuesMarker)
        (cs.drop (cs.takeWhile (· != '\n')).length) with
    | none => rfl
    | some found => rw [Option.map_some, Nat.add_right_comm]

/-- The mark starts no marker. -/
theorem heredocBody_asksToStrip {c : Char} (hc : asksToStrip c = true) (cs : List Char) :
    heredocBody false (c :: cs) = none := by
  have hmark : continuesMarker c = false := by
    rcases Bool.or_eq_true_iff.mp hc with heq | heq
    · obtain rfl := beq_iff_eq.mp heq
      rfl
    · obtain rfl := beq_iff_eq.mp heq
      rfl
  rw [heredocBody_eq_none, List.takeWhile_cons_of_neg (by rw [hmark]; exact Bool.false_ne_true)]
  rfl

/-- A heredoc is `<<`, perhaps the mark that asks to strip, and the body. -/
theorem heredoc?_eq :
    heredoc? = Reader.behind (· == '<') fun cs =>
      (Reader.behind asksToStrip (heredocBody true) cs).or (heredocBody false cs) := by
  funext cs
  cases cs with
  | nil => rfl
  | cons c cs =>
    by_cases hc : c = '<'
    · subst hc
      rw [Reader.behind_cons rfl]
      cases cs with
      | nil => rfl
      | cons c cs =>
        by_cases hc : asksToStrip c = true
        · rw [heredoc?_strips hc, Reader.behind_cons hc, heredocBody_asksToStrip hc,
            Option.or_none, Option.map_map]
          rfl
        · have hkeeps : ∀ d ∈ (c :: cs).head?, asksToStrip d = false := by
            intro d hd
            obtain rfl : c = d := Option.some.inj hd
            exact Bool.eq_false_iff.mpr hc
          rw [heredoc?_keeps hkeeps, Reader.behind, if_neg hc, Option.none_or]
    · rw [Reader.behind, if_neg (by simpa using hc), heredoc?]
      exact fun _ heq => hc (List.cons.inj heq).1

/-- Both forms of a heredoc depend on no text behind it. -/
theorem local_heredoc : Reader.Local heredoc? := by
  rw [heredoc?_eq]
  exact (((local_heredocBody true).behind rfl).orElse (local_heredocBody false)).behind rfl

/-! ## Numbers -/

/-- The digits behind a point. -/
def fractionOf : List Char → List Char
  | '.' :: cs => cs.takeWhile Char.isDigit
  | _ => []

/-- The characters of a fraction, its point included; a point alone is none. -/
def fractionLength (fraction : List Char) : Nat :=
  if fraction.isEmpty then 0 else fraction.length + 1

/-- Without a point there is no fraction. -/
theorem fractionOf_ne {c : Char} (hc : c ≠ '.') (cs : List Char) : fractionOf (c :: cs) = [] := by
  rw [fractionOf]
  exact fun _ heq => hc (List.cons.inj heq).1

/-- A fraction ends at the latest with its line. -/
theorem fractionOf_append (cs : List Char) {t : List Char} (ht : EndsLine t) :
    fractionOf (cs ++ t) = fractionOf cs := by
  cases cs with
  | nil =>
    cases t with
    | nil => rfl
    | cons c t =>
      obtain rfl : c = '\n' := ht c rfl
      rfl
  | cons c cs =>
    by_cases hc : c = '.'
    · subst hc
      exact takeWhile_append rfl cs ht
    · rw [List.cons_append, fractionOf_ne hc, fractionOf_ne hc]

/-- A fraction is read from its own characters alone. -/
theorem fractionOf_take (cs : List Char) :
    fractionOf (cs.take (fractionLength (fractionOf cs))) = fractionOf cs := by
  cases cs with
  | nil => rw [List.take_nil]
  | cons c cs =>
    by_cases hc : c = '.'
    · subst hc
      show fractionOf (('.' :: cs).take (fractionLength (cs.takeWhile Char.isDigit))) =
        cs.takeWhile Char.isDigit
      rw [fractionLength]
      split
      · rename_i hempty
        exact (List.isEmpty_iff.mp hempty).symm
      · exact takeWhile_take (Nat.le_refl _)
    · rw [fractionOf_ne hc]
      rfl

/-- A fraction is no longer than the text it is read from. -/
theorem fractionLength_le (cs : List Char) : fractionLength (fractionOf cs) ≤ cs.length := by
  rw [fractionLength]
  split
  · exact Nat.zero_le _
  · rename_i hsome
    cases cs with
    | nil => exact absurd rfl hsome
    | cons c cs =>
      by_cases hc : c = '.'
      · subst hc
        exact Nat.succ_le_succ (List.takeWhile_prefix _).length_le
      · rw [fractionOf_ne hc] at hsome
        exact absurd rfl hsome

/-- The piece that a number is, in a text that starts with its first digit. -/
def numeral (negative : Bool) : Reader := fun cs =>
  (unsigned? negative cs).map fun (x, n) => (.token (.number x), n)

/-- A number is the digits in front and the fraction behind them. -/
theorem numeral_run (negative : Bool) {whole tail : List Char}
    (hwhole : ∀ c ∈ whole, c.isDigit = true) (htail : ∀ c ∈ tail.head?, c.isDigit = false) :
    numeral negative (whole ++ tail) =
      if whole.isEmpty then none
      else
        some (.token (.number (Decimal.toFloat negative whole (fractionOf tail) 0)),
          whole.length + fractionLength (fractionOf tail)) := by
  rw [numeral, unsigned?, takeWhile_run hwhole htail, List.drop_left]
  dsimp only
  split
  · rfl
  -- Only a point can begin a fraction, and without digits behind it the number ends before it.
  cases tail with
  | nil => rfl
  | cons c tail =>
    by_cases hc : c = '.'
    · subst hc
      simp only [fractionOf, fractionLength]
      split
      · rename_i hempty
        rw [List.isEmpty_iff.mp hempty]
        rfl
      · rw [Option.map_some, Nat.add_assoc, Nat.add_comm 1]
    · rw [fractionOf_ne hc]
      split
      · rename_i heq
        exact absurd (List.cons.inj heq).1 hc
      · rfl

/-- A numeral depends on no text behind its line. -/
theorem local_numeral (negative : Bool) : (numeral negative).Local where
  fits cs piece n h := by
    -- A number is a run of digits, and perhaps a fraction behind it.
    obtain ⟨whole, tail, rfl, hwhole, htail⟩ := exists_run Char.isDigit cs
    rw [numeral_run negative hwhole htail] at h
    split at h
    · cases h
    cases h
    refine ⟨nofun, ?_⟩
    rw [List.length_append]
    exact Nat.add_le_add_left (fractionLength_le tail) _
  token_take cs t n h := by
    obtain ⟨whole, tail, rfl, hwhole, htail⟩ := exists_run Char.isDigit cs
    rw [numeral_run negative hwhole htail] at h
    split at h
    · cases h
    rename_i hsome
    cases h
    rw [List.take_length_add_append, numeral_run negative hwhole (head?_take htail _),
      if_neg hsome, fractionOf_take]
  none_take cs n h := by
    obtain ⟨whole, tail, rfl, hwhole, htail⟩ := exists_run Char.isDigit cs
    rw [numeral_run negative hwhole htail] at h
    split at h
    · rename_i hempty
      obtain rfl := List.isEmpty_iff.mp hempty
      exact numeral_run negative hwhole (head?_take htail n)
    · cases h
  append cs t ht _ := by
    obtain ⟨whole, tail, rfl, hwhole, htail⟩ := exists_run Char.isDigit cs
    rw [List.append_assoc, numeral_run negative hwhole (head?_append htail (ht.head? rfl)),
      numeral_run negative hwhole htail, fractionOf_append tail ht]

/-- A number takes at least one character. -/
theorem numeral_pos {negative : Bool} {cs : List Char} {piece : Piece} {n : Nat}
    (h : numeral negative cs = some (piece, n)) : 0 < n := by
  obtain ⟨whole, tail, rfl, hwhole, htail⟩ := exists_run Char.isDigit cs
  rw [numeral_run negative hwhole htail] at h
  split at h
  · cases h
  rename_i hsome
  cases h
  have : 0 < whole.length := List.length_pos_iff.mpr fun heq => hsome (by rw [heq]; rfl)
  omega

/-! ## Names -/

/-- The piece that a name is, behind its first character. -/
def word (c : Char) (cs : List Char) : Piece × Nat :=
  (.token (.name (String.ofList (c :: cs.takeWhile continuesName))),
    (cs.takeWhile continuesName).length)

/-- A word depends on no text behind its line. -/
theorem local_word (c : Char) : Reader.Local fun cs => some (word c cs) where
  fits cs piece n h := by
    cases h
    exact ⟨nofun, (List.takeWhile_prefix _).length_le⟩
  token_take cs t n h := by
    cases h
    rw [word, takeWhile_take (Nat.le_refl _)]
  none_take _ _ h := nomatch h
  append cs t ht _ := by
    rw [word, takeWhile_append rfl cs ht, word]

end Flowchart.Lexer
