import Flowchart.Proofs.Token.Scan

/-!
# Scanning texts put together

Behind a text of complete lines the scan goes on as if nothing stood before (`scanFrom_append`),
only that every place is moved. A place is moved by the place at which the text stands: its first
line goes on from that column, and every other line keeps its columns.
-/

namespace Flowchart

/-! ## Moved places -/

/-- The position `q` of a text that itself stands at a position of a longer one. -/
def Position.beyond (p q : Position) : Position :=
  if q.line = 1 then ⟨p.line, p.column + q.column - 1⟩ else ⟨p.line + q.line - 1, q.column⟩

/-- The bytes of a text that stands behind `offset` bytes of a longer one. -/
def Span.shift (offset : Nat) (s : Span) : Span :=
  ⟨s.start + offset, s.stop + offset, Nat.add_le_add_right s.start_le_stop offset⟩

namespace Lexer

/-- The place `q` of a text that itself stands at a place of a longer one. -/
def Place.beyond (p q : Place) : Place := ⟨q.offset + p.offset, p.position.beyond q.position⟩

end Lexer

/-- A lexeme of a text that stands at a place of a longer one. -/
def Lexeme.moved (p : Lexer.Place) (l : Lexeme) : Lexeme :=
  { l with span := l.span.shift p.offset, position := p.position.beyond l.position }

/-- A problem of a text that stands at a place of a longer one. -/
def LexicalProblem.moved (p : Lexer.Place) (q : LexicalProblem) : LexicalProblem :=
  { q with
    span := q.span.shift p.offset
    start := p.position.beyond q.start
    stop := p.position.beyond q.stop }

/-- Reading one more character moves with the text. -/
theorem Position.step_beyond (p : Position) {q : Position} (hline : 1 ≤ q.line)
    (hcolumn : 1 ≤ q.column) (c : Char) : (p.beyond q).step c = p.beyond (q.step c) := by
  rw [Position.step, Position.step]
  by_cases hc : c = '\n'
  · -- Behind the first newline of the text its columns are those of the longer one.
    rw [if_pos hc, if_pos hc, Position.beyond, Position.beyond]
    have hnext : ¬ q.line + 1 = 1 := by omega
    simp only [if_neg hnext]
    split
    · rename_i hfirst
      simp only [Position.mk.injEq, and_true]
      omega
    · simp only [Position.mk.injEq, and_true]
      omega
  · rw [if_neg hc, if_neg hc, Position.beyond, Position.beyond]
    simp only
    split
    · simp only [Position.mk.injEq, true_and]
      omega
    · rfl

namespace Lexer

/-- A place counts lines and columns from one. -/
def Place.Counted (p : Place) : Prop := 1 ≤ p.position.line ∧ 1 ≤ p.position.column

/-- A place counts from one behind any text. -/
theorem Place.Counted.after {p : Place} (hp : p.Counted) (cs : List Char) :
    (p.after cs).Counted := by
  induction cs generalizing p with
  | nil => exact hp
  | cons c cs ih =>
    obtain ⟨hline, hcolumn⟩ := hp
    have hstep : (p.after [c]).Counted := by
      show 1 ≤ (p.position.step c).line ∧ 1 ≤ (p.position.step c).column
      rw [Position.step]
      split
      · exact ⟨Nat.le_add_left 1 _, Nat.le_refl 1⟩
      · exact ⟨hline, Nat.le_add_left 1 _⟩
    rw [← List.singleton_append, Place.after_append]
    exact ih hstep

/-- Reading on moves with the text. -/
theorem Place.after_beyond (p : Place) {q : Place} (hq : q.Counted) (cs : List Char) :
    (p.beyond q).after cs = p.beyond (q.after cs) := by
  induction cs generalizing q with
  | nil => rfl
  | cons c cs ih =>
    have hstep : (p.beyond q).after [c] = p.beyond (q.after [c]) := by
      have hoffset : q.offset + p.offset + byteLength [c] =
          q.offset + byteLength [c] + p.offset := Nat.add_right_comm _ _ _
      have hposition := p.position.step_beyond hq.1 hq.2 c
      show (⟨q.offset + p.offset + byteLength [c], (p.position.beyond q.position).step c⟩ : Place) =
        ⟨q.offset + byteLength [c] + p.offset, p.position.beyond (q.position.step c)⟩
      rw [hoffset, hposition]
    rw [← List.singleton_append, Place.after_append, Place.after_append, hstep, ih (hq.after [c])]

/-- A span behind a text is shifted by the bytes of the text. -/
theorem between_shift (a b offset : Nat) :
    Span.between (a + offset) (b + offset) = (Span.between a b).shift offset := by
  simp only [Span.between, Span.shift, Span.mk.injEq, true_and]
  exact Nat.add_max_add_right b a offset

/-- The scan of a text that stands at a place of a longer one. -/
def Scan.moved (p : Place) (s : Scan) : Scan :=
  ⟨s.lexemes.map (Lexeme.moved p), s.problems.map (LexicalProblem.moved p)⟩

/-- **The scan moves with the text:** it looks at nothing but the characters. -/
theorem scanFrom_moved (p : Place) {q : Place} (hq : q.Counted) (cs : List Char) :
    scanFrom (p.beyond q) cs = (scanFrom q cs).moved p := by
  induction cs using scan_induction generalizing q with
  | nil =>
    rw [scanFrom_nil, scanFrom_nil]
    rfl
  | trivia gap rest hgap ih =>
    rw [scanFrom_trivia hgap, scanFrom_trivia hgap, p.after_beyond hq, ih (hq.after gap)]
  | comment body hbody =>
    rw [scanFrom_lastComment hbody, scanFrom_lastComment hbody, scanFrom_nil, scanFrom_nil,
      p.after_beyond hq]
    rfl
  | token c cs t n hfront ih =>
    rw [scanFrom_token hfront, scanFrom_token hfront, p.after_beyond hq, ih (hq.after _)]
    have hspan := between_shift q.offset (q.after (c :: cs.take n)).offset p.offset
    exact congrArg (fun s => (⟨⟨t, s, p.position.beyond q.position⟩ :: _, _⟩ : Scan)) hspan
  | fault c cs f n hfront ih =>
    rw [scanFrom_fault hfront, scanFrom_fault hfront, p.after_beyond hq, ih (hq.after _)]
    have hspan := between_shift q.offset (q.after (c :: cs.take n)).offset p.offset
    exact congrArg (fun s => (⟨_, ⟨f, s, p.position.beyond q.position, _⟩ :: _⟩ : Scan)) hspan

/-! ## Texts put together -/

/-- A scan and one of what comes behind, without the end of the source in between. -/
def Scan.join (s t : Scan) : Scan :=
  ⟨s.lexemes.filter (·.token ≠ .finish) ++ t.lexemes, s.problems ++ t.problems⟩

/-- What stands at the front of a text stands there before more text behind the line. -/
theorem front_before {c : Char} {cs t : List Char} {piece : Piece} {n : Nat}
    (h : front c cs = (piece, n)) (hpiece : piece ≠ .trivia)
    (hclosed : ∀ f, piece = .fault f → f.isOpen = false) (ht : EndsLine t) :
    front c (cs ++ t) = (piece, n) ∧ (cs ++ t).take n = cs.take n ∧
      (cs ++ t).drop n = cs.drop n ++ t := by
  have hn : n ≤ cs.length := (front_fits h hpiece).length_le
  refine ⟨?_, List.take_append_of_le_length hn, List.drop_append_of_le_length hn⟩
  obtain ⟨hblank, -⟩ := plain_of_front h hpiece
  rw [front_append hblank ht fun f m hf => hclosed f (Prod.mk.inj (h.symm.trans hf)).1, h]

/-- **The end of a line ends the scan** of what stands before, unless something is left open. -/
theorem scanFrom_append (p : Place) {cs t : List Char} (ht : EndsLine t)
    (hclosed : ∀ q ∈ (scanFrom p cs).problems, q.fault.isOpen = false) :
    scanFrom p (cs ++ t) = (scanFrom p cs).join (scanFrom (p.after cs) t) := by
  induction cs using scan_induction generalizing p with
  | nil =>
    rw [scanFrom_nil]
    rfl
  | trivia gap rest hgap ih =>
    rw [scanFrom_trivia hgap] at hclosed ⊢
    rw [List.append_assoc, scanFrom_trivia hgap, ih _ hclosed, Place.after_append]
  | comment body hbody =>
    rw [scanFrom_lastComment hbody, scanFrom_nil, scanFrom_comment hbody p ht]
    rfl
  | token c cs t' n hfront ih =>
    -- The same token stands there, and what is left is longer by the text behind.
    obtain ⟨hmore, htake, hdrop⟩ := front_before hfront nofun nofun ht
    rw [scanFrom_token hfront] at hclosed ⊢
    rw [List.cons_append, scanFrom_token hmore, htake, hdrop, ih _ hclosed, p.after_take_drop]
    have hkept : decide (t' ≠ .finish) = true := decide_eq_true (front_fits hfront nofun).1
    simp only [Scan.join, List.filter_cons]
    rw [if_pos hkept]
    rfl
  | fault c cs f n hfront ih =>
    rw [scanFrom_fault hfront] at hclosed ⊢
    have hf : ∀ f', Piece.fault f = .fault f' → f'.isOpen = false := by
      rintro f' ⟨⟩
      exact hclosed _ (List.mem_cons_self ..)
    obtain ⟨hmore, htake, hdrop⟩ := front_before hfront nofun hf ht
    rw [List.cons_append, scanFrom_fault hmore, htake, hdrop,
      ih _ fun q hq => hclosed q (List.mem_cons_of_mem _ hq), p.after_take_drop]
    rfl

/-! ## Complete lines -/

/-- The place at which a text ends. -/
def placeAfter (text : String) : Place := ({} : Place).after text.toList

/-- The place behind two texts is that behind the second one, counted from behind the first. -/
theorem placeAfter_append (a s : String) :
    placeAfter (a ++ s) = (placeAfter a).after s.toList := by
  rw [placeAfter, String.toList_append, Place.after_append, placeAfter]

/-- What stands at the start of a text stands where the text does. -/
theorem Place.beyond_start (p : Place) : p.beyond {} = p := by
  show (⟨0 + p.offset, p.position⟩ : Place) = p
  rw [Nat.zero_add]

/-- Each newline starts a line. -/
theorem line_after (p : Position) (cs : List Char) :
    (p.after cs).line = p.line + cs.count '\n' := by
  induction cs generalizing p with
  | nil => rfl
  | cons c cs ih =>
    have hcons : (p.after (c :: cs)).line = (p.step c).line + cs.count '\n' := ih (p.step c)
    rw [hcons, Position.step]
    by_cases hc : c = '\n'
    · rw [if_pos hc, hc, List.count_cons_self]
      exact Nat.add_right_comm _ _ _
    · rw [if_neg hc, List.count_cons_of_ne hc]

/-- Behind a newline, text only moves down: its columns stay. -/
theorem beyond_newline {cs : List Char} (h : cs.getLast? = some '\n') (q : Position) :
    (({} : Position).after cs).beyond q = ⟨q.line + cs.count '\n', q.column⟩ := by
  have hline : (({} : Position).after cs).line = 1 + cs.count '\n' := line_after {} cs
  have hcolumn : (({} : Position).after cs).column = 1 := by
    obtain ⟨front, rfl⟩ := List.getLast?_eq_some_iff.mp h
    show ((front ++ ['\n']).foldl Position.step {}).column = 1
    rw [List.foldl_append]
    rfl
  rw [Position.beyond, hcolumn, hline]
  split
  · rename_i hfirst
    rw [Position.mk.injEq]
    omega
  · rw [Position.mk.injEq]
    omega

/-- **The scan is local to complete lines.** When nothing in a text is left open and the next text
stands on a later line, with nothing but blanks and whole comments between them, the two are scanned
as each is by itself, the second one moved to where it stands. What lies between them is not seen in
the tokens. Behind a newline, the lines of the second text are moved by the newlines in front and its
columns stay. -/
theorem scan_append {a s b : String} {gap : List Char}
    (ha : ∀ q ∈ (scan a).problems, q.code ∉ openCodes)
    (hs : s.toList = '\n' :: gap) (hgap : Trivia gap) :
    (scan (a ++ s ++ b)).lexemes = (scan a).lexemes.filter (·.token ≠ .finish) ++
        (scan b).lexemes.map (Lexeme.moved (placeAfter (a ++ s))) ∧
      (scan (a ++ s ++ b)).lexemes.map Lexeme.token =
        ((scan a).lexemes.filter (·.token ≠ .finish) ++ (scan b).lexemes).map Lexeme.token ∧
      (scan (a ++ s ++ b)).problems = (scan a).problems ++
        (scan b).problems.map (LexicalProblem.moved (placeAfter (a ++ s))) ∧
      (placeAfter (a ++ s)).offset = byteLength (a ++ s).toList ∧
      (s.toList.getLast? = some '\n' → ∀ q : Position, (placeAfter (a ++ s)).position.beyond q =
        ⟨q.line + (a ++ s).toList.count '\n', q.column⟩) := by
  have htrivia : Trivia s.toList := by
    rw [hs]
    exact .blank rfl hgap
  have hends : EndsLine (s.toList ++ b.toList) := by
    rw [hs]
    exact endsLine_newline _
  have hclosed : ∀ q ∈ (scanFrom {} a.toList).problems, q.fault.isOpen = false := fun q hq =>
    Bool.eq_false_iff.mpr fun hopen => ha q hq (mem_openCodes.mpr hopen)
  have hcounted : Place.Counted {} := ⟨Nat.le_refl 1, Nat.le_refl 1⟩
  -- The gap is scanned behind the first text, and it leaves nothing but its length.
  have hscan : scan (a ++ s ++ b) = (scan a).join ((scan b).moved (placeAfter (a ++ s))) :=
    calc scan (a ++ s ++ b)
      _ = scanFrom {} (a.toList ++ (s.toList ++ b.toList)) := by
        rw [scan, String.toList_append, String.toList_append, List.append_assoc]
      _ = (scan a).join (scanFrom (placeAfter a) (s.toList ++ b.toList)) :=
        scanFrom_append {} hends hclosed
      _ = (scan a).join (scanFrom (placeAfter (a ++ s)) b.toList) := by
        rw [scanFrom_trivia htrivia, placeAfter_append]
      _ = (scan a).join ((scan b).moved (placeAfter (a ++ s))) := by
        have hmoved := scanFrom_moved (placeAfter (a ++ s)) hcounted b.toList
        rw [Place.beyond_start] at hmoved
        exact congrArg _ hmoved
  have hlexemes := congrArg Scan.lexemes hscan
  have htokens : ∀ p, (Lexeme.token ∘ Lexeme.moved p) = Lexeme.token := fun _ => rfl
  refine ⟨hlexemes, ?_, congrArg Scan.problems hscan, Nat.zero_add _, fun hlast q => ?_⟩
  · rw [hlexemes, Scan.join, Scan.moved, List.map_append, List.map_append, List.map_map, htokens]
  have hlast' : (a ++ s).toList.getLast? = some '\n' := by
    rw [String.toList_append, List.getLast?_append, hlast, Option.some_or]
  exact beyond_newline hlast' q

/-- A heredoc on the last line of the first text, a stray character in front of it, and a quoted text
that is left open in the second. The lexemes and the problems of both are those of each, the second
ones moved, and the name stands in the fifth line. -/
theorem scan_append_heredoc :
    (scan ("? <<E\nhi\nE" ++ "\n# note\n" ++ "a \x22b")).lexemes =
        (scan "? <<E\nhi\nE").lexemes.filter (·.token ≠ .finish) ++
          (scan "a \x22b").lexemes.map
            (Lexeme.moved (placeAfter ("? <<E\nhi\nE" ++ "\n# note\n"))) ∧
      (scan ("? <<E\nhi\nE" ++ "\n# note\n" ++ "a \x22b")).problems =
        (scan "? <<E\nhi\nE").problems ++ (scan "a \x22b").problems.map
          (LexicalProblem.moved (placeAfter ("? <<E\nhi\nE" ++ "\n# note\n"))) ∧
      (scan ("? <<E\nhi\nE" ++ "\n# note\n" ++ "a \x22b")).lexemes =
        [⟨.text "hi", .between 2 10, ⟨1, 3⟩⟩, ⟨.name "a", .between 18 19, ⟨5, 1⟩⟩,
          ⟨.finish, .point 22, ⟨5, 5⟩⟩] := by
  have ha : (scan "? <<E\nhi\nE").problems.map LexicalProblem.code = [.unexpectedCharacter] := by
    decide +kernel
  have hclosed : ∀ q ∈ (scan "? <<E\nhi\nE").problems, q.code ∉ openCodes := by
    intro q hq
    have hcode : q.code ∈ [Code.unexpectedCharacter] := ha ▸ List.mem_map_of_mem hq
    obtain hcode := List.mem_singleton.mp hcode
    rw [hcode]
    decide
  have hnote : Trivia "# note\n".toList :=
    .comment ⟨by decide, '#', " note".toList, rfl, rfl⟩ .nil
  obtain ⟨hlexemes, -, hproblems, -, -⟩ :=
    scan_append (s := "\n# note\n") (b := "a \x22b") hclosed rfl hnote
  exact ⟨hlexemes, hproblems, by decide +kernel⟩

end Lexer

end Flowchart
