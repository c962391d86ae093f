import Flowchart.Proofs.Token.Readers

/-!
# What one step of the scan does

`Lexer.front` tries the readers in turn, so that it is local as they are: what stands at the front of
a text that starts with no blank is the same before any text that ends the line (`front_append`), and
a token is the same by itself (`front_take`).

`Trivia` is a text of blanks and whole comments; the scan passes over it and only moves the place.
-/

namespace Flowchart.Lexer

/-! ## The front of a text -/

/-- The number that starts with `c`. -/
def numeralFrom (c : Char) : Reader := fun cs =>
  (number? c cs).map fun (x, length) => (.token (.number x), length - 1)

/-- The piece behind a character that is not blank and starts no comment. -/
def solidFront (c : Char) : Reader := fun cs =>
  (if c = '\x22' || c = '\x27' then some (quotation c cs) else none).or
    ((if c = '<' then heredoc? cs else none).or
      ((numeralFrom c cs).or
        ((if startsName c then some (word c cs) else none).or
          (((punctuation? c).map Piece.token).map (·, 0) |>.or
            (some (.fault (.unexpectedCharacter c), 0))))))

/-- A blank in front is trivia up to the last blank in a row. -/
theorem front_blank {c : Char} (hc : Text.isBlank c = true) (cs : List Char) :
    front c cs = (.trivia, (cs.takeWhile Text.isBlank).length) := by
  rw [front, if_pos hc]

/-- A comment in front is trivia up to the end of its line. -/
theorem front_comment {c : Char} {cs : List Char} (hc : Text.isBlank c = false)
    (hcomment : startsComment c cs = true) :
    front c cs = (.trivia, (cs.takeWhile (· != '\n')).length) := by
  rw [front, hc, if_neg Bool.false_ne_true, if_pos hcomment]

/-- In front of any other character stands what one of the readers finds. -/
theorem front_solid {c : Char} {cs : List Char} (hc : Text.isBlank c = false)
    (hcomment : startsComment c cs = false) : some (front c cs) = solidFront c cs := by
  rw [front, hc, if_neg Bool.false_ne_true, hcomment, if_neg Bool.false_ne_true, solidFront]
  by_cases hquote : (c = '\x22' || c = '\x27') = true
  · rw [if_pos hquote, if_pos hquote, Option.some_or]
    rfl
  -- From here on both sides try the readers one after the other.
  rw [if_neg hquote, if_neg hquote, Option.none_or, numeralFrom]
  cases if c = '<' then heredoc? cs else none with
  | some heredoc => rfl
  | none =>
    cases number? c cs with
    | some number => rfl
    | none =>
      by_cases hname : startsName c = true
      · simp only [if_pos hname]
        rfl
      · simp only [if_neg hname]
        cases punctuation? c <;> rfl

/-- A number depends on no text behind it, with a sign in front or without one. -/
theorem local_numeralFrom (c : Char) : (numeralFrom c).Local := by
  by_cases hc : c = '-'
  · have heq : numeralFrom c = numeral true := by
      funext cs
      rw [numeralFrom, number?, if_pos hc, Option.map_map]
      rfl
    rw [heq]
    exact local_numeral true
  · have heq : numeralFrom c = fun cs =>
        (numeral false (c :: cs)).map fun found => (found.1, found.2 - 1) := by
      funext cs
      rw [numeralFrom, number?, if_neg hc, numeral, Option.map_map]
      rfl
    rw [heq]
    exact (local_numeral false).within (fun _ _ _ => numeral_pos) c

/-- A mark is a token that stands in the source. -/
theorem punctuation?_ne_finish {c : Char} {t : Token} (h : punctuation? c = some t) : t ≠ .finish := by
  rintro rfl
  unfold punctuation? at h
  split_ifs at h <;> cases h

/-- What the readers find depends on no text behind it, since each of them is local. -/
theorem local_solidFront (c : Char) : (solidFront c).Local := by
  have hmark : Reader.Local fun _ => ((punctuation? c).map Piece.token).map (·, 0) := by
    apply Reader.Local.mark
    intro piece hpiece cs
    obtain ⟨t, ht, rfl⟩ := Option.map_eq_some_iff.mp hpiece
    exact ⟨punctuation?_ne_finish ht, Nat.zero_le _⟩
  have hstray : Reader.Local fun _ => some (.fault (.unexpectedCharacter c), 0) := by
    apply Reader.Local.mark (some (.fault (.unexpectedCharacter c)))
    rintro piece ⟨⟩ cs
    exact ⟨Nat.zero_le _, nofun⟩
  exact ((local_quotation c).guard _).orElse
    ((local_heredoc.guard _).orElse
      ((local_numeralFrom c).orElse
        (((local_word c).guard _).orElse
          (hmark.orElse hstray))))

/-- A comment does not depend on the text behind the line. -/
theorem startsComment_append (c : Char) (cs : List Char) {t : List Char} (ht : EndsLine t) :
    startsComment c (cs ++ t) = startsComment c cs := by
  cases cs with
  | cons d cs => rfl
  | nil =>
    cases t with
    | nil => rfl
    | cons d t =>
      obtain rfl : d = '\n' := ht d rfl
      rfl

/-- What starts no comment starts none when the text behind it is cut off. -/
theorem startsComment_take {c : Char} {cs : List Char} (h : startsComment c cs = false) (n : Nat) :
    startsComment c (cs.take n) = false := by
  cases n with
  | zero =>
    rw [startsComment, Bool.or_eq_false_iff] at h
    rw [List.take_zero, startsComment, h.1, Bool.false_or]
    exact Bool.and_false _
  | succ n =>
    cases cs with
    | nil => exact h
    | cons d cs => exact h

/-- **The line ends the look ahead:** what stands at the front of a text is the same before any text
that ends the line, unless it is blank or nothing has closed it. -/
theorem front_append {c : Char} {cs t : List Char} (hc : Text.isBlank c = false)
    (ht : EndsLine t) (hopen : ∀ f n, front c cs = (.fault f, n) → f.isOpen = false) :
    front c (cs ++ t) = front c cs := by
  have hstarts := startsComment_append c cs ht
  cases hcomment : startsComment c cs with
  | true =>
    rw [front_comment hc hcomment, front_comment hc (hstarts.trans hcomment),
      takeWhile_append rfl cs ht]
  | false =>
    apply Option.some.inj
    rw [front_solid hc hcomment, front_solid hc (hstarts.trans hcomment)]
    apply (local_solidFront c).append cs t ht
    intro f n hf
    exact hopen f n (Option.some.inj ((front_solid hc hcomment).trans hf))

/-- What is not trivia is neither blank nor a comment. -/
theorem plain_of_front {c : Char} {cs : List Char} {piece : Piece} {n : Nat}
    (h : front c cs = (piece, n)) (hpiece : piece ≠ .trivia) :
    Text.isBlank c = false ∧ startsComment c cs = false := by
  cases hc : Text.isBlank c with
  | true =>
    rw [front_blank hc] at h
    exact absurd (Prod.mk.inj h).1.symm hpiece
  | false =>
    refine ⟨rfl, ?_⟩
    cases hcomment : startsComment c cs with
    | true =>
      rw [front_comment hc hcomment] at h
      exact absurd (Prod.mk.inj h).1.symm hpiece
    | false => rfl

/-- **A token stands by itself:** without the text behind it, it is the same token. -/
theorem front_take {c : Char} {cs : List Char} {t : Token} {n : Nat}
    (h : front c cs = (.token t, n)) : front c (cs.take n) = (.token t, n) := by
  obtain ⟨hc, hcomment⟩ := plain_of_front h nofun
  apply Option.some.inj
  rw [front_solid hc (startsComment_take hcomment n)]
  exact (local_solidFront c).token_take cs t n (by rw [← front_solid hc hcomment, h])

/-- What stands at the front of a text is made of its characters. -/
theorem front_fits {c : Char} {cs : List Char} {piece : Piece} {n : Nat}
    (h : front c cs = (piece, n)) (hpiece : piece ≠ .trivia) : piece.Fits cs n := by
  obtain ⟨hc, hcomment⟩ := plain_of_front h hpiece
  exact (local_solidFront c).fits cs piece n (by rw [← front_solid hc hcomment, h])

/-- The front is trivia only at a blank and at a comment. -/
theorem blank_or_comment {c : Char} {cs : List Char} {n : Nat} (h : front c cs = (.trivia, n)) :
    Text.isBlank c = true ∨ Text.isBlank c = false ∧ startsComment c cs = true := by
  cases hc : Text.isBlank c with
  | true => exact .inl rfl
  | false =>
    refine .inr ⟨rfl, ?_⟩
    by_contra hcomment
    exact (local_solidFront c).fits cs .trivia n
      (by rw [← front_solid hc (Bool.eq_false_iff.mpr hcomment), h])

/-! ## Trivia -/

/-- A comment is `#` or two slashes and the rest of the line. -/
def IsComment (cs : List Char) : Prop :=
  '\n' ∉ cs ∧ ∃ c rest, cs = c :: rest ∧ startsComment c rest = true

/-- Blanks and whole comments, each with the newline that ends it. -/
inductive Trivia : List Char → Prop
  /-- Nothing. -/
  | nil : Trivia []
  /-- A blank before trivia. -/
  | blank {c : Char} {cs : List Char} (hc : Text.isBlank c = true) (hcs : Trivia cs) :
      Trivia (c :: cs)
  /-- A whole comment before trivia. -/
  | comment {body cs : List Char} (hbody : IsComment body) (hcs : Trivia cs) :
      Trivia (body ++ '\n' :: cs)

/-- Trivia behind trivia is trivia. -/
theorem Trivia.append {cs ds : List Char} (hcs : Trivia cs) (hds : Trivia ds) :
    Trivia (cs ++ ds) := by
  induction hcs with
  | nil => exact hds
  | blank hc _ ih => exact .blank hc ih
  | @comment body cs hbody _ ih =>
    rw [List.append_assoc]
    exact .comment hbody ih

/-- The bytes of a text are those of its parts. -/
theorem byteLength_append (cs ds : List Char) :
    byteLength (cs ++ ds) = byteLength cs + byteLength ds := by
  induction cs with
  | nil => rw [List.nil_append, byteLength, Nat.zero_add]
  | cons c cs ih => rw [List.cons_append, byteLength, byteLength, ih, Nat.add_assoc]

/-- A place moves over a text as it does over its parts, one after the other. -/
theorem Place.after_append (p : Place) (cs ds : List Char) :
    p.after (cs ++ ds) = (p.after cs).after ds := by
  have hposition : p.position.after (cs ++ ds) = (p.position.after cs).after ds :=
    List.foldl_append
  rw [Place.after, Place.after, Place.after, byteLength_append, hposition, Nat.add_assoc]

/-- A place moves over a piece of the text and then over the rest. -/
theorem Place.after_take_drop (p : Place) (c : Char) (cs : List Char) (n : Nat) :
    (p.after (c :: cs.take n)).after (cs.drop n) = p.after (c :: cs) := by
  rw [← Place.after_append, List.cons_append, List.take_append_drop]

/-- At the end of the text stands the last token, and nothing is a problem. -/
theorem scanFrom_nil (p : Place) :
    scanFrom p [] = ⟨[⟨.finish, Span.point p.offset, p.position⟩], []⟩ := by
  rw [scanFrom]

/-- Trivia in front is passed over and leaves neither a lexeme nor a problem. -/
theorem scanFrom_trivia_front {p : Place} {c : Char} {cs : List Char} {n : Nat}
    (h : front c cs = (.trivia, n)) :
    scanFrom p (c :: cs) = scanFrom (p.after (c :: cs.take n)) (cs.drop n) := by
  rw [scanFrom, h]

/-- A token in front is the first lexeme, with its span and the position where it starts. -/
theorem scanFrom_token {p : Place} {c : Char} {cs : List Char} {t : Token} {n : Nat}
    (h : front c cs = (.token t, n)) :
    scanFrom p (c :: cs) =
      { scanFrom (p.after (c :: cs.take n)) (cs.drop n) with
        lexemes := ⟨t, Span.between p.offset (p.after (c :: cs.take n)).offset, p.position⟩ ::
          (scanFrom (p.after (c :: cs.take n)) (cs.drop n)).lexemes } := by
  rw [scanFrom, h]

/-- A fault in front is the first problem, with its span and the positions of its ends. -/
theorem scanFrom_fault {p : Place} {c : Char} {cs : List Char} {f : LexicalFault} {n : Nat}
    (h : front c cs = (.fault f, n)) :
    scanFrom p (c :: cs) =
      { scanFrom (p.after (c :: cs.take n)) (cs.drop n) with
        problems := ⟨f, Span.between p.offset (p.after (c :: cs.take n)).offset, p.position,
            (p.after (c :: cs.take n)).position⟩ ::
          (scanFrom (p.after (c :: cs.take n)) (cs.drop n)).problems } := by
  rw [scanFrom, h]

/-- A blank is passed over one character at a time. -/
theorem scanFrom_blank {c : Char} (hc : Text.isBlank c = true) (p : Place) (cs : List Char) :
    scanFrom p (c :: cs) = scanFrom (p.after [c]) cs := by
  rw [scanFrom_trivia_front (front_blank hc cs)]
  cases cs with
  | nil => rfl
  | cons d cs =>
    by_cases hd : Text.isBlank d = true
    · -- The next blank starts a run of its own, with what is left of this one.
      rw [scanFrom_trivia_front (front_blank hd cs), List.takeWhile_cons_of_pos hd,
        ← Place.after_append]
      rfl
    · rw [List.takeWhile_cons_of_neg hd]
      rfl

/-- No comment starts with a blank. -/
theorem isBlank_of_startsComment {c : Char} {cs : List Char} (h : startsComment c cs = true) :
    Text.isBlank c = false := by
  rcases Bool.or_eq_true_iff.mp h with heq | heq
  · obtain rfl := beq_iff_eq.mp heq
    rfl
  · obtain rfl := beq_iff_eq.mp (Bool.and_eq_true_iff.mp heq).1
    rfl

/-- A comment is passed over together. -/
theorem scanFrom_comment {body : List Char} (hbody : IsComment body) (p : Place)
    {rest : List Char} (hrest : EndsLine rest) :
    scanFrom p (body ++ rest) = scanFrom (p.after body) rest := by
  obtain ⟨hline, c, body, rfl, hstarts⟩ := hbody
  have hline' : '\n' ∉ body := fun hmem => hline (List.mem_cons_of_mem c hmem)
  have hfront : front c (body ++ rest) = (.trivia, body.length) := by
    rw [front_comment (isBlank_of_startsComment hstarts)
      ((startsComment_append c body hrest).trans hstarts), takeWhile_line hline' hrest]
  rw [List.cons_append, scanFrom_trivia_front hfront, List.take_left, List.drop_left]

/-- The source may end in a comment. -/
theorem scanFrom_lastComment {body : List Char} (hbody : IsComment body) (p : Place) :
    scanFrom p body = scanFrom (p.after body) [] := by
  have hscan := scanFrom_comment hbody p endsLine_nil
  rwa [List.append_nil] at hscan

/-- **The scan passes over trivia** and only moves the place. -/
theorem scanFrom_trivia {gap : List Char} (hgap : Trivia gap) (p : Place) (rest : List Char) :
    scanFrom p (gap ++ rest) = scanFrom (p.after gap) rest := by
  induction hgap generalizing p with
  | nil => rfl
  | blank hc _ ih =>
    rw [List.cons_append, scanFrom_blank hc, ih, ← Place.after_append]
    rfl
  | @comment body cs hbody _ ih =>
    have hnewline : scanFrom (p.after body) ('\n' :: (cs ++ rest)) =
        scanFrom ((p.after body).after ['\n']) (cs ++ rest) := scanFrom_blank rfl _ _
    rw [List.append_assoc, List.cons_append, scanFrom_comment hbody p (endsLine_newline _),
      hnewline, ih, ← Place.after_append, ← Place.after_append]
    rfl

/-! ## Induction along the scan -/

/-- A text is used up by trivia, tokens and faults; at its very end a comment needs no newline. -/
theorem scan_induction {motive : List Char → Prop} (nil : motive [])
    (trivia : ∀ gap rest, Trivia gap → motive rest → motive (gap ++ rest))
    (comment : ∀ body, IsComment body → motive body)
    (token : ∀ c cs t n, front c cs = (.token t, n) → motive (cs.drop n) → motive (c :: cs))
    (fault : ∀ c cs f n, front c cs = (.fault f, n) → motive (cs.drop n) → motive (c :: cs))
    (cs : List Char) : motive cs := by
  induction hlength : cs.length using Nat.strong_induction_on generalizing cs with
  | _ length ih =>
    cases cs with
    | nil => exact nil
    | cons c cs =>
      subst hlength
      have hdrop (n : Nat) : motive (cs.drop n) :=
        ih _ (Nat.lt_succ_of_le (by rw [List.length_drop]; exact Nat.sub_le _ _)) _ rfl
      rcases hfront : front c cs with ⟨_ | t | f, n⟩
      case trivia =>
        rcases blank_or_comment hfront with hc | ⟨hc, hstarts⟩
        · exact trivia [c] cs (.blank hc .nil) (hdrop 0)
        -- A comment takes its line, so that it leaves a newline and what follows, or nothing.
        obtain ⟨line, rest, rfl, hline, hrest⟩ := exists_line cs
        have hnewline : c ≠ '\n' := by
          rintro rfl
          cases hc
        have hbody : IsComment (c :: line) :=
          ⟨by simp only [List.mem_cons, hline, or_false]; exact hnewline.symm, c, line, rfl,
            (startsComment_append c line hrest).symm.trans hstarts⟩
        cases rest with
        | nil =>
          rw [List.append_nil]
          exact comment (c :: line) hbody
        | cons d rest =>
          obtain rfl : d = '\n' := hrest d rfl
          have hrest : motive rest := by
            have := hdrop (line.length + 1)
            rwa [List.drop_length_add_append, List.drop_succ_cons, List.drop_zero] at this
          have hgap : Trivia (c :: line ++ ['\n']) := .comment hbody .nil
          have hmotive := trivia _ rest hgap hrest
          rwa [List.append_assoc] at hmotive
      case token => exact token c cs t n hfront (hdrop n)
      case fault => exact fault c cs f n hfront (hdrop n)

end Flowchart.Lexer
