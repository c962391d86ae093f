import Flowchart.Proofs.Token.Joining

/-!
# Texts between quotes

A text can be written between two quotes in many ways, for most characters may stand as they are or
behind a backslash. `Written` lists the ways, without regard to how they are read, and reading
accepts just these (`quoted_eq_closed_iff`). So every way to write a text is read as that text,
whatever comes behind the closing quote, and the scan goes on there as if nothing stood before
(`scan_written`).
-/

namespace Flowchart.Lexer

/-- The quotes that a text can stand between. -/
def IsQuote (c : Char) : Prop := c = '\x22' ∨ c = '\x27'

/-- The second argument is a way to write the first one between two quotes. A quote of this kind and
a backslash have a backslash in front. A newline and a tab stand as they are or as `\n` and `\t`. Any
character but `n` and `t` may have a backslash in front. -/
inductive Written (quote : Char) : List Char → List Char → Prop
  /-- Nothing is written. -/
  | nil : Written quote [] []
  /-- A character stands for itself, unless it is the quote or a backslash. -/
  | plain {c : Char} {value form : List Char} (hquote : c ≠ quote) (hslash : c ≠ '\\')
      (h : Written quote value form) : Written quote (c :: value) (c :: form)
  /-- Behind a backslash a character stands for itself, unless it is one of two letters. -/
  | kept {c : Char} {value form : List Char} (hn : c ≠ 'n') (ht : c ≠ 't')
      (h : Written quote value form) : Written quote (c :: value) ('\\' :: c :: form)
  /-- One of them stands for a newline. -/
  | newline {value form : List Char} (h : Written quote value form) :
      Written quote ('\n' :: value) ('\\' :: 'n' :: form)
  /-- The other one stands for a tab. -/
  | tab {value form : List Char} (h : Written quote value form) :
      Written quote ('\t' :: value) ('\\' :: 't' :: form)

variable {quote : Char} {value form : List Char}

/-- A quote is no backslash. -/
theorem IsQuote.ne_backslash (h : IsQuote quote) : quote ≠ '\\' := by
  rcases h with rfl | rfl <;> decide

/-- A quote is not blank. -/
theorem IsQuote.isBlank_eq_false (h : IsQuote quote) : Text.isBlank quote = false := by
  rcases h with rfl | rfl <;> decide

/-- A quote starts no comment. -/
theorem IsQuote.startsComment_eq_false (h : IsQuote quote) (cs : List Char) :
    startsComment quote cs = false := by
  rcases h with rfl | rfl <;> rfl

/-- Every text can be written between quotes of either kind. -/
theorem exists_written (hquote : IsQuote quote) (value : List Char) :
    ∃ form, Written quote value form := by
  induction value with
  | nil => exact ⟨[], .nil⟩
  | cons c value ih =>
    obtain ⟨form, hform⟩ := ih
    by_cases hc : c = quote ∨ c = '\\'
    · -- Neither a quote nor a backslash is one of the letters that an escape changes.
      have hletter : c ≠ 'n' ∧ c ≠ 't' := by
        rcases hc with rfl | rfl
        · rcases hquote with rfl | rfl <;> decide
        · decide
      exact ⟨_, .kept hletter.1 hletter.2 hform⟩
    · obtain ⟨hne, hslash⟩ := not_or.mp hc
      exact ⟨_, .plain hne hslash hform⟩

/-- An escape is a way to write what it stands for. -/
theorem Written.escape (c : Char) (h : Written quote value form) :
    Written quote (unescape c :: value) ('\\' :: c :: form) := by
  rw [unescape]
  split_ifs with hn ht
  · exact hn ▸ .newline h
  · exact ht ▸ .tab h
  · exact .kept hn ht h

/-- What is written is read up to the closing quote, whatever comes behind it. -/
theorem Written.quoted_eq (hquote : quote ≠ '\\') (h : Written quote value form)
    (rest : List Char) :
    quoted quote (form ++ quote :: rest) = .closed value (form.length + 1) := by
  induction h with
  | nil => rw [List.nil_append, quoted_cons hquote, if_pos rfl, List.length_nil]
  | plain hne hslash _ ih =>
    rw [List.cons_append, quoted_cons hslash, if_neg hne, ih, Quoted.push, List.length_cons,
      Nat.add_comm]
  | kept hn ht _ ih =>
    rw [List.cons_append, List.cons_append, quoted, ih, Quoted.push, unescape, if_neg hn,
      if_neg ht, List.length_cons, List.length_cons, Nat.add_comm]
  | newline _ ih =>
    rw [List.cons_append, List.cons_append, quoted, ih, Quoted.push, List.length_cons,
      List.length_cons, Nat.add_comm]
    rfl
  | tab _ ih =>
    rw [List.cons_append, List.cons_append, quoted, ih, Quoted.push, List.length_cons,
      List.length_cons, Nat.add_comm]
    rfl

/-- What is read up to a closing quote is written in one of these ways. -/
theorem exists_written_of_quoted {cs : List Char} {length : Nat}
    (h : quoted quote cs = .closed value length) :
    ∃ form rest, cs = form ++ quote :: rest ∧ Written quote value form ∧
      length = form.length + 1 := by
  fun_induction quoted quote cs generalizing value length with
  | case1 => cases h
  | case2 => cases h
  | case3 c cs ih =>
    obtain ⟨inner, count, hcs, rfl, rfl⟩ := Quoted.push_eq_closed.mp h
    obtain ⟨form, rest, rfl, hform, rfl⟩ := ih hcs
    exact ⟨'\\' :: c :: form, rest, rfl, hform.escape c, by simp only [List.length_cons]; omega⟩
  | case4 cs =>
    obtain ⟨rfl, rfl⟩ := Quoted.closed.inj h
    exact ⟨[], cs, rfl, .nil, rfl⟩
  | case5 c cs hlast hmore hne ih =>
    obtain ⟨inner, count, hcs, rfl, rfl⟩ := Quoted.push_eq_closed.mp h
    obtain ⟨form, rest, rfl, hform, rfl⟩ := ih hcs
    exact ⟨c :: form, rest, rfl, .plain hne (ne_backslash hlast hmore) hform,
      by simp only [List.length_cons]; omega⟩

/-- **Reading accepts what is written** between quotes, and nothing else. -/
theorem quoted_eq_closed_iff (hquote : IsQuote quote) {cs : List Char} {length : Nat} :
    quoted quote cs = .closed value length ↔
      ∃ form rest, cs = form ++ quote :: rest ∧ Written quote value form ∧
        length = form.length + 1 := by
  refine ⟨exists_written_of_quoted, ?_⟩
  rintro ⟨form, rest, rfl, hform, rfl⟩
  exact hform.quoted_eq hquote.ne_backslash rest

/-- What is written between quotes stands at the front of the text as one token. -/
theorem front_written (hquote : IsQuote quote) (h : Written quote value form) (rest : List Char) :
    front quote (form ++ quote :: rest) =
      (.token (.text (String.ofList value)), form.length + 1) := by
  have hread : quoted quote (form ++ quote :: rest) = .closed value (form.length + 1) :=
    (quoted_eq_closed_iff hquote).mpr ⟨form, rest, rfl, h, rfl⟩
  have hopens : (quote = '\x22' || quote = '\x27') = true := by
    rcases hquote with rfl | rfl <;> rfl
  apply Option.some.inj
  rw [front_solid hquote.isBlank_eq_false (hquote.startsComment_eq_false _), solidFront,
    if_pos hopens, Option.some_or, quotation, hread]

/-- A text as it stands in a source, with its quotes. -/
def inQuotes (quote : Char) (form : List Char) : String := String.ofList (quote :: (form ++ [quote]))

/-- **Quoted texts are read back.** Every text can be written between quotes of either kind, and
however it is written, it is the first token of any source that starts with it: the token covers what
is written and nothing else. Behind it follow the tokens and the problems of what comes behind, each
moved by the bytes of what is written. -/
theorem scan_written (hquote : IsQuote quote) (value : String) :
    (∃ form, Written quote value.toList form) ∧
    ∀ form, Written quote value.toList form → ∀ rest : String,
      (scan (inQuotes quote form ++ rest)).lexemes =
        ⟨.text value, Span.between 0 (byteLength (inQuotes quote form).toList), {}⟩ ::
          (scan rest).lexemes.map (Lexeme.moved (placeAfter (inQuotes quote form))) ∧
      (scan (inQuotes quote form ++ rest)).problems =
        (scan rest).problems.map (LexicalProblem.moved (placeAfter (inQuotes quote form))) ∧
      (scan (inQuotes quote form ++ rest)).problems.map LexicalProblem.code =
        (scan rest).problems.map LexicalProblem.code ∧
      (placeAfter (inQuotes quote form)).offset = byteLength (inQuotes quote form).toList := by
  refine ⟨exists_written hquote value.toList, fun form hform rest => ?_⟩
  have htext : (inQuotes quote form).toList = quote :: (form ++ [quote]) := String.toList_ofList
  have hsource : (inQuotes quote form ++ rest).toList =
      quote :: (form ++ quote :: rest.toList) := by
    rw [String.toList_append, htext, List.cons_append, List.append_assoc, List.singleton_append]
  have htake : (form ++ quote :: rest.toList).take (form.length + 1) = form ++ [quote] := by
    rw [List.take_length_add_append, List.take_succ_cons, List.take_zero]
  have hdrop : (form ++ quote :: rest.toList).drop (form.length + 1) = rest.toList := by
    rw [List.drop_length_add_append, List.drop_succ_cons, List.drop_zero]
  have hplace : ({} : Place).after (quote :: (form ++ [quote])) =
      placeAfter (inQuotes quote form) := by
    rw [placeAfter, htext]
  have hoffset : (placeAfter (inQuotes quote form)).offset =
      byteLength (inQuotes quote form).toList := Nat.zero_add _
  -- Behind the closing quote the scan starts anew, at another place.
  have hbehind : scanFrom (placeAfter (inQuotes quote form)) rest.toList =
      (scan rest).moved (placeAfter (inQuotes quote form)) := by
    have hcounted : Place.Counted {} := ⟨Nat.le_refl 1, Nat.le_refl 1⟩
    have hmoved := scanFrom_moved (placeAfter (inQuotes quote form)) hcounted rest.toList
    rwa [Place.beyond_start] at hmoved
  have hscan : scan (inQuotes quote form ++ rest) =
      { (scan rest).moved (placeAfter (inQuotes quote form)) with
        lexemes := ⟨.text value, Span.between 0 (byteLength (inQuotes quote form).toList), {}⟩ ::
          ((scan rest).moved (placeAfter (inQuotes quote form))).lexemes } := by
    rw [scan, hsource, scanFrom_token (front_written hquote hform rest.toList), htake, hdrop,
      hplace, hbehind, hoffset, String.ofList_toList]
  have hproblems := congrArg Scan.problems hscan
  refine ⟨congrArg Scan.lexemes hscan, hproblems, ?_, hoffset⟩
  rw [hproblems]
  exact List.map_map

/-- Both quotes, what elsewhere starts a comment or a heredoc, and a newline written in both ways. -/
def mixedForm : List Char :=
  ['\\', '\x27', '\x22', '#', '<', '<', '\n', '\\', 'n', '\\', 't', '\\', 'é', 'n']

/-- It is one token, and the name and the stray character behind it are moved by its bytes. -/
theorem scan_written_mixed :
    IsQuote '\x27' ∧ Written '\x27' "\x27\x22#<<\n\n\tén".toList mixedForm ∧
      (scan (inQuotes '\x27' mixedForm ++ "x ?")).lexemes.map
          (fun l => (l.token, l.span.start, l.span.stop)) =
        [(.text "\x27\x22#<<\n\n\tén", 0, 17), (.name "x", 17, 18), (.finish, 20, 20)] ∧
      (scan (inQuotes '\x27' mixedForm ++ "x ?")).problems.map LexicalProblem.code =
        [.unexpectedCharacter] := by
  have hquote : IsQuote '\x27' := .inr rfl
  have hform : Written '\x27' "\x27\x22#<<\n\n\tén".toList mixedForm := by
    have hplain : ∀ c ∈ ['\x22', '#', '<', '\n', 'n'], c ≠ '\x27' ∧ c ≠ '\\' := by simp
    have step (c : Char) (hc : c ∈ ['\x22', '#', '<', '\n', 'n']) {value form : List Char}
        (h : Written '\x27' value form) : Written '\x27' (c :: value) (c :: form) :=
      .plain (hplain c hc).1 (hplain c hc).2 h
    exact .kept (by decide) (by decide) <| step _ (by decide) <| step _ (by decide) <|
      step _ (by decide) <| step _ (by decide) <| step _ (by decide) <| .newline <| .tab <|
      .kept (by decide) (by decide) <| step _ (by decide) .nil
  obtain ⟨hlexemes, -, hcodes, -⟩ := (scan_written hquote _).2 mixedForm hform "x ?"
  refine ⟨hquote, hform, ?_, ?_⟩
  · rw [hlexemes]
    decide +kernel
  · rw [hcodes]
    decide +kernel

end Flowchart.Lexer
