import Flowchart.Proofs.Decimal.Reading
import Flowchart.Proofs.Json.Texts
import Flowchart.Proofs.Statement.Nesting

/-!
# The JSON of what is read from a source

Every number shown in a value that is read from a source is a numeral of the source
(`Reader.item_shows`). A numeral is read as a number, which is infinite if no double is great enough
(`Lexer.isNaN_of_mem_scan`). So the text of the value is JSON exactly if no infinite number is shown in
it (`Document.isText_json_iff`), and there are sources for which it is not.
-/

namespace Flowchart

/-! ## Numerals -/

namespace Lexer

variable {c : Char} {cs : List Char} {x : Float} {n : Nat}

/-- A numeral without a sign is read as a number. -/
theorem isNaN_of_unsigned? {negative : Bool} (h : unsigned? negative cs = some (x, n)) :
    x.isNaN = false := by
  unfold unsigned? at h
  dsimp only at h
  split at h
  · cases h
  split at h
  · split at h
    · cases h
      exact Decimal.isNaN_toFloat ..
    · cases h
      exact Decimal.isNaN_toFloat ..
  · cases h
    exact Decimal.isNaN_toFloat ..

/-- A numeral is read as a number, with a sign or without one. -/
theorem isNaN_of_number? (h : number? c cs = some (x, n)) : x.isNaN = false := by
  unfold number? at h
  split at h
  · obtain ⟨⟨y, m⟩, hread, heq⟩ := Option.map_eq_some_iff.mp h
    cases heq
    exact isNaN_of_unsigned? hread
  · exact isNaN_of_unsigned? h

/-- A heredoc is a text. -/
theorem heredoc?_ne_number : heredoc? cs ≠ some (.token (.number x), n) := by
  intro h
  unfold heredoc? at h
  split at h
  · -- With or without the mark, there is a marker or none, and then the lines are closed or not.
    dsimp only at h
    split at h
    · split at h
      · cases h
      · split at h <;> cases h
    · split at h
      · cases h
      · split at h <;> cases h
  · cases h

/-- The number of a token is a number. -/
theorem isNaN_of_front (h : front c cs = (.token (.number x), n)) : x.isNaN = false := by
  unfold front at h
  split at h
  · cases h
  split at h
  · cases h
  split at h
  · split at h <;> cases h
  split at h
  · -- Of what may stand in front, only the reader of numbers gives one.
    rename_i hheredoc
    split at hheredoc
    · exact absurd (hheredoc.trans (congrArg some h)) heredoc?_ne_number
    · cases hheredoc
  split at h
  · rename_i hnumber
    cases h
    exact isNaN_of_number? hnumber
  dsimp only at h
  split at h
  · cases h
  split at h
  · rename_i hmark
    cases h
    unfold punctuation? at hmark
    split_ifs at hmark <;> cases hmark
  · cases h

/-- **A numeral is read as a number**, however many digits it has. -/
theorem isNaN_of_mem_scan {source : String} {l : Lexeme} (hl : l ∈ (scan source).lexemes)
    (hx : l.token = .number x) : x.isNaN = false := by
  have hscan (p : Place) (cs : List Char) (hl : l ∈ (scanFrom p cs).lexemes) : x.isNaN = false := by
    induction cs using scan_induction generalizing p with
    | nil =>
      rw [scanFrom_nil] at hl
      rw [List.mem_singleton.mp hl] at hx
      cases hx
    | trivia gap rest hgap ih => exact ih _ (scanFrom_trivia hgap p rest ▸ hl)
    | comment body hbody =>
      rw [scanFrom_lastComment hbody, scanFrom_nil] at hl
      rw [List.mem_singleton.mp hl] at hx
      cases hx
    | token c cs t n hfront ih =>
      rw [scanFrom_token hfront] at hl
      rcases List.mem_cons.mp hl with rfl | hl
      · exact isNaN_of_front (hfront.trans (congrArg (fun t => (Piece.token t, n)) hx))
      · exact ih _ hl
    | fault c cs f n hfront ih =>
      rw [scanFrom_fault hfront] at hl
      exact ih _ hl
  exact hscan {} source.toList hl

end Lexer

namespace Reader

/-! ## Numbers of values -/

/-- What is shown in braces is shown in an attribute that stands there. -/
theorem braced_shows {body : List Statement} {x : Float} (h : (braced body).Shows x) :
    ∃ key v span, .attribute key v span ∈ body ∧ v.Shows x := by
  rw [braced] at h
  split at h
  · cases h with
    | nested hs h => exact ⟨_, _, _, hs, h⟩
  · cases h with
    | object he h =>
      obtain ⟨span, hs⟩ := Attributes.exists_of_mem he
      exact ⟨_, _, span, hs, h⟩

/-- A value of one token shows no number but that of the token. -/
theorem scalar?_shows {t : Token} {v : Value} {x : Float} (hv : scalar? t = some v)
    (h : v.Shows x) : t = .number x := by
  unfold scalar? at hv
  split at hv <;> cases hv <;> cases h
  rfl

/-- What is read as a block is no attribute. -/
theorem block_ne_attribute (first : Lexeme) (name : String) (ls : List Lexeme) {key : String}
    {v : Value} {span : Span} : (block first name ls).value ≠ .attribute key v span := by
  obtain ⟨hle, heq⟩ := block_eq first name ls
  rw [heq]
  exact nofun

variable {x : Float}

mutual

/-- A number shown in an attribute is one of the lexemes behind its key. -/
theorem item_shows {first : Lexeme} {name key : String} {v : Value} {span : Span}
    (hx : v.Shows x) : ∀ ls : List Lexeme, (item first name ls).value = .attribute key v span →
      ∃ l ∈ ls, l.token = .number x
  | [], h => by
    rw [item] at h
    exact absurd h (block_ne_attribute first name [])
  | l :: rest, h => by
    rw [item] at h
    split at h
    · cases h
      obtain ⟨n, hn, htoken⟩ := valueIn_shows l.span rest hx
      exact ⟨n, List.mem_cons_of_mem _ hn, htoken⟩
    · exact absurd h (block_ne_attribute first name (l :: rest))
termination_by ls => ls.length
decreasing_by all_goals (simp only [List.length_cons]; omega)

/-- A number that is shown by the value of a list comes from one of its lexemes. -/
theorem valueIn_shows (last : Span) : ∀ ls : List Lexeme, (valueIn last ls).value.Shows x →
    ∃ l ∈ ls, l.token = .number x
  | [], h => by
    rw [valueIn] at h
    exact nomatch h
  | l :: rest, h => by
    rw [valueIn] at h
    split at h
    · exact nomatch h
    · exact value_shows l rest h
termination_by ls => ls.length
decreasing_by all_goals (simp only [List.length_cons]; omega)

/-- A number shown in a value is one of the lexemes that it is read from. -/
theorem value_shows (first : Lexeme) (ls : List Lexeme)
    (h : (value first ls).value.Shows x) : ∃ l ∈ first :: ls, l.token = .number x := by
  cases hscalar : scalar? first.token with
  | some v =>
    rw [value_scalar_eq hscalar] at h
    exact ⟨first, List.mem_cons_self, scalar?_shows hscalar h⟩
  | none =>
    cases hf : first.token with
    | openBracket =>
      obtain ⟨hle, heq⟩ := value_array_eq hf ls
      rw [heq] at h
      cases h with
      | list hv h =>
        -- The number is shown by one of the values in the brackets.
        obtain ⟨l, after, hls, rfl, -⟩ := items_mem first.span ls _ hv
        have hshort := hls.length_le
        obtain ⟨n, hn, htoken⟩ := value_shows l after h
        exact ⟨n, List.mem_cons_of_mem _ (hls.mem hn), htoken⟩
    | openBrace =>
      obtain ⟨hle, heq⟩ := value_braces_eq hf ls
      rw [heq] at h
      obtain ⟨key, v, span, hs, h⟩ := braced_shows h
      -- The item that shows it is read from lexemes between the braces.
      obtain ⟨l, name, after, hls, -, hread, -⟩ := (fields_readIn first.span ls).exists_item hs
      have hshort := hls.length_le
      obtain ⟨n, hn, htoken⟩ := item_shows h after hread
      exact ⟨n, List.mem_cons_of_mem _ (hls.mem (List.mem_cons_of_mem _ hn)), htoken⟩
    | _ =>
      rw [value, hscalar, hf] at h
      exact nomatch h
termination_by ls.length
decreasing_by all_goals (simp only [List.length_cons] at *; omega)

end

/-- A number shown in an attribute of a document is a numeral of the source. -/
theorem exists_numeral_of_shows {source : String} {body : List Statement}
    (hbody : Statement.InTree (document (Lexer.scan source).lexemes).1 body) {key : String}
    {v : Value} {span : Span} (hs : .attribute key v span ∈ body) (hx : v.Shows x) :
    ∃ l ∈ (Lexer.scan source).lexemes, l.token = .number x := by
  obtain ⟨left, hread⟩ := exists_readIn (document_readIn (Lexer.scan source).lexemes)
    (scan_inOrder source) hbody
  obtain ⟨first, name, after, hls, -, hitem, -⟩ := hread.exists_item hs
  obtain ⟨l, hl, htoken⟩ := item_shows hx after hitem
  exact ⟨l, hls.mem (List.mem_cons_of_mem _ hl), htoken⟩

end Reader

/-! ## Documents -/

namespace Document

/-- The statements of a document are those read from the lexemes of its source. -/
theorem statements_eq (source : String) :
    (Document.read source).statements = (Reader.document (Lexer.scan source).lexemes).1 := rfl

/-- **The text of a value that is read from a source is JSON unless an infinite number is shown in
it.** The numbers shown in it are numerals of the source, and each of them is a number. -/
theorem isText_json_iff (source : String) {body : List Statement}
    (hbody : Statement.InTree (Document.read source).statements body) {key : String} {v : Value}
    {span : Span} (hs : .attribute key v span ∈ body) :
    (Json.IsText v.json.toList ↔ ∀ x, v.Shows x → x.isInf = false) ∧
      ∀ x, v.Shows x → x.isNaN = false ∧
        ∃ l ∈ (Lexer.scan source).lexemes, l.token = .number x := by
  have hnumeral (x : Float) (hx : v.Shows x) : x.isNaN = false ∧
      ∃ l ∈ (Lexer.scan source).lexemes, l.token = .number x := by
    obtain ⟨l, hl, htoken⟩ := Reader.exists_numeral_of_shows hbody hs hx
    exact ⟨Lexer.isNaN_of_mem_scan hl htoken, l, hl, htoken⟩
  refine ⟨?_, hnumeral⟩
  rw [Value.json, String.toList_ofList, Value.isText_jsonChars_iff]
  refine forall₂_congr fun x hx => ?_
  exact Decimal.isFinite_iff_of_isNaN (hnumeral x hx).1

/-- A source with a list of a fraction, a text of two lines and statements in braces. -/
def listSource : String := "a = [-1.50, \x22x\\ny\x22, \x7b n = 7 b \x7b\x7d \x7d]"

/-- The statements become a list, in which a block is its name. -/
theorem isText_json_iff_list :
    ∃ v span, .attribute "a" v span ∈ (Document.read listSource).statements ∧
      v.json = "[-1.5,\x22x\\ny\x22,[\x7b\x22n\x22:7\x7d,\x22b\x22]]" ∧
      Json.IsText v.json.toList := by
  have hread : ∃ a ∈ Attributes.ofStatements (Document.read listSource).statements,
      a.1 = "a" ∧ a.2.json = "[-1.5,\x22x\\ny\x22,[\x7b\x22n\x22:7\x7d,\x22b\x22]]" := by
    decide +kernel
  have hletters : ∀ cs ∈ (Lexer.scan listSource).lexemes.map (·.token.display.toList),
      'i' ∉ cs ∧ 'N' ∉ cs := by
    decide +kernel
  obtain ⟨⟨key, v⟩, hmem, rfl, hjson⟩ := hread
  obtain ⟨span, hs⟩ := Attributes.exists_of_mem hmem
  obtain ⟨hiff, hshown⟩ := isText_json_iff listSource .root hs
  refine ⟨v, span, hs, hjson, hiff.mpr fun x hx => ?_⟩
  obtain ⟨hnan, l, hl, htoken⟩ := hshown x hx
  rw [← Decimal.isFinite_iff_of_isNaN hnan]
  by_contra hfinite
  -- A numeral that is not finite would be displayed as a word.
  obtain ⟨hi, hn⟩ := hletters _ (List.mem_map_of_mem hl)
  rw [htoken, Token.display, Decimal.ofFloat, String.toList_ofList] at hi hn
  obtain ⟨c, hc, rfl | rfl⟩ :=
    Decimal.Binary.exists_letter_of_not_isFinite (Bool.eq_false_iff.mpr hfinite)
  · exact hi hc
  · exact hn hc

/-- An attribute whose numeral is too great for a double. -/
def greatNumeral : List Char := "a = 1".toList ++ List.replicate 309 '0'

/-- Its value is written as a word. -/
theorem exists_json_not_isText :
    ∃ v span, .attribute "a" v span ∈ (Document.read (String.ofList greatNumeral)).statements ∧
      v.json = "inf" ∧ ¬ Json.IsText v.json.toList := by
  have hread : ∃ a ∈ Attributes.ofStatements
      (Reader.document (Lexer.scanFrom {} greatNumeral).lexemes).1,
      a.1 = "a" ∧ a.2.json = "inf" := by
    decide +kernel
  have hstatements : (Document.read (String.ofList greatNumeral)).statements =
      (Reader.document (Lexer.scanFrom {} greatNumeral).lexemes).1 := by
    rw [statements_eq, Lexer.scan, String.toList_ofList]
  rw [← hstatements] at hread
  obtain ⟨⟨key, v⟩, hmem, rfl, hjson⟩ := hread
  obtain ⟨span, hs⟩ := Attributes.exists_of_mem hmem
  refine ⟨v, span, hs, hjson, fun htext => ?_⟩
  rw [hjson] at htext
  have hbare : 'i' ∈ Json.bare .outside "inf".toList := by decide
  exact (htext.wordless.bare 'i' hbare).1 rfl

end Document

end Flowchart
