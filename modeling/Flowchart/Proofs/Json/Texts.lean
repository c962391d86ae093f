import Flowchart.Proofs.Decimal.Doubles
import Flowchart.Proofs.Json.Shape

/-!
# When a value's text is JSON

Every part of a value's text is written by a rule of the grammar, but for numbers that are not
finite. These are written as words, and outside its strings a JSON text has none of their letters
(`IsText.wordless`). So the text of a value is JSON exactly if all numbers shown in it are finite
(`Value.isText_jsonChars_iff`).
-/

namespace Flowchart

/-- The number is written somewhere in the text of the value. -/
inductive Value.Shows : Value → Float → Prop
  /-- A number shows itself. -/
  | number (x : Float) : Shows (.number x) x
  /-- A list shows what its items do. -/
  | list {items : List Value} {v : Value} {x : Float} (hv : v ∈ items) (h : Shows v x) :
    Shows (.list items) x
  /-- An object shows what its values do. -/
  | object {entries : List (String × Value)} {e : String × Value} {x : Float} (he : e ∈ entries)
    (h : Shows e.2 x) : Shows (.object entries) x
  /-- Statements show what the values of their attributes do. -/
  | nested {body : List Statement} {key : String} {v : Value} {span : Span} {x : Float}
    (hs : .attribute key v span ∈ body) (h : Shows v x) : Shows (.nested body) x

namespace Json

/-! ## Writing by the rules -/

/-- No character is a space that counts. -/
theorem isSpace_nil : IsSpace [] := nofun

/-- A mark needs no blanks. -/
theorem isMark_singleton (mark : Char) : IsMark mark [mark] :=
  ⟨[], [], isSpace_nil, isSpace_nil, rfl⟩

/-- The digit of a number below sixteen is a hexadecimal digit. -/
theorem isHexDigit_digitChar {n : ℕ} (h : n < 16) : IsHexDigit n.digitChar := by
  revert n
  unfold IsHexDigit
  decide

/-- Each character of a text is written as one character of a string. -/
theorem isCharacter_jsonChar (c : Char) : IsCharacter (jsonChar c) := by
  rw [jsonChar]
  split_ifs with hquote hescape hline hreturn htab hcontrol
  · exact .short (by decide)
  · exact .short (by decide)
  · exact .short (by decide)
  · exact .short (by decide)
  · exact .short (by decide)
  · have hzero : IsHexDigit '0' := .inl rfl
    exact .code hzero hzero (isHexDigit_digitChar (by omega)) (isHexDigit_digitChar (by omega))
  · exact .plain (by omega) hquote hescape

/-- A text that is written between quotes is a string. -/
theorem isString_jsonString (s : String) : IsString (jsonString s) := by
  have hcharacters : ∀ cs ∈ s.toList.map jsonChar, IsCharacter cs := by
    intro cs hcs
    obtain ⟨c, -, rfl⟩ := List.mem_map.mp hcs
    exact isCharacter_jsonChar c
  rw [jsonString, List.flatMap_def]
  exact .quoted hcharacters

/-- Texts with commas between them are listed. -/
theorem listed_intercalate : ∀ texts : List (List Char), Listed texts ([','].intercalate texts)
  | [] => .none
  | [text] => by
    rw [List.intercalate_singleton]
    exact .one text
  | text :: next :: texts => by
    rw [List.intercalate_cons_cons, List.append_assoc]
    exact .more (isMark_singleton ',') (List.cons_ne_nil _ _) (listed_intercalate (next :: texts))

/-- Values with commas between them and brackets around them are a value. -/
theorem isValue_array {texts : List (List Char)} (h : ∀ text ∈ texts, IsValue text) :
    IsValue ('[' :: [','].intercalate texts ++ [']']) :=
  .array (isMark_singleton '[') (isMark_singleton ']') (listed_intercalate texts) h

/-- Entries with commas between them and braces around them are a value. -/
theorem isValue_object {entries : List (String × Value)}
    (h : ∀ e ∈ entries, IsValue e.2.jsonChars) :
    IsValue ('\x7b' :: [','].intercalate (entries.map Value.jsonEntry) ++ ['\x7d']) := by
  have hinner : Listed ((entries.map fun e => ⟨jsonString e.1, [':'], e.2.jsonChars⟩).map
      Member.text) ([','].intercalate (entries.map Value.jsonEntry)) := by
    rw [List.map_map]
    exact listed_intercalate _
  refine .object (isMark_singleton '\x7b') (isMark_singleton '\x7d') hinner ?_ ?_ ?_
  · intro m hm
    obtain ⟨e, -, rfl⟩ := List.mem_map.mp hm
    exact isString_jsonString e.1
  · intro m hm
    obtain ⟨e, -, rfl⟩ := List.mem_map.mp hm
    exact isMark_singleton ':'
  · intro m hm
    obtain ⟨e, he, rfl⟩ := List.mem_map.mp hm
    exact h e he

/-- A value whose numbers are finite is written by the rules. -/
theorem isValue_jsonChars {v : Value} (h : ∀ x, v.Shows x → x.isFinite = true) :
    IsValue v.jsonChars := by
  induction v using Value.induction with
  | null => exact .null
  | text s => exact .string (isString_jsonString s)
  | number x => exact .number (Decimal.Binary.isNumber_of_isFinite (h x (.number x)))
  | truth b =>
    cases b with
    | true => exact .yes
    | false => exact .no
  | list items ih =>
    rw [Value.jsonChars, Value.jsonItems_eq]
    refine isValue_array fun text htext => ?_
    obtain ⟨v, hv, rfl⟩ := List.mem_map.mp htext
    exact ih v hv fun x hx => h x (.list hv hx)
  | object entries ih =>
    rw [Value.jsonChars, Value.jsonEntries_eq]
    exact isValue_object fun e he => ih e he fun x hx => h x (.object he hx)
  | nested body ih =>
    rw [Value.jsonChars, Value.jsonBody_eq]
    refine isValue_array fun text htext => ?_
    obtain ⟨s, hs, rfl⟩ := List.mem_map.mp htext
    match s, hs with
    | .attribute key v span, hs =>
      -- An attribute is written as an object with one entry.
      have hentry : ∀ e ∈ [(key, v)], IsValue e.2.jsonChars := List.forall_mem_singleton.mpr
        (ih key v span hs fun x hx => h x (.nested hs hx))
      have hobject := isValue_object hentry
      rw [List.map_singleton, List.intercalate_singleton] at hobject
      exact hobject
    | .block name _ _ _, _ => exact .string (isString_jsonString name)

/-! ## Outside of strings -/

/-- Where a character of a text stands: outside of strings, inside of one, or in one behind a
backslash. -/
inductive Mode where
  /-- Outside of strings. -/
  | outside
  /-- Inside of a string. -/
  | inside
  /-- Behind a backslash in a string. -/
  | escaped
  deriving DecidableEq

/-- Where the next character stands. -/
def Mode.next : Mode → Char → Mode
  | .outside, c => if c = '\x22' then .inside else .outside
  | .inside, c => if c = '\x22' then .outside else if c = '\\' then .escaped else .inside
  | .escaped, _ => .inside

/-- The characters of a text that stand outside of strings, and the quotes that open these. -/
def bare (mode : Mode) : List Char → List Char
  | [] => []
  | c :: cs => if mode = .outside then c :: bare (mode.next c) cs else bare (mode.next c) cs

/-- All strings of the text are closed in it. -/
def Closed (cs : List Char) : Prop := cs.foldl Mode.next .outside = .outside

variable {cs ds : List Char}

/-- The second of two texts is read from where the first one ends. -/
theorem bare_append (mode : Mode) (cs ds : List Char) :
    bare mode (cs ++ ds) = bare mode cs ++ bare (cs.foldl Mode.next mode) ds := by
  induction cs generalizing mode with
  | nil => rfl
  | cons c cs ih =>
    rw [List.cons_append, bare, bare, ih, List.foldl_cons]
    split
    · rfl
    · rfl

/-- Behind a text whose strings are closed, what stands bare in the next one is what does so
alone. -/
theorem Closed.bare_append (h : Closed cs) (ds : List Char) :
    bare .outside (cs ++ ds) = bare .outside cs ++ bare .outside ds := by
  rw [Json.bare_append, h]

/-- When all strings are closed in two texts, they are closed in both together. -/
theorem Closed.append (h : Closed cs) (h' : Closed ds) : Closed (cs ++ ds) := by
  rw [Closed, List.foldl_append, h, h']

/-- In a text without quotes everything stands outside of strings. -/
theorem closed_of_no_quote (h : ∀ c ∈ cs, c ≠ '\x22') : Closed cs ∧ bare .outside cs = cs := by
  induction cs with
  | nil => exact ⟨rfl, rfl⟩
  | cons c cs ih =>
    obtain ⟨hc, hcs⟩ := List.forall_mem_cons.mp h
    obtain ⟨hclosed, hbare⟩ := ih hcs
    have hnext : Mode.next .outside c = .outside := if_neg hc
    constructor
    · rw [Closed, List.foldl_cons, hnext, hclosed]
    · rw [bare, if_pos rfl, hnext, hbare]

/-- Nothing of a string but its opening quote stands outside of it. -/
theorem IsCharacter.stays_inside (h : IsCharacter cs) :
    cs.foldl Mode.next .inside = .inside ∧ bare .inside cs = [] := by
  have hplain {c : Char} (hquote : c ≠ '\x22') (hescape : c ≠ '\\') :
      Mode.next .inside c = .inside := by
    rw [Mode.next, if_neg hquote, if_neg hescape]
  -- A digit is neither the quote nor the backslash.
  have hhex {c : Char} (hc : IsHexDigit c) : Mode.next .inside c = .inside := by
    refine hplain ?_ ?_
    · rintro rfl
      exact absurd hc (by unfold IsHexDigit; decide)
    · rintro rfl
      exact absurd hc (by unfold IsHexDigit; decide)
  have hinside (c : Char) (cs : List Char) : bare .inside (c :: cs) = bare (Mode.next .inside c) cs :=
    if_neg Mode.noConfusion
  have hescaped (c : Char) (cs : List Char) : bare .escaped (c :: cs) = bare .inside cs :=
    if_neg Mode.noConfusion
  cases h with
  | plain hcontrol hquote hescape =>
    rw [List.foldl_cons, hinside, hplain hquote hescape]
    exact ⟨rfl, rfl⟩
  | short hc => exact ⟨rfl, rfl⟩
  | code ha hb hc hd =>
    have hback : Mode.next .inside '\\' = .escaped := rfl
    have hbehind : Mode.next .escaped 'u' = .inside := rfl
    constructor
    · simp only [List.foldl_cons, List.foldl_nil, hback, hbehind, hhex ha, hhex hb, hhex hc, hhex hd]
    · rw [hinside, hback, hescaped, hinside, hhex ha, hinside, hhex hb, hinside, hhex hc, hinside,
        hhex hd]
      rfl

/-- A string is closed in itself, and only the quote that opens it stands bare. -/
theorem IsString.closed (h : IsString cs) : Closed cs ∧ bare .outside cs = ['\x22'] := by
  obtain ⟨hcharacters⟩ := h
  rename_i characters
  have hinside : characters.flatten.foldl Mode.next .inside = .inside ∧
      bare .inside characters.flatten = [] := by
    induction characters with
    | nil => exact ⟨rfl, rfl⟩
    | cons cs characters ih =>
      obtain ⟨hcs, hmore⟩ := List.forall_mem_cons.mp hcharacters
      obtain ⟨hmode, hbare⟩ := hcs.stays_inside
      rw [List.flatten_cons, List.foldl_append, bare_append, hmode, hbare]
      exact ih hmore
  have hopen : Mode.next .outside '\x22' = .inside := rfl
  constructor
  · rw [Closed, List.cons_append, List.foldl_cons, hopen, List.foldl_append, hinside.1]
    rfl
  · rw [List.cons_append, bare, if_pos rfl, hopen, bare_append, hinside.1, hinside.2]
    rfl

/-! ## Words -/

/-- All strings of the text are closed in it, and outside of them there is no letter of a word for
what is not finite. -/
structure Wordless (cs : List Char) : Prop where
  /-- All strings of the text are closed in it. -/
  closed : Closed cs
  /-- Outside of them stands neither of the letters. -/
  bare : ∀ c ∈ Json.bare .outside cs, c ≠ 'i' ∧ c ≠ 'N'

/-- Two texts without words have none together. -/
theorem Wordless.append (h : Wordless cs) (h' : Wordless ds) : Wordless (cs ++ ds) := by
  refine ⟨h.closed.append h'.closed, ?_⟩
  rw [h.closed.bare_append]
  exact List.forall_mem_append.mpr ⟨h.bare, h'.bare⟩

/-- A text without quotes and without these letters has no words. -/
theorem wordless_of_forall (h : ∀ c ∈ cs, c ≠ '\x22' ∧ c ≠ 'i' ∧ c ≠ 'N') : Wordless cs := by
  obtain ⟨hclosed, hbare⟩ := closed_of_no_quote fun c hc => (h c hc).1
  exact ⟨hclosed, fun c hc => (h c (hbare ▸ hc)).2⟩

/-- The empty text has no words. -/
theorem wordless_nil : Wordless [] := wordless_of_forall nofun

/-- Blanks have no words. -/
theorem IsSpace.wordless (h : IsSpace cs) : Wordless cs := by
  refine wordless_of_forall fun c hc => ?_
  rcases h c hc with rfl | rfl | rfl | rfl <;> decide

/-- A mark that is neither a quote nor one of the letters has no words. -/
theorem IsMark.wordless {mark : Char} (hmark : mark ≠ '\x22' ∧ mark ≠ 'i' ∧ mark ≠ 'N')
    (h : IsMark mark cs) : Wordless cs := by
  obtain ⟨before, after, hbefore, hafter, rfl⟩ := h
  have hone : Wordless [mark] := wordless_of_forall (List.forall_mem_singleton.mpr hmark)
  exact hbefore.wordless.append (hone.append hafter.wordless)

/-- Digits have no words. -/
theorem IsDigits.wordless (h : IsDigits cs) : Wordless cs := by
  refine wordless_of_forall fun c hc => ?_
  have hdigit := h.digits c hc
  refine ⟨?_, ?_, ?_⟩ <;> rintro rfl <;> exact Bool.false_ne_true hdigit

/-- A number has no words: its only letters are those of an exponent. -/
theorem IsNumber.wordless (h : IsNumber cs) : Wordless cs := by
  obtain ⟨hsign, hwhole, hfraction, hexponent⟩ := h
  have hone {c : Char} (hc : c ≠ '\x22' ∧ c ≠ 'i' ∧ c ≠ 'N') : Wordless [c] :=
    wordless_of_forall (List.forall_mem_singleton.mpr hc)
  refine Wordless.append ?_ (Wordless.append ?_ (Wordless.append ?_ ?_))
  · rcases hsign with rfl | rfl
    · exact wordless_nil
    · exact hone (by decide)
  · cases hwhole with
    | zero => exact hone (by decide)
    | nonzero _ hdigits => exact hdigits.wordless
  · cases hfraction with
    | none => exact wordless_nil
    | some hdigits => exact (hone (by decide)).append hdigits.wordless
  · cases hexponent with
    | none => exact wordless_nil
    | @some e sign digits he hsign hdigits =>
      show Wordless ([e] ++ (sign ++ digits))
      refine (hone ?_).append (Wordless.append ?_ hdigits.wordless)
      · rcases he with rfl | rfl <;> decide
      · rcases hsign with rfl | rfl | rfl
        · exact wordless_nil
        · exact hone (by decide)
        · exact hone (by decide)

/-- What stands inside a string does not stand bare. -/
theorem IsString.wordless (h : IsString cs) : Wordless cs := by
  obtain ⟨hclosed, hbare⟩ := h.closed
  refine ⟨hclosed, ?_⟩
  rw [hbare]
  exact List.forall_mem_singleton.mpr (by decide)

/-- Texts without words have none with commas between them. -/
theorem Listed.wordless {texts : List (List Char)} (h : Listed texts cs)
    (htexts : ∀ text ∈ texts, Wordless text) : Wordless cs := by
  induction h with
  | none => exact wordless_nil
  | one text => exact htexts text List.mem_cons_self
  | more hcomma _ _ ih =>
    obtain ⟨hfirst, hmore⟩ := List.forall_mem_cons.mp htexts
    exact hfirst.append ((hcomma.wordless (by decide)).append (ih hmore))

/-- A value has no words outside its strings: the letters of its three names are others. -/
theorem IsValue.wordless (h : IsValue cs) : Wordless cs := by
  induction h with
  | null => exact wordless_of_forall (by simp)
  | yes => exact wordless_of_forall (by simp)
  | no => exact wordless_of_forall (by simp)
  | number h => exact h.wordless
  | string h => exact h.wordless
  | array hopening hclosing hinner _ ih =>
    exact (hopening.wordless (by decide)).append
      ((hinner.wordless ih).append (hclosing.wordless (by decide)))
  | object hopening hclosing hinner hkeys hcolons _ ih =>
    refine (hopening.wordless (by decide)).append
      (Wordless.append (hinner.wordless fun text htext => ?_) (hclosing.wordless (by decide)))
    obtain ⟨m, hm, rfl⟩ := List.mem_map.mp htext
    have hcolon := (hcolons m hm).wordless (by decide)
    exact (hkeys m hm).wordless.append (hcolon.append (ih m hm))

/-- **Outside its strings a JSON text has no letter of a word for what is not finite.** -/
theorem IsText.wordless (h : IsText cs) : Wordless cs := by
  obtain ⟨before, value, after, hbefore, hvalue, hafter, rfl⟩ := h
  exact hbefore.wordless.append (hvalue.wordless.append hafter.wordless)

/-! ## What stands bare in a value's text -/

/-- A character that is no quote opens no string. -/
theorem closed_singleton {c : Char} (h : c ≠ '\x22') : Closed [c] :=
  (closed_of_no_quote (List.forall_mem_singleton.mpr h)).1

/-- Marks around a text leave it as it is. -/
theorem Closed.between {a b : Char} (ha : a ≠ '\x22') (hb : b ≠ '\x22') (h : Closed cs) :
    Closed (a :: cs ++ [b]) ∧ ∀ c ∈ bare .outside cs, c ∈ bare .outside (a :: cs ++ [b]) := by
  have hfront : Closed ([a] ++ cs) := (closed_singleton ha).append h
  refine ⟨hfront.append (closed_singleton hb), fun c hc => ?_⟩
  show c ∈ bare .outside ([a] ++ cs ++ [b])
  rw [hfront.bare_append, (closed_singleton ha).bare_append]
  exact List.mem_append_left _ (List.mem_append_right _ hc)

/-- So do commas between texts. -/
theorem closed_intercalate : ∀ {texts : List (List Char)}, (∀ text ∈ texts, Closed text) →
    Closed ([','].intercalate texts) ∧ ∀ text ∈ texts, ∀ c ∈ bare .outside text,
      c ∈ bare .outside ([','].intercalate texts)
  | [], _ => ⟨rfl, nofun⟩
  | [text], h => by
    rw [List.intercalate_singleton]
    exact ⟨h text List.mem_cons_self, List.forall_mem_singleton.mpr fun _ hc => hc⟩
  | text :: next :: texts, h => by
    obtain ⟨hfirst, hmore⟩ := List.forall_mem_cons.mp h
    obtain ⟨hclosed, hbare⟩ := closed_intercalate hmore
    have hcomma : Closed (text ++ [',']) := hfirst.append (closed_singleton (by decide))
    rw [List.intercalate_cons_cons]
    refine ⟨hcomma.append hclosed, ?_⟩
    rw [hcomma.bare_append, hfirst.bare_append]
    refine List.forall_mem_cons.mpr ⟨fun c hc => ?_, fun text htext c hc => ?_⟩
    · exact List.mem_append_left _ (List.mem_append_left _ hc)
    · exact List.mem_append_right _ (hbare text htext c hc)

/-- So do both together. -/
theorem closed_bracketed {a b : Char} (ha : a ≠ '\x22') (hb : b ≠ '\x22')
    {texts : List (List Char)} (h : ∀ text ∈ texts, Closed text) :
    Closed (a :: [','].intercalate texts ++ [b]) ∧ ∀ text ∈ texts, ∀ c ∈ bare .outside text,
      c ∈ bare .outside (a :: [','].intercalate texts ++ [b]) := by
  obtain ⟨hclosed, hbare⟩ := closed_intercalate h
  obtain ⟨hall, hinner⟩ := hclosed.between ha hb
  exact ⟨hall, fun text htext c hc => hinner c (hbare text htext c hc)⟩

/-- The strings of an entry are closed when those of its value are, and what stands bare in the
value does so in the entry. -/
theorem closed_jsonEntry (key : String) {v : Value} (h : Closed v.jsonChars) :
    Closed (Value.jsonEntry (key, v)) ∧
      ∀ c ∈ bare .outside v.jsonChars, c ∈ bare .outside (Value.jsonEntry (key, v)) := by
  have hkey : Closed (jsonString key ++ [':']) :=
    (isString_jsonString key).closed.1.append (closed_singleton (by decide))
  have hentry : Value.jsonEntry (key, v) = jsonString key ++ [':'] ++ v.jsonChars :=
    List.append_cons ..
  rw [hentry, hkey.bare_append]
  exact ⟨hkey.append h, fun c hc => List.mem_append_right _ hc⟩

/-- A number is written without quotes. -/
theorem closed_number (x : Float) : Closed ((Decimal.Binary.ofFloat x).text .plain) ∧
    bare .outside ((Decimal.Binary.ofFloat x).text .plain) =
      (Decimal.Binary.ofFloat x).text .plain := by
  apply closed_of_no_quote
  rintro c hc rfl
  exact absurd (Decimal.Binary.mem_text hc) (by decide)

/-- An attribute is written as an object with one entry, a block as its name. -/
theorem closed_jsonStatement {s : Statement}
    (h : ∀ key v span, s = .attribute key v span → Closed v.jsonChars) :
    Closed (Value.jsonStatement s) :=
  match s with
  | .attribute key v span =>
    ((closed_jsonEntry key (h key v span rfl)).1.between (by decide) (by decide)).1
  | .block name _ _ _ => (isString_jsonString name).closed.1

/-- In the text of a value all strings are closed. -/
theorem closed_jsonChars (v : Value) : Closed v.jsonChars := by
  induction v using Value.induction with
  | null => rfl
  | text s => exact (isString_jsonString s).closed.1
  | number x => exact (closed_number x).1
  | truth b => cases b <;> rfl
  | list items ih =>
    rw [Value.jsonChars, Value.jsonItems_eq]
    exact (closed_bracketed (by decide) (by decide) (List.forall_mem_map.mpr ih)).1
  | object entries ih =>
    rw [Value.jsonChars, Value.jsonEntries_eq]
    refine (closed_bracketed (by decide) (by decide) (List.forall_mem_map.mpr fun e he => ?_)).1
    exact (closed_jsonEntry e.1 (ih e he)).1
  | nested body ih =>
    rw [Value.jsonChars, Value.jsonBody_eq]
    refine (closed_bracketed (by decide) (by decide) (List.forall_mem_map.mpr fun s hs => ?_)).1
    apply closed_jsonStatement
    rintro key v span rfl
    exact ih key v span hs

/-- A number that is shown in a value is written outside of strings. -/
theorem bare_of_shows {v : Value} {x : Float} (h : v.Shows x) :
    ∀ c ∈ (Decimal.Binary.ofFloat x).text .plain, c ∈ bare .outside v.jsonChars := by
  induction h with
  | number x =>
    rw [Value.jsonChars, (closed_number x).2]
    exact fun c hc => hc
  | @list items v x hv _ ih =>
    intro c hc
    have hclosed : ∀ text ∈ items.map Value.jsonChars, Closed text :=
      List.forall_mem_map.mpr fun v _ => closed_jsonChars v
    rw [Value.jsonChars, Value.jsonItems_eq]
    exact (closed_bracketed (by decide) (by decide) hclosed).2 _ (List.mem_map_of_mem hv) c (ih c hc)
  | @object entries e x he _ ih =>
    intro c hc
    have hclosed : ∀ text ∈ entries.map Value.jsonEntry, Closed text :=
      List.forall_mem_map.mpr fun e _ => (closed_jsonEntry e.1 (closed_jsonChars e.2)).1
    have hentry := (closed_jsonEntry e.1 (closed_jsonChars e.2)).2 c (ih c hc)
    rw [Value.jsonChars, Value.jsonEntries_eq]
    exact (closed_bracketed (by decide) (by decide) hclosed).2 _ (List.mem_map_of_mem he) c hentry
  | @nested body key v span x hs _ ih =>
    intro c hc
    have hclosed : ∀ text ∈ body.map Value.jsonStatement, Closed text :=
      List.forall_mem_map.mpr fun s _ => closed_jsonStatement fun _ v _ _ => closed_jsonChars v
    -- A statement is written as an object whose one entry has the value.
    obtain ⟨hentry, hvalue⟩ := closed_jsonEntry key (closed_jsonChars v)
    have hstatement : c ∈ bare .outside (Value.jsonStatement (.attribute key v span)) :=
      (hentry.between (by decide) (by decide)).2 c (hvalue c (ih c hc))
    rw [Value.jsonChars, Value.jsonBody_eq]
    exact (closed_bracketed (by decide) (by decide) hclosed).2 _ (List.mem_map_of_mem hs) c hstatement

end Json

open Json in
/-- **The text of a value is JSON exactly if the numbers shown in it are finite.** -/
theorem Value.isText_jsonChars_iff (v : Value) :
    IsText v.jsonChars ↔ ∀ x, v.Shows x → x.isFinite = true := by
  constructor
  · intro h x hx
    by_contra hfinite
    obtain ⟨c, hc, hletter⟩ :=
      Decimal.Binary.exists_letter_of_not_isFinite (Bool.eq_false_iff.mpr hfinite)
    obtain ⟨hi, hn⟩ := h.wordless.bare c (bare_of_shows hx c hc)
    exact hletter.elim hi hn
  · intro h
    exact ⟨[], _, [], isSpace_nil, isValue_jsonChars h, isSpace_nil, (List.append_nil _).symm⟩

end Flowchart
