import Flowchart.Proofs.Decimal.Doubles
import Flowchart.Proofs.Json.Shape
import Flowchart.Proofs.Statement.Nesting

/-!
# A value's text tells which value it is

Each part of a text ends where it can be seen to end, whatever follows it: a character of a string
can be read back (`readCharacter?_jsonChar`), a string ends at its quote, a number before a comma or
a closing mark. The first character of a value says what kind of value it is. So two values without
statements have different texts (`Value.json_eq_iff`), and that remains so when more follows
(`Value.jsonChars_append_inj`).
-/

namespace Flowchart

namespace Json

/-! ## Strings -/

/-- The number that a hexadecimal digit stands for. -/
def hexValue (c : Char) : ℕ := if c.isDigit then c.toNat - 48 else c.toNat - 87

/-- The character that an escape stands for, and what follows it. -/
def readEscape? : List Char → Option (Char × List Char)
  | [] => none
  | 'n' :: cs => some ('\n', cs)
  | 'r' :: cs => some ('\r', cs)
  | 't' :: cs => some ('\t', cs)
  | 'u' :: _ :: _ :: a :: b :: cs => some (Char.ofNat (16 * hexValue a + hexValue b), cs)
  | c :: cs => some (c, cs)

/-- The character at the front of the inside of a string, and what follows it. -/
def readCharacter? : List Char → Option (Char × List Char)
  | [] => none
  | c :: cs => if c = '\\' then readEscape? cs else some (c, cs)

/-- The digit of a number below sixteen has the value of the number. -/
theorem hexValue_digitChar {n : ℕ} (h : n < 16) : hexValue n.digitChar = n := by
  revert n
  decide

/-- A character of a string is read back. -/
theorem readCharacter?_jsonChar (c : Char) (cs : List Char) :
    readCharacter? (jsonChar c ++ cs) = some (c, cs) := by
  rw [jsonChar]
  split_ifs with hquote hescape hline hreturn htab hcontrol
  · rw [hquote]
    rfl
  · rw [hescape]
    rfl
  · rw [hline]
    rfl
  · rw [hreturn]
    rfl
  · rw [htab]
    rfl
  · -- A control character is read back from its number.
    show some (Char.ofNat (16 * hexValue (c.toNat / 16).digitChar +
      hexValue (c.toNat % 16).digitChar), cs) = some (c, cs)
    rw [hexValue_digitChar (by omega), hexValue_digitChar (by omega), Nat.div_add_mod,
      Char.ofNat_toNat]
  · exact if_neg hescape

section

variable {r s : List Char}

/-- Where the text of one character ends can be seen from the text. -/
theorem jsonChar_append_inj {c d : Char} (h : jsonChar c ++ r = jsonChar d ++ s) :
    c = d ∧ r = s := by
  have hread := readCharacter?_jsonChar c r
  rw [h, readCharacter?_jsonChar] at hread
  obtain ⟨rfl, rfl⟩ := Prod.mk.inj (Option.some.inj hread)
  exact ⟨rfl, rfl⟩

/-- Inside a string there is no quote that is not escaped. -/
theorem jsonChar_append_ne (c : Char) : jsonChar c ++ r ≠ '\x22' :: s := by
  intro h
  have hread := readCharacter?_jsonChar c r
  rw [h] at hread
  obtain ⟨rfl, rfl⟩ := Prod.mk.inj (Option.some.inj hread)
  exact absurd (List.cons.inj h).1 (by decide)

/-- A string ends where it is seen to end. -/
theorem characters_append_inj {cs ds : List Char}
    (h : cs.flatMap jsonChar ++ '\x22' :: r = ds.flatMap jsonChar ++ '\x22' :: s) :
    cs = ds ∧ r = s := by
  induction cs generalizing ds with
  | nil =>
    cases ds with
    | nil => exact ⟨rfl, (List.cons.inj h).2⟩
    | cons d ds =>
      rw [List.flatMap_cons, List.append_assoc] at h
      exact absurd h.symm (jsonChar_append_ne d)
  | cons c cs ih =>
    rw [List.flatMap_cons, List.append_assoc] at h
    cases ds with
    | nil => exact absurd h (jsonChar_append_ne c)
    | cons d ds =>
      rw [List.flatMap_cons, List.append_assoc] at h
      obtain ⟨rfl, hrest⟩ := jsonChar_append_inj h
      obtain ⟨rfl, rfl⟩ := ih hrest
      exact ⟨rfl, rfl⟩

/-- Where a string ends can be seen from the text: the quote that closes it is not escaped. -/
theorem jsonString_append_inj {a b : String} (h : jsonString a ++ r = jsonString b ++ s) :
    a = b ∧ r = s := by
  simp only [jsonString, List.cons_append, List.append_assoc, List.nil_append] at h
  obtain ⟨hchars, rfl⟩ := characters_append_inj (List.cons.inj h).2
  exact ⟨String.toList_inj.mp hchars, rfl⟩

/-! ## Numbers -/

/-- What follows a value in a longer text. -/
def Stops (cs : List Char) : Prop := ∀ c ∈ cs.head?, c ∈ [',', ']', '\x7d']

/-- A value may stand at the end of a text. -/
theorem stops_nil : Stops [] := nofun

/-- A value may stand before a comma or what closes a list or an object. -/
theorem stops_cons {c : Char} (h : c ∈ [',', ']', '\x7d']) (cs : List Char) : Stops (c :: cs) := by
  rintro d hd
  obtain rfl := Option.some.inj hd
  exact h

/-- A text in which nothing could follow a value ends where such a thing follows it. -/
theorem append_inj_of_stops {cs ds : List Char} (hcs : ∀ c ∈ cs, c ∉ [',', ']', '\x7d'])
    (hds : ∀ d ∈ ds, d ∉ [',', ']', '\x7d']) (hr : Stops r) (hs : Stops s)
    (h : cs ++ r = ds ++ s) : cs = ds ∧ r = s := by
  induction cs generalizing ds with
  | nil =>
    cases ds with
    | nil => exact ⟨rfl, h⟩
    | cons d ds =>
      obtain rfl : r = d :: (ds ++ s) := h
      exact absurd (hr d rfl) (hds d List.mem_cons_self)
  | cons c cs ih =>
    cases ds with
    | nil =>
      obtain rfl : c :: (cs ++ r) = s := h
      exact absurd (hs c rfl) (hcs c List.mem_cons_self)
    | cons d ds =>
      obtain ⟨rfl, hrest⟩ := List.cons.inj h
      obtain ⟨rfl, rfl⟩ := ih (fun c hc => hcs c (List.mem_cons_of_mem _ hc))
        (fun d hd => hds d (List.mem_cons_of_mem _ hd)) hrest
      exact ⟨rfl, rfl⟩

/-- No character of a number could follow a value. -/
theorem not_stop_of_mem_text (x : Float) :
    ∀ c ∈ (Decimal.Binary.ofFloat x).text .plain, c ∉ [',', ']', '\x7d'] := by
  intro c hc hstop
  simp only [List.mem_cons, List.not_mem_nil, or_false] at hstop
  rcases hstop with rfl | rfl | rfl <;> exact absurd (Decimal.Binary.mem_text hc) (by decide)

/-- Where a number ends can be seen from the text behind it, which goes on with no digit. -/
theorem number_append_inj {x y : Float} (hr : Stops r) (hs : Stops s)
    (h : (Decimal.Binary.ofFloat x).text .plain ++ r = (Decimal.Binary.ofFloat y).text .plain ++ s) :
    x = y ∧ r = s :=
  (append_inj_of_stops (not_stop_of_mem_text x) (not_stop_of_mem_text y) hr hs h).imp_left
    Decimal.Binary.text_ofFloat_inj

/-! ## Texts with commas between them -/

section

variable {α : Type} {write : α → List Char} {closing : Char}

/-- All texts but the first have a comma in front. -/
theorem intercalate_cons (cs : List Char) (texts : List (List Char)) :
    [','].intercalate (cs :: texts) = cs ++ texts.flatMap (',' :: ·) := by
  induction texts generalizing cs with
  | nil => simp
  | cons text texts ih =>
    rw [List.intercalate_cons_cons, ih, List.flatMap_cons]
    simp

/-- What follows the first of some texts tells the others, if each tells itself. -/
theorem flatMap_append_inj (hclosing : closing ∈ [']', '\x7d']) {as bs : List α}
    (hinj : ∀ a ∈ as, ∀ b ∈ bs, ∀ r s, Stops r → Stops s → write a ++ r = write b ++ s →
      a = b ∧ r = s)
    (h : (as.map write).flatMap (',' :: ·) ++ closing :: r =
      (bs.map write).flatMap (',' :: ·) ++ closing :: s) : as = bs ∧ r = s := by
  have hcomma : closing ≠ ',' := by
    rintro rfl
    exact absurd hclosing (by decide)
  have hstops (texts : List (List Char)) (cs : List Char) :
      Stops (texts.flatMap (',' :: ·) ++ closing :: cs) := by
    cases texts with
    | nil => exact stops_cons (List.mem_cons_of_mem _ hclosing) _
    | cons text texts => exact stops_cons List.mem_cons_self _
  induction as generalizing bs with
  | nil =>
    cases bs with
    | nil => exact ⟨rfl, (List.cons.inj h).2⟩
    | cons b bs => exact absurd (List.cons.inj h).1 hcomma
  | cons a as ih =>
    cases bs with
    | nil => exact absurd (List.cons.inj h).1.symm hcomma
    | cons b bs =>
      simp only [List.map_cons, List.flatMap_cons, List.cons_append, List.append_assoc] at h
      obtain ⟨rfl, hrest⟩ := hinj a List.mem_cons_self b List.mem_cons_self _ _ (hstops _ _)
        (hstops _ _) (List.cons.inj h).2
      obtain ⟨rfl, rfl⟩ := ih (fun a ha b hb => hinj a (List.mem_cons_of_mem _ ha) b
        (List.mem_cons_of_mem _ hb)) hrest
      exact ⟨rfl, rfl⟩

/-- Texts with commas between them tell what they were written for, up to the closing mark, which
none of them starts with. -/
theorem intercalate_append_inj (hclosing : closing ∈ [']', '\x7d']) {as bs : List α}
    (hfront : ∀ a r s, write a ++ r ≠ closing :: s)
    (hinj : ∀ a ∈ as, ∀ b ∈ bs, ∀ r s, Stops r → Stops s → write a ++ r = write b ++ s →
      a = b ∧ r = s)
    (h : [','].intercalate (as.map write) ++ closing :: r =
      [','].intercalate (bs.map write) ++ closing :: s) : as = bs ∧ r = s := by
  cases as with
  | nil =>
    cases bs with
    | nil => exact ⟨rfl, (List.cons.inj h).2⟩
    | cons b bs =>
      rw [List.map_cons, intercalate_cons, List.append_assoc] at h
      exact absurd h.symm (hfront b _ _)
  | cons a as =>
    cases bs with
    | nil =>
      rw [List.map_cons, intercalate_cons, List.append_assoc] at h
      exact absurd h (hfront a _ _)
    | cons b bs =>
      -- With a comma in front, the first text is one of those behind a comma.
      refine flatMap_append_inj hclosing hinj ?_
      rw [List.map_cons, List.map_cons, intercalate_cons, intercalate_cons] at h
      exact congrArg (',' :: ·) h

end

end

end Json

namespace Value

/-! ## Kinds -/

/-- The kinds of values whose texts start differently. -/
inductive Kind where
  /-- Nothing. -/
  | null
  /-- A text. -/
  | text
  /-- A number. -/
  | number
  /-- One of the two truth values. -/
  | truth (b : Bool)
  /-- Values in brackets. -/
  | list
  /-- Values by their keys. -/
  | object

/-- The kind of a value. A value with statements is written like a list. -/
def kind : Value → Kind
  | .null => .null
  | .text _ => .text
  | .number _ => .number
  | .truth b => .truth b
  | .list _ => .list
  | .object _ => .object
  | .nested _ => .list

/-- The kind of the values that start with a character. -/
def Kind.of? (c : Char) : Option Kind :=
  if c = 'n' then some .null
  else if c = '\x22' then some .text
  else if c = 't' then some (.truth true)
  else if c = 'f' then some (.truth false)
  else if c = '[' then some .list
  else if c = '\x7b' then some .object
  else if c.isDigit || c == '-' || c == 'i' || c == 'N' then some .number
  else none

/-- A digit starts a number. -/
theorem Kind.of?_digit {c : Char} (h : c.isDigit = true) : Kind.of? c = some .number := by
  have hne (d : Char) (hd : d.isDigit = false) : c ≠ d := by
    rintro rfl
    exact Bool.false_ne_true (hd.symm.trans h)
  rw [Kind.of?, if_neg (hne 'n' rfl), if_neg (hne '\x22' rfl), if_neg (hne 't' rfl),
    if_neg (hne 'f' rfl), if_neg (hne '[' rfl), if_neg (hne '\x7b' rfl), h]
  rfl

/-- The first character of a value says what kind of value it is. -/
theorem exists_jsonChars_cons (v : Value) :
    ∃ c cs, v.jsonChars = c :: cs ∧ Kind.of? c = some v.kind := by
  cases v with
  | null => exact ⟨'n', _, rfl, rfl⟩
  | text s => exact ⟨'\x22', _, rfl, rfl⟩
  | number x =>
    obtain ⟨c, cs, hc, hfront, -⟩ := (Decimal.Binary.ofFloat x).exists_unsigned_cons
    show ∃ c cs, (Decimal.Binary.ofFloat x).text .plain = c :: cs ∧ Kind.of? c = some .number
    rw [Decimal.Binary.text_plain, hc, Decimal.Binary.text.signed]
    split
    · exact ⟨'-', _, rfl, rfl⟩
    · refine ⟨c, _, rfl, ?_⟩
      rcases hfront with h | rfl | rfl
      · exact Kind.of?_digit h
      · rfl
      · rfl
  | truth b =>
    cases b with
    | true => exact ⟨'t', _, rfl, rfl⟩
    | false => exact ⟨'f', _, rfl, rfl⟩
  | list items => exact ⟨'[', _, rfl, rfl⟩
  | object entries => exact ⟨'\x7b', _, rfl, rfl⟩
  | nested body => exact ⟨'[', _, rfl, rfl⟩

variable {v w : Value} {r s : List Char}

/-- Texts that are equal start with values of the same kind. -/
theorem kind_eq (h : v.jsonChars ++ r = w.jsonChars ++ s) : v.kind = w.kind := by
  obtain ⟨c, cs, hc, hkind⟩ := v.exists_jsonChars_cons
  obtain ⟨d, ds, hd, hkind'⟩ := w.exists_jsonChars_cons
  rw [hc, hd] at h
  obtain rfl : c = d := (List.cons.inj h).1
  exact Option.some.inj (hkind.symm.trans hkind')

/-- No value starts with a mark that closes one. -/
theorem jsonChars_append_ne (v : Value) (r s : List Char) : v.jsonChars ++ r ≠ ']' :: s := by
  obtain ⟨c, cs, hc, hkind⟩ := v.exists_jsonChars_cons
  rw [hc]
  intro h
  obtain rfl : c = ']' := (List.cons.inj h).1
  exact nomatch hkind

/-! ## Values -/

/-- No statements are kept in the value, at whatever depth. -/
def Plain (v : Value) : Prop := ∀ body, ¬ v.Holds body

/-- The items of a list without statements have none. -/
theorem Plain.item {items : List Value} (h : (Value.list items).Plain) (hv : v ∈ items) :
    v.Plain := fun body hbody => h body (.list hv hbody)

/-- The values of an object without statements have none. -/
theorem Plain.entry {entries : List (String × Value)} (h : (Value.object entries).Plain)
    {e : String × Value} (he : e ∈ entries) : e.2.Plain :=
  fun body hbody => h body (.object he hbody)

/-- A list of values without statements has none. -/
theorem plain_list {items : List Value} (h : ∀ v ∈ items, v.Plain) : (Value.list items).Plain := by
  intro body hbody
  cases hbody with
  | list hv hbody => exact h _ hv body hbody

/-- An object of values without statements has none. -/
theorem plain_object {entries : List (String × Value)} (h : ∀ e ∈ entries, e.2.Plain) :
    (Value.object entries).Plain := by
  intro body hbody
  cases hbody with
  | object he hbody => exact h _ he body hbody

/-- A value that is made of statements is not plain. -/
theorem not_plain_nested (body : List Statement) : ¬ (Value.nested body).Plain :=
  fun h => h body (.nested body)

open Json in
/-- **The text of a value without statements tells the value**, whatever follows it. -/
theorem jsonChars_append_inj (hv : v.Plain) (hw : w.Plain) (hr : Stops r) (hs : Stops s)
    (h : v.jsonChars ++ r = w.jsonChars ++ s) : v = w ∧ r = s := by
  have hkind := kind_eq h
  induction v using Value.induction generalizing w r s with
  | null =>
    cases w with
    | null => exact ⟨rfl, List.append_cancel_left h⟩
    | _ => cases hkind
  | text a =>
    cases w with
    | text b => exact (jsonString_append_inj h).imp_left (congrArg text)
    | _ => cases hkind
  | number x =>
    cases w with
    | number y => exact (number_append_inj hr hs h).imp_left (congrArg number)
    | _ => cases hkind
  | truth a =>
    cases w with
    | truth b =>
      obtain rfl := Kind.truth.inj hkind
      exact ⟨rfl, List.append_cancel_left h⟩
    | _ => cases hkind
  | list items ih =>
    cases w with
    | list items' =>
      rw [jsonChars, jsonChars, jsonItems_eq, jsonItems_eq] at h
      simp only [List.cons_append, List.append_assoc, List.nil_append] at h
      refine (intercalate_append_inj List.mem_cons_self jsonChars_append_ne ?_
        (List.cons.inj h).2).imp_left (congrArg list)
      intro a ha b hb r s hr hs hab
      exact ih a ha (hv.item ha) (hw.item hb) hr hs hab (kind_eq hab)
    | nested body => exact absurd hw (not_plain_nested body)
    | _ => cases hkind
  | object entries ih =>
    cases w with
    | object entries' =>
      rw [jsonChars, jsonChars, jsonEntries_eq, jsonEntries_eq] at h
      simp only [List.cons_append, List.append_assoc, List.nil_append] at h
      refine (intercalate_append_inj (List.mem_cons_of_mem _ List.mem_cons_self) ?_ ?_
        (List.cons.inj h).2).imp_left (congrArg object)
      · intro e r s he
        exact absurd (List.cons.inj he).1 (by decide)
      · intro a ha b hb r s hr hs hab
        simp only [jsonEntry, List.append_assoc, List.cons_append] at hab
        -- First the key ends, then the value.
        obtain ⟨hkey, hrest⟩ := jsonString_append_inj hab
        have hvalue := (List.cons.inj hrest).2
        obtain ⟨hval, rfl⟩ := ih a ha (hv.entry ha) (hw.entry hb) hr hs hvalue (kind_eq hvalue)
        exact ⟨Prod.ext hkey hval, rfl⟩
    | _ => cases hkind
  | nested body => exact absurd hv (not_plain_nested body)

/-- **The JSON texts of two values without statements are the same only if the values are.** -/
theorem json_eq_iff (hv : v.Plain) (hw : w.Plain) : v.json = w.json ↔ v = w := by
  refine ⟨fun h => ?_, congrArg json⟩
  have hchars : v.jsonChars ++ [] = w.jsonChars ++ [] := by
    rw [String.ofList_inj.mp h]
  exact (jsonChars_append_inj hv hw Json.stops_nil Json.stops_nil hchars).1

/-- In an object with two keys, a quote is written otherwise than a quote behind a backslash, and a
list with the number 1 otherwise than one with the text. -/
theorem json_objects_ne :
    (Value.object [("say", .text "a\x22b\n"), ("many", .list [.number 1])]).json ≠
        (Value.object [("say", .text "a\\\x22b\n"), ("many", .list [.number 1])]).json ∧
      (Value.object [("say", .text "a\x22b\n"), ("many", .list [.number 1])]).json ≠
        (Value.object [("say", .text "a\x22b\n"), ("many", .list [.text "1"])]).json := by
  have htext (s : String) : (Value.text s).Plain := fun _ h => nomatch h
  have hnumber : (Value.number 1).Plain := fun _ h => nomatch h
  have hlist {v : Value} (hv : v.Plain) : (Value.list [v]).Plain :=
    plain_list (List.forall_mem_singleton.mpr hv)
  have hplain (s : String) {v : Value} (hv : v.Plain) :
      (Value.object [("say", .text s), ("many", .list [v])]).Plain :=
    plain_object (List.forall_mem_cons.mpr ⟨htext s, List.forall_mem_singleton.mpr (hlist hv)⟩)
  constructor
  · rw [Ne, json_eq_iff (hplain _ hnumber) (hplain _ hnumber)]
    simp
  · rw [Ne, json_eq_iff (hplain _ hnumber) (hplain _ (htext "1"))]
    simp

/-- The text of such an object. -/
example : (Value.object [("say", .text "a\x22b\n"), ("many", .list [.null, .truth true])]).json =
    "\x7b\x22say\x22:\x22a\\\x22b\\n\x22,\x22many\x22:[null,true]\x7d" := by
  decide +kernel

end Value

end Flowchart
