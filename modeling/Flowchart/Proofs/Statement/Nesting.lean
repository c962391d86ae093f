import Flowchart.Document
import Flowchart.Proofs.Statement.Moves
import Flowchart.Proofs.Table
import Flowchart.Proofs.Token.Accounting

/-!
# Statements nest as they are written

Statements stand in lists: the document, the bodies of blocks and what the values of attributes hold
in braces. The reader reads the statements of a list one behind the other, and what stands in a
statement from the lexemes that it consumes for it (`ReadIn`, `item_holds`). It does so whatever is
missing or left out, for it never goes back.

The lexemes of a source do not overlap and only the end is without bytes (`scan_inOrder`). So the
spans of statements are those of the lexemes consumed for them, they stand apart within a list and
lie within the span of the statement around it (`read_nests`).
-/

namespace Flowchart

/-! ## What stands in what -/

/-- The value holds these statements in braces, in an array or an object at whatever depth. -/
inductive Value.Holds : Value → List Statement → Prop
  /-- The statements themselves. -/
  | nested (body : List Statement) : Holds (.nested body) body
  /-- What an item of a list holds. -/
  | list {items : List Value} {v : Value} {body : List Statement} (hv : v ∈ items)
    (h : Holds v body) : Holds (.list items) body
  /-- What a value of an object holds. -/
  | object {entries : List (String × Value)} {key : String} {v : Value} {body : List Statement}
    (hv : (key, v) ∈ entries) (h : Holds v body) : Holds (.object entries) body

namespace Statement

/-- These statements are the body of a block or stand in the value of an attribute. -/
inductive Holds : Statement → List Statement → Prop
  /-- A block holds its body. -/
  | block (name : String) (labels : List String) (body : List Statement) (span : Span) :
    Holds (.block name labels body span) body
  /-- An attribute holds what its value does. -/
  | assigned {key : String} {v : Value} {span : Span} {body : List Statement}
    (h : v.Holds body) : Holds (.attribute key v span) body

/-- The name of a block or the key of an attribute. -/
def name : Statement → String
  | .attribute key _ _ => key
  | .block name _ _ _ => name

/-- The lists of statements in a document, at whatever depth. -/
inductive InTree (document : List Statement) : List Statement → Prop
  /-- The statements of the document. -/
  | root : InTree document document
  /-- Statements that a statement of the tree holds. -/
  | inner {body inner : List Statement} {s : Statement} (hbody : InTree document body)
    (hs : s ∈ body) (h : s.Holds inner) : InTree document inner

end Statement

/-- An entry of the attributes among statements is one of the statements. -/
theorem Attributes.exists_of_mem {body : List Statement} {key : String} {v : Value}
    (h : (key, v) ∈ Attributes.ofStatements body) : ∃ span, .attribute key v span ∈ body := by
  have hpair : ∀ {pairs : List (String × Value)}, (key, v) ∈ Table.ofPairs pairs →
      (key, v) ∈ pairs := by
    intro pairs
    induction pairs using List.reverseRecOn with
    | nil => exact id
    | append_singleton pairs p ih =>
      intro hp
      rw [Table.ofPairs_concat] at hp
      rcases Table.mem_put hp with ⟨rfl, rfl⟩ | hp
      · exact List.mem_append_right _ List.mem_cons_self
      · exact List.mem_append_left _ (ih hp)
  obtain ⟨s, hs, hattribute⟩ := List.mem_filterMap.mp (hpair h)
  match s with
  | .attribute key' v' span =>
    obtain ⟨rfl, rfl⟩ := Prod.mk.inj (Option.some.inj hattribute)
    exact ⟨span, hs⟩
  | .block .. => exact nomatch hattribute

/-- The mark of a lexeme covers the bytes of the lexeme. -/
theorem Lexer.Mark.span_eq {m : Mark} {l : Lexeme} (h : m.lexeme? = some l) : m.span = l.span := by
  cases m with
  | lexeme l' => exact congrArg Lexeme.span (Option.some.inj h)
  | problem p => cases h

/-- A part of a text that has a character lies in it and is not empty. -/
theorem Lexer.Slice.lt_and_le {source part : List Char} {s : Span}
    (h : Slice source s part) (hpart : part ≠ []) :
    s.start < s.stop ∧ s.stop ≤ byteLength source := by
  obtain ⟨before, after, rfl, hstart, hstop⟩ := h
  have hpos : 0 < byteLength part := by
    cases part with
    | nil => exact absurd rfl hpart
    | cons c cs =>
      have hsize := c.utf8Size_pos
      rw [byteLength]
      omega
  rw [byteLength_append] at hstop
  rw [byteLength_append, byteLength_append]
  omega

namespace Reader

/-- What a value in braces holds are its statements or what stands in them. -/
theorem braced_holds {body inner : List Statement} (h : (braced body).Holds inner) :
    inner = body ∨ ∃ s ∈ body, s.Holds inner := by
  rw [braced] at h
  split at h
  · cases h
    exact .inl rfl
  · cases h with
    | object hv h =>
      obtain ⟨span, hs⟩ := Attributes.exists_of_mem hv
      exact .inr ⟨_, hs, .assigned h⟩

/-- A value of a single token holds no statements. -/
theorem not_holds_scalar {t : Token} {v : Value} (hv : scalar? t = some v)
    (inner : List Statement) : ¬ v.Holds inner := by
  unfold scalar? at hv
  split at hv <;> cases hv <;> exact nofun

/-! ## What is left of the lexemes -/

variable {ls rest : List Lexeme}

/-- A run leaves the last of the lexemes ahead. -/
theorem Run.suffix {a b : Spot} {ms : List Move} {ps : List SyntaxProblem} (h : Run a ms b ps) :
    b.ahead <:+ a.ahead := ⟨_, h.taken⟩

/-- Where fewer lexemes are left than there were, the first of them is gone. -/
theorem suffix_of_suffix_cons {l : Lexeme} (h : rest <:+ l :: ls)
    (hle : rest.length ≤ ls.length) : rest <:+ ls := by
  rcases List.suffix_cons_iff.mp h with rfl | h
  · rw [List.length_cons] at hle
    omega
  · exact h

/-- Behind a token that is asked for, a part of the lexemes is left. -/
theorem expect_suffix (wanted : TokenClass) (hw : wanted ≠ .finish) (last : Span)
    (ls : List Lexeme) : (expect wanted last ls).rest <:+ ls := by
  obtain ⟨m, -, hrun⟩ := expect_moves wanted hw last ls
  exact hrun.suffix

/-- Behind an item a part of the lexemes is left. -/
theorem item_suffix {first : Lexeme} {name : String} (hfirst : first.token = .name name)
    (ls : List Lexeme) : (item first name ls).rest <:+ ls := by
  obtain ⟨ms, -, hrun⟩ := item_moves hfirst .nowhere ls
  exact suffix_of_suffix_cons hrun.suffix (item first name ls).rest_le

/-- Behind a value a part of the lexemes is left. -/
theorem value_suffix {first : Lexeme} (hfirst : first.isEnd = false) (ls : List Lexeme) :
    (value first ls).rest <:+ ls := by
  obtain ⟨ms, -, hrun⟩ := value_moves hfirst .nowhere ls
  exact suffix_of_suffix_cons hrun.suffix (value first ls).rest_le

/-- Behind the items of a list a part of the lexemes is left. -/
theorem items_suffix (last : Span) (ls : List Lexeme) : (items last ls).rest <:+ ls := by
  obtain ⟨ms, -, hrun⟩ := items_moves last ls
  exact hrun.suffix

/-! ## Statements behind each other -/

/-- Statements are read one behind the other from the lexemes, all of them in front of those that
are left. -/
inductive ReadIn : List Lexeme → List Statement → List Lexeme → Prop
  /-- No statement is read. -/
  | nil {ls rest : List Lexeme} (h : rest <:+ ls) : ReadIn ls [] rest
  /-- A statement is read before the others. -/
  | cons {ls after behind rest : List Lexeme} {first : Lexeme} {name : String} {s : Statement}
    {body : List Statement} (hls : first :: after <:+ ls) (hfirst : first.token = .name name)
    (hs : (item first name after).value = s) (hbehind : (item first name after).rest = behind)
    (hbody : ReadIn behind body rest) : ReadIn ls (s :: body) rest

variable {statements : List Statement}

/-- The lexemes in front of those from which statements are read do not matter. -/
theorem ReadIn.widen (h : ReadIn ls statements rest) {all : List Lexeme} (hls : ls <:+ all) :
    ReadIn all statements rest := by
  cases h with
  | nil h => exact .nil (h.trans hls)
  | cons hfront hfirst hs hbehind hbody =>
    exact .cons (hfront.trans hls) hfirst hs hbehind hbody

/-- Nor do those that are left. -/
theorem ReadIn.shorten (h : ReadIn ls statements rest) {fewer : List Lexeme}
    (hfewer : fewer <:+ rest) : ReadIn ls statements fewer := by
  induction h with
  | nil h => exact .nil (hfewer.trans h)
  | cons hls hfirst hs hbehind _ ih => exact .cons hls hfirst hs hbehind (ih hfewer)

/-- What is left stands behind everything read. -/
theorem ReadIn.suffix (h : ReadIn ls statements rest) : rest <:+ ls := by
  induction h with
  | nil h => exact h
  | cons hls hfirst _ hbehind _ ih =>
    have hrest := hbehind ▸ item_suffix hfirst _
    exact (ih.trans hrest).trans ((List.suffix_cons _ _).trans hls)

/-- Each of the statements is read somewhere among the lexemes. -/
theorem ReadIn.exists_item (h : ReadIn ls statements rest) {s : Statement} (hs : s ∈ statements) :
    ∃ first name after, first :: after <:+ ls ∧ first.token = .name name ∧
      (item first name after).value = s ∧ rest <:+ (item first name after).rest := by
  induction h with
  | nil => exact nomatch hs
  | @cons ls after behind rest first name s' body hls hfirst hread hbehind hbody ih =>
    rcases List.mem_cons.mp hs with rfl | hs
    · exact ⟨first, name, after, hls, hfirst, hread, hbehind ▸ hbody.suffix⟩
    · obtain ⟨first', name', after', hls', hfirst', hread', hrest'⟩ := ih hs
      have hinner : behind <:+ ls :=
        (hbehind ▸ item_suffix hfirst after).trans ((List.suffix_cons _ _).trans hls)
      exact ⟨first', name', after', hls'.trans hinner, hfirst', hread', hrest'⟩

/-- The statements of a block are read in its body. -/
theorem body_readIn (name : String) (last : Span) (ls : List Lexeme) :
    ReadIn ls (body name last ls).value (body name last ls).rest := by
  cases ls with
  | nil =>
    rw [body]
    exact .nil List.suffix_rfl
  | cons l rest =>
    rw [body]
    cases hl : l.token with
    | name s =>
      have hshort := (item l s rest).rest_le
      exact .cons List.suffix_rfl hl rfl rfl
        (body_readIn name (item l s rest).last (item l s rest).rest)
    | closeBrace => exact .nil List.suffix_rfl
    | finish => exact .nil List.suffix_rfl
    -- Any other lexeme is left out, and the body goes on behind it.
    | _ => exact (body_readIn name l.span rest).widen (List.suffix_cons l rest)
termination_by ls.length
decreasing_by all_goals (subst ls; simp only [List.length_cons]; omega)

/-- The statements in braces are read in them. -/
theorem fields_readIn (last : Span) (ls : List Lexeme) :
    ReadIn ls (fields last ls).value (fields last ls).rest := by
  cases ls with
  | nil =>
    rw [fields]
    exact .nil List.suffix_rfl
  | cons l rest =>
    rw [fields]
    cases hl : l.token with
    | name s =>
      dsimp only
      generalize hitem : item l s rest = r
      obtain ⟨statement, reached, afterItem, problems, hle⟩ := r
      have hs : (item l s rest).value = statement := by rw [hitem]
      have hbehind : (item l s rest).rest = afterItem := by rw [hitem]
      cases afterItem with
      | nil => exact .cons List.suffix_rfl hl hs hbehind (.nil List.suffix_rfl)
      | cons c afterComma =>
        have hshort : afterComma.length + 1 ≤ rest.length := hle
        by_cases hc : c.token = .comma
        · simp only [if_pos hc]
          have hmore := (fields_readIn c.span afterComma).widen (List.suffix_cons c afterComma)
          exact .cons List.suffix_rfl hl hs hbehind hmore
        · simp only [if_neg hc]
          exact .cons List.suffix_rfl hl hs hbehind (fields_readIn reached (c :: afterComma))
    | closeBrace => exact .nil List.suffix_rfl
    | finish => exact .nil List.suffix_rfl
    -- A lexeme that starts no item is skipped.
    | _ => exact (fields_readIn l.span rest).widen (List.suffix_cons l rest)
termination_by ls.length
decreasing_by all_goals (subst ls; simp only [List.length_cons]; omega)

/-- The statements of a document are read in it. -/
theorem document_readIn (ls : List Lexeme) : ReadIn ls (document ls).1 [] := by
  cases ls with
  | nil =>
    rw [document]
    exact .nil List.suffix_rfl
  | cons l rest =>
    rw [document]
    cases hl : l.token with
    | finish => exact .nil List.nil_suffix
    | name s =>
      have hshort := (item l s rest).rest_le
      exact .cons List.suffix_rfl hl rfl rfl (document_readIn (item l s rest).rest)
    | _ => exact (document_readIn rest).widen (List.suffix_cons l rest)
termination_by ls.length
decreasing_by all_goals (subst ls; simp only [List.length_cons]; omega)

/-- Each value of an array is read in it. -/
theorem items_mem (last : Span) : ∀ ls : List Lexeme, ∀ v ∈ (items last ls).value,
    ∃ first after, first :: after <:+ ls ∧ (value first after).value = v ∧
      (items last ls).rest <:+ (value first after).rest
  | [], v, hv => by
    rw [items] at hv
    exact nomatch hv
  | l :: rest, v, hv => by
    rw [items] at hv ⊢
    by_cases hl : l.token = .closeBracket ∨ l.isEnd
    · rw [if_pos hl] at hv
      exact nomatch hv
    · rw [if_neg hl] at hv ⊢
      have hend : l.isEnd = false := Bool.eq_false_iff.mpr fun hend => hl (.inr hend)
      have hbehind := value_suffix hend rest
      generalize hvalue : value l rest = r at hv hbehind ⊢
      obtain ⟨w, reached, afterValue, problems, hle⟩ := r
      have hw : (value l rest).value = w := by rw [hvalue]
      have hafter : (value l rest).rest = afterValue := by rw [hvalue]
      cases afterValue with
      | nil =>
        obtain rfl := List.mem_singleton.mp hv
        exact ⟨l, rest, List.suffix_rfl, hw, List.nil_suffix⟩
      | cons c afterComma =>
        by_cases hc : c.token = .comma
        · simp only [if_pos hc] at hv ⊢
          have hshort : afterComma.length + 1 ≤ rest.length := hle
          have hcomma := List.suffix_cons c afterComma
          rcases List.mem_cons.mp hv with rfl | hv
          · -- The value is the first one, or one of those behind the comma.
            exact ⟨l, rest, List.suffix_rfl, hw,
              hafter ▸ (items_suffix c.span afterComma).trans hcomma⟩
          · obtain ⟨first, after, hls, hread, hrest⟩ := items_mem c.span afterComma v hv
            have hall : afterComma <:+ l :: rest :=
              hcomma.trans (hbehind.trans (List.suffix_cons l rest))
            exact ⟨first, after, hls.trans hall, hread, hrest⟩
        · simp only [if_neg hc] at hv ⊢
          obtain rfl := List.mem_singleton.mp hv
          exact ⟨l, rest, List.suffix_rfl, hw, hafter ▸ List.suffix_rfl⟩
termination_by ls => ls.length
decreasing_by all_goals (simp only [List.length_cons]; omega)

/-! ## What stands in a statement -/

/-- What a block holds is read from the lexemes behind its name. -/
theorem block_holds {first : Lexeme} {name : String} {ls : List Lexeme} {inner : List Statement}
    (h : (block first name ls).value.Holds inner) : ReadIn ls inner (block first name ls).rest := by
  obtain ⟨hle, heq⟩ := block_eq first name ls
  rw [heq] at h ⊢
  cases h with
  | block =>
    -- The body stands between the opening and the closing brace.
    obtain ⟨taken, -, hlabels⟩ := labels_moves ls first.span
    have hopened := (expect_suffix .openBrace TokenClass.noConfusion
      (labels ls first.span).last _).trans hlabels.suffix
    have hclosed := expect_suffix .closeBrace TokenClass.noConfusion
    exact ((body_readIn name _ _).widen hopened).shorten (hclosed _ _)

mutual

/-- What a statement holds is read from the lexemes that are consumed for it behind its name. -/
theorem item_holds {first : Lexeme} {name : String} {inner : List Statement} :
    ∀ ls : List Lexeme, (item first name ls).value.Holds inner →
      ReadIn ls inner (item first name ls).rest
  | [], h => by
    have hblock : item first name [] = block first name [] :=
      item_block_eq fun _ _ hls => nomatch hls
    rw [hblock] at h ⊢
    exact block_holds h
  | l :: rest, h => by
    by_cases hl : l.token = .equals
    · rw [item, if_pos hl] at h ⊢
      cases h with
      | assigned h => exact (valueIn_holds l.span rest h).widen (List.suffix_cons l rest)
    · have hblock : item first name (l :: rest) = block first name (l :: rest) :=
        item_block_eq fun l' rest' hls => (List.cons.inj hls).1 ▸ hl
      rw [hblock] at h ⊢
      exact block_holds h
termination_by ls => ls.length
decreasing_by all_goals (simp only [List.length_cons]; omega)

/-- What the value of an attribute holds is read from the lexemes behind the equals sign. -/
theorem valueIn_holds (last : Span) {inner : List Statement} : ∀ ls : List Lexeme,
    (valueIn last ls).value.Holds inner → ReadIn ls inner (valueIn last ls).rest
  | [], h => by
    rw [valueIn] at h
    exact nomatch h
  | l :: rest, h => by
    rw [valueIn] at h ⊢
    by_cases hl : l.isEnd
    · rw [if_pos hl] at h
      exact nomatch h
    · rw [if_neg hl] at h ⊢
      exact (value_holds rest h).widen (List.suffix_cons l rest)
termination_by ls => ls.length
decreasing_by all_goals (simp only [List.length_cons]; omega)

/-- What a value holds is read from the lexemes that are consumed for it behind its first. -/
theorem value_holds {first : Lexeme} {inner : List Statement} (ls : List Lexeme)
    (h : (value first ls).value.Holds inner) :
    ReadIn ls inner (value first ls).rest := by
  have scalar {v : Value} (hv : scalar? first.token = some v) :
      ReadIn ls inner (value first ls).rest := by
    rw [value_scalar_eq hv] at h
    exact absurd h (not_holds_scalar hv inner)
  cases hf : first.token with
  | openBracket =>
    obtain ⟨hle, heq⟩ := value_array_eq hf ls
    rw [heq] at h ⊢
    cases h with
    | list hv h =>
      -- The list is held by one of the values.
      obtain ⟨l, after, hls, rfl, hrest⟩ := items_mem first.span ls _ hv
      have hshort := hls.length_le
      have hread := (value_holds after h).widen ((List.suffix_cons l after).trans hls)
      exact hread.shorten ((expect_suffix .closeBracket TokenClass.noConfusion _ _).trans hrest)
  | openBrace =>
    obtain ⟨hle, heq⟩ := value_braces_eq hf ls
    rw [heq] at h ⊢
    have hfields := fields_readIn first.span ls
    have hclosed : (expect .closeBrace _ _).rest <:+ (fields first.span ls).rest :=
      expect_suffix .closeBrace TokenClass.noConfusion (fields first.span ls).last _
    -- The list is that in the braces, or one of its items holds it.
    rcases braced_holds h with rfl | ⟨s, hs, h⟩
    · exact hfields.shorten hclosed
    · obtain ⟨l, name, after, hls, -, rfl, hrest⟩ := hfields.exists_item hs
      have hshort := hls.length_le
      have hread := (item_holds after h).widen ((List.suffix_cons l after).trans hls)
      exact hread.shorten (hclosed.trans hrest)
  | text s => exact scalar (hf ▸ scalar?_text s)
  | number x => exact scalar (hf ▸ scalar?_number x)
  | name s => exact scalar (hf ▸ scalar?_name s)
  | _ =>
    rw [value, hf] at h
    exact nomatch h
termination_by ls.length
decreasing_by all_goals (simp only [List.length_cons] at *; omega)

end

/-! ## The lexemes consumed for a statement -/

/-- An item has the name that it starts with, and its span reaches from there to the lexeme consumed
last. -/
theorem item_name_span (first : Lexeme) (name : String) (ls : List Lexeme) :
    (item first name ls).value.name = name ∧
      (item first name ls).value.span = first.span.union (item first name ls).last := by
  have hblock : (block first name ls).value.name = name ∧
      (block first name ls).value.span = first.span.union (block first name ls).last := by
    obtain ⟨hle, heq⟩ := block_eq first name ls
    rw [heq]
    exact ⟨rfl, rfl⟩
  cases ls with
  | nil =>
    rw [item]
    exact hblock
  | cons l rest =>
    rw [item]
    split
    · exact ⟨rfl, rfl⟩
    · exact hblock

/-- The bytes of the lexeme taken last are those of the last one taken. -/
theorem reach_eq_getLastD (last : Span) (ms : List Move) :
    reach last ms = ((ms.filterMap Move.lexeme?).map Lexeme.span).getLastD last := by
  induction ms generalizing last with
  | nil => rfl
  | cons m ms ih =>
    rw [reach, List.foldl_cons, ← reach, ih]
    cases m with
    | take role l => exact (List.getLastD_cons ..).symm
    | miss fault => rfl

/-- The lexemes between the name of an item and those that are left are consumed for it, and the end
is not among them. -/
theorem item_taken {first : Lexeme} {name : String} (hfirst : first.token = .name name)
    (ls : List Lexeme) : ∃ more, more ++ (item first name ls).rest = ls ∧
      (∀ l ∈ first :: more, l.isEnd = false) ∧
      (item first name ls).last = ((first :: more).getLast (List.cons_ne_nil _ _)).span := by
  obtain ⟨ms, -, hrun⟩ := item_moves hfirst .nowhere ls
  obtain ⟨more, hmore⟩ := item_suffix hfirst ls
  have htaken : ms.filterMap Move.lexeme? = first :: more := by
    have happend : ms.filterMap Move.lexeme? ++ (item first name ls).rest = first :: ls :=
      hrun.taken
    exact List.append_cancel_right (happend.trans (congrArg (first :: ·) hmore.symm))
  refine ⟨more, hmore, fun l hl => hrun.isEnd_eq_false (htaken ▸ hl), ?_⟩
  have hlast : (item first name ls).last = reach .nowhere ms := hrun.last_eq
  rw [hlast, reach_eq_getLastD, htaken, List.getLastD_eq_getLast?, List.getLast?_map,
    List.getLast?_eq_some_getLast (List.cons_ne_nil first more)]
  rfl

/-! ## The order of lexemes -/

/-- No lexeme starts before the one in front of it stops, and only the end is without bytes. -/
structure InOrder (ls : List Lexeme) : Prop where
  /-- No lexeme starts before the one in front of it ends. -/
  apart : ls.Pairwise fun l l' => l.span.stop ≤ l'.span.start
  /-- Only the end of the source has no bytes. -/
  solid : ∀ l ∈ ls, l.isEnd = false → l.span.start < l.span.stop

/-- A part of lexemes in order is in order. -/
theorem InOrder.suffix {all : List Lexeme} (h : InOrder all) (hls : ls <:+ all) : InOrder ls :=
  ⟨h.apart.sublist hls.sublist, fun l hl => h.solid l (hls.mem hl)⟩

/-- Among some lexemes in front of others none stops behind the last. -/
theorem InOrder.stop_le_getLast {behind : List Lexeme} (h : InOrder (ls ++ behind)) (hls : ls ≠ [])
    {l : Lexeme} (hl : l ∈ ls) : l.span.stop ≤ (ls.getLast hls).span.stop := by
  have hapart := (List.pairwise_append.mp h.apart).1
  rw [← List.dropLast_append_getLast hls] at hl hapart
  rcases List.mem_append.mp hl with hl | hl
  · have hle := (List.pairwise_append.mp hapart).2.2 l hl _ List.mem_cons_self
    exact hle.trans (ls.getLast hls).span.start_le_stop
  · rw [List.mem_singleton.mp hl]

/-- The lexemes of a source are in order. -/
theorem scan_inOrder (source : String) : InOrder (Lexer.scan source).lexemes := by
  obtain ⟨marks, htiles, hscan⟩ := Lexer.scanFrom_tiles {} source.toList
  have hlexemes : (Lexer.scan source).lexemes = marks.filterMap Lexer.Mark.lexeme? ++
      [⟨.finish, Span.point (0 + Lexer.byteLength source.toList), _⟩] :=
    congrArg Lexer.Scan.lexemes hscan
  have hmark : ∀ l ∈ marks.filterMap Lexer.Mark.lexeme?,
      l.span.start < l.span.stop ∧ l.span.stop ≤ Lexer.byteLength source.toList := by
    intro l hl
    obtain ⟨m, hm, hml⟩ := List.mem_filterMap.mp hl
    have hoffset : 0 = Lexer.byteLength [] := rfl
    obtain ⟨part, -, hpart, hslice, -⟩ := htiles.exists_slice hoffset m hm
    rw [← Lexer.Mark.span_eq hml]
    exact hslice.lt_and_le hpart
  rw [hlexemes]
  constructor
  · refine List.pairwise_append.mpr ⟨?_, List.pairwise_singleton _ _, fun l hl l' hl' => ?_⟩
    · -- Marks stand apart, so those of lexemes do.
      refine htiles.pairwise.2.filterMap _ fun m m' hle l hl l' hl' => ?_
      rwa [Lexer.Mark.span_eq hl, Lexer.Mark.span_eq hl'] at hle
    · -- The end is a point behind the whole text.
      rw [List.mem_singleton.mp hl']
      show l.span.stop ≤ 0 + Lexer.byteLength source.toList
      rw [Nat.zero_add]
      exact (hmark l hl).2
  · intro l hl hend
    rcases List.mem_append.mp hl with hl | hl
    · exact (hmark l hl).1
    · rw [List.mem_singleton.mp hl] at hend
      exact nomatch hend

/-! ## Spans -/

/-- A statement is read from `first`, where its name stands, and from `more` behind it. Its span is
that of these lexemes and not empty. -/
structure Covers (ls : List Lexeme) (first : Lexeme) (more behind : List Lexeme) (s : Statement) :
    Prop where
  /-- The lexemes stand in a row. -/
  place : first :: (more ++ behind) <:+ ls
  /-- The first one is the name of the statement. -/
  token : first.token = .name s.name
  /-- From the name on, the reader reads the statement and leaves what is behind. -/
  read : (item first s.name (more ++ behind)).value = s ∧
    (item first s.name (more ++ behind)).rest = behind
  /-- The statement starts with the first of them. -/
  start : s.span.start = first.span.start
  /-- It stops with the last of them. -/
  stop : s.span.stop = ((first :: more).getLast (List.cons_ne_nil _ _)).span.stop
  /-- It has at least one byte. -/
  nonempty : s.span.start < s.span.stop

/-- An item covers the lexemes that the reader consumes for it. -/
theorem item_covers {first : Lexeme} {name : String} {after : List Lexeme} (horder : InOrder ls)
    (hls : first :: after <:+ ls) (hfirst : first.token = .name name) :
    ∃ more, Covers ls first more (item first name after).rest (item first name after).value := by
  obtain ⟨more, hmore, hsolid, hlast⟩ := item_taken hfirst after
  obtain ⟨hname, hspan⟩ := item_name_span first name after
  have hall : first :: (more ++ (item first name after).rest) <:+ ls := hmore.symm ▸ hls
  have hinner : InOrder ((first :: more) ++ (item first name after).rest) := horder.suffix hall
  have hfull := hinner.solid first List.mem_cons_self (hsolid first List.mem_cons_self)
  have hle := hinner.stop_le_getLast (List.cons_ne_nil first more) List.mem_cons_self
  -- Neither does the last lexeme start before the first nor stop before it.
  have hstart : (item first name after).value.span.start = first.span.start := by
    rw [hspan, hlast]
    rcases List.mem_cons.mp (List.getLast_mem (List.cons_ne_nil first more)) with heq | hmem
    · rw [heq]
      exact Nat.min_self _
    · have hbehind := (List.pairwise_cons.mp hinner.apart).1 _ (List.mem_append_left _ hmem)
      exact Nat.min_eq_left (by omega)
  have hstop : (item first name after).value.span.stop =
      ((first :: more).getLast (List.cons_ne_nil _ _)).span.stop := by
    rw [hspan, hlast]
    exact Nat.max_eq_right hle
  refine ⟨more, hall, hname.symm ▸ hfirst, ?_, hstart, hstop, by omega⟩
  rw [hname, hmore]
  exact ⟨rfl, rfl⟩

variable {first : Lexeme} {more behind : List Lexeme} {s : Statement}

/-- What is behind a statement starts where it stops or later. -/
theorem Covers.stop_le (h : Covers ls first more behind s) (horder : InOrder ls) {l : Lexeme}
    (hl : l ∈ behind) : s.span.stop ≤ l.span.start := by
  have hinner : InOrder ((first :: more) ++ behind) := horder.suffix h.place
  rw [h.stop]
  exact (List.pairwise_append.mp hinner.apart).2.2 _ (List.getLast_mem _) l hl

/-- A statement that is read from what is consumed for another one behind its name lies within that
one. -/
theorem Covers.contains {t : Statement} {first' : Lexeme} {more' behind' : List Lexeme}
    (h : Covers ls first more behind s) (horder : InOrder ls)
    (ht : Covers (more ++ behind) first' more' behind' t) (hbehind : behind <:+ behind') :
    s.span.start ≤ t.span.start ∧ t.span.stop ≤ s.span.stop := by
  have hinner : InOrder ((first :: more) ++ behind) := horder.suffix h.place
  -- What is consumed for the inner statement is a part of what is consumed for the outer one.
  obtain ⟨between, rfl⟩ := hbehind
  have hplace : first' :: more' ++ between <:+ more := by
    have hplace := ht.place
    rw [← List.append_assoc, ← List.cons_append, ← List.cons_append,
      List.suffix_append_self_iff] at hplace
    exact hplace
  have hmem : ∀ l ∈ first' :: more', l ∈ more := fun l hl =>
    hplace.mem (List.mem_append_left _ hl)
  constructor
  · rw [h.start, ht.start]
    have hstart := (List.pairwise_cons.mp hinner.apart).1 first'
      (List.mem_append_left _ (hmem first' List.mem_cons_self))
    have := first.span.start_le_stop
    omega
  · rw [h.stop, ht.stop]
    exact hinner.stop_le_getLast (List.cons_ne_nil _ _)
      (List.mem_cons_of_mem _ (hmem _ (List.getLast_mem _)))

/-- Statements that are read one behind the other cover lexemes in front of those that are left. -/
theorem ReadIn.exists_covers (h : ReadIn ls statements rest) (horder : InOrder ls)
    (hs : s ∈ statements) :
    ∃ first more behind, Covers ls first more behind s ∧ rest <:+ behind := by
  obtain ⟨first, name, after, hls, hfirst, rfl, hrest⟩ := h.exists_item hs
  obtain ⟨more, hcovers⟩ := item_covers horder hls hfirst
  exact ⟨first, more, _, hcovers, hrest⟩

/-- Their spans stand apart and in order. -/
theorem ReadIn.pairwise (h : ReadIn ls statements rest) (horder : InOrder ls) :
    statements.Pairwise fun s t => s.span.stop ≤ t.span.start := by
  induction h with
  | nil => exact .nil
  | @cons ls after behind rest first name s body hls hfirst hs hbehind hbody ih =>
    obtain ⟨more, hcovers⟩ := item_covers horder hls hfirst
    rw [hs, hbehind] at hcovers
    have hplace : behind <:+ ls := (List.suffix_append (first :: more) behind).trans hcovers.place
    refine .cons (fun t ht => ?_) (ih (horder.suffix hplace))
    obtain ⟨first', more', behind', ht, -⟩ := hbody.exists_covers (horder.suffix hplace) ht
    rw [ht.start]
    exact hcovers.stop_le horder (ht.place.mem List.mem_cons_self)

/-- What stands in a statement is read from what is consumed for it behind its name. -/
theorem Covers.readIn (h : Covers ls first more behind s) {inner : List Statement}
    (hinner : s.Holds inner) : ReadIn (more ++ behind) inner behind := by
  obtain ⟨hs, hbehind⟩ := h.read
  have hread := item_holds (more ++ behind) (hs.symm ▸ hinner)
  rwa [hbehind] at hread

/-- Every list of statements in a document is read from its lexemes. -/
theorem exists_readIn {document : List Statement} (h : ReadIn ls document rest)
    (horder : InOrder ls) {body : List Statement} (hbody : Statement.InTree document body) :
    ∃ left, ReadIn ls body left := by
  induction hbody with
  | root => exact ⟨rest, h⟩
  | inner _ hs hholds ih =>
    obtain ⟨left, hread⟩ := ih
    obtain ⟨first, more, behind, hcovers, -⟩ := hread.exists_covers horder hs
    have hplace : more ++ behind <:+ ls := (List.suffix_cons _ _).trans hcovers.place
    exact ⟨behind, (hcovers.readIn hholds).widen hplace⟩

/-- How the spans of the statements of a document lie, when it is read from these lexemes. -/
structure Nests (ls : List Lexeme) (document : List Statement) : Prop where
  /-- Every statement covers the lexemes from its name to the one consumed last for it. -/
  covers : ∀ body, Statement.InTree document body → ∀ s ∈ body,
    ∃ first more behind, Covers ls first more behind s
  /-- The statements of a list stand apart, in the order of the source. -/
  apart : ∀ body, Statement.InTree document body →
    body.Pairwise fun s t => s.span.stop ≤ t.span.start
  /-- A statement lies within the one that it stands in. -/
  within : ∀ body, Statement.InTree document body → ∀ s ∈ body, ∀ inner, s.Holds inner →
    ∀ t ∈ inner, s.span.start ≤ t.span.start ∧ t.span.stop ≤ s.span.stop

/-- **Statements nest as they are written**, in every source, whatever is wrong with it. -/
theorem read_nests (source : String) :
    Nests (Lexer.scan source).lexemes (Document.read source).statements := by
  have horder := scan_inOrder source
  have hread : ∀ body, Statement.InTree (Document.read source).statements body →
      ∃ left, ReadIn (Lexer.scan source).lexemes body left :=
    fun body hbody => exists_readIn (document_readIn (Lexer.scan source).lexemes) horder hbody
  refine ⟨fun body hbody s hs => ?_, fun body hbody => ?_,
    fun body hbody s hs inner hinner t ht => ?_⟩
  · obtain ⟨left, hbody⟩ := hread body hbody
    obtain ⟨first, more, behind, hcovers, -⟩ := hbody.exists_covers horder hs
    exact ⟨first, more, behind, hcovers⟩
  · obtain ⟨left, hbody⟩ := hread body hbody
    exact hbody.pairwise horder
  · obtain ⟨left, hbody⟩ := hread body hbody
    obtain ⟨first, more, behind, hcovers, -⟩ := hbody.exists_covers horder hs
    have horder' : InOrder (more ++ behind) :=
      horder.suffix ((List.suffix_cons _ _).trans hcovers.place)
    obtain ⟨first', more', behind', ht, hbehind⟩ :=
      (hcovers.readIn hinner).exists_covers horder' ht
    exact hcovers.contains horder ht hbehind

/-- Nothing that is a value stands behind the first key, an equals sign and a number stand where no
statement starts, and the body of the block is not closed. -/
def faultySource : String := "x = ] a \x22l\x22 \x7b = b = \x7b c \x7b \x7d , 5 \x7d"

/-- Four problems are found in such a source, and its four statements nest all the same. Each starts
with its name and stops with the last lexeme consumed for it: the first one with the bracket that is
no value, the block with the brace that closes the value in it. -/
theorem read_nests_faulty :
    Nests (Lexer.scan faultySource).lexemes (Document.read faultySource).statements ∧
      (document (Lexer.scan faultySource).lexemes).2.map SyntaxProblem.fault =
        [.notAValue, .strayInBlock "a", .expected .name, .expected .closeBrace] ∧
      (Document.read faultySource).statements.map (fun s => (s.name, s.span)) =
        [("x", .between 0 5), ("a", .between 6 33)] ∧
      (((Document.read faultySource).statements.filterMap Statement.block?).flatMap
        Block.body).map (fun s => (s.name, s.span)) = [("b", .between 16 33)] ∧
      (((((Document.read faultySource).statements.filterMap Statement.block?).flatMap
        Block.body).filterMap Statement.attribute?).flatMap
          fun p => (p.2.statements?.getD []).map fun s => (s.name, s.span)) =
        [("c", .between 22 27)] := by
  refine ⟨read_nests faultySource, ?_, ?_, ?_, ?_⟩ <;> decide +kernel

end Reader

end Flowchart
