import Flowchart.Proofs.Statement.Unambiguity
import Flowchart.Proofs.Table
import Flowchart.Statement.Reader

/-!
# Reading the tokens of a derivation

Where the tokens ahead are those of a tree, reading finds no problem, gives the meaning of the tree,
and stops behind it (`Gives`). Every production hands this on (`productions_reads`), so it holds of
every item and every value.
-/

namespace Flowchart.Reader

/-! ## Values in braces -/

/-- Statements lose their places one by one. -/
theorem unplacedBody_eq_map (body : List Statement) :
    unplacedBody body = body.map Statement.unplaced := by
  induction body with
  | nil => rfl
  | cons s body ih => rw [unplacedBody, ih, List.map_cons]

/-- The values of entries lose their places one by one. -/
theorem unplacedEntries_eq_map (entries : List (String × Value)) :
    unplacedEntries entries = entries.map fun p => (p.1, p.2.unplaced) := by
  induction entries with
  | nil => rfl
  | cons p entries ih => rw [unplacedEntries, ih, List.map_cons]

/-- Statements are all attributes, or one of them is a block. -/
theorem mapM_attribute? (body : List Statement) :
    body.mapM Statement.attribute? =
      if body.any (·.block?.isSome) then none else some (body.filterMap Statement.attribute?) := by
  induction body with
  | nil => rfl
  | cons s body ih =>
    rw [List.mapM_cons, ih, List.any_cons]
    match s with
    | .attribute key value span =>
      generalize body.any (·.block?.isSome) = hasBlock
      cases hasBlock <;> rfl
    | .block name labels inner span => rfl

/-- Leaving out places leaves the kinds of statements. -/
theorem any_block_unplaced (body : List Statement) :
    (body.map Statement.unplaced).any (·.block?.isSome) = body.any (·.block?.isSome) := by
  rw [List.any_map]
  congr 1
  funext s
  match s with
  | .attribute key value span => rfl
  | .block name labels inner span => rfl

/-- The attributes among statements without places. -/
theorem filterMap_attribute_unplaced (body : List Statement) :
    (body.map Statement.unplaced).filterMap Statement.attribute? =
      (body.filterMap Statement.attribute?).map fun p => (p.1, p.2.unplaced) := by
  rw [List.filterMap_map, List.map_filterMap]
  congr 1
  funext s
  match s with
  | .attribute key value span => rfl
  | .block name labels inner span => rfl

/-- The value of statements in braces is the one that the grammar gives them. -/
theorem braced_unplaced (body : List Statement) :
    (braced body).unplaced = bracesValue (unplacedBody body) := by
  rw [unplacedBody_eq_map, bracesValue, mapM_attribute?, any_block_unplaced,
    filterMap_attribute_unplaced, braced]
  split
  · rw [Value.unplaced, unplacedBody_eq_map]
  · rw [Value.unplaced, unplacedEntries_eq_map, Attributes.ofStatements, Table.map_ofPairs,
      Table.ofPairs_eq_filterMap]
    rfl

/-! ## The parts of a reading -/

/-- A name that no equals sign follows starts a block. -/
theorem item_block_eq {first : Lexeme} {name : String} {ls : List Lexeme}
    (h : ∀ l rest, ls = l :: rest → l.token ≠ .equals) :
    item first name ls = block first name ls := by
  cases ls with
  | nil =>
    rw [item]
    rfl
  | cons l rest => rw [item, if_neg (h l rest rfl)]

/-- A block is its labels, a brace, its body and a brace. -/
theorem block_eq (first : Lexeme) (name : String) (ls : List Lexeme) :
    let labelled := labels ls first.span
    let opened := expect .openBrace labelled.last labelled.rest
    let filled := body name opened.last opened.rest
    let closed := expect .closeBrace filled.last filled.rest
    ∃ h, block first name ls =
      ⟨.block name labelled.value filled.value (first.span.union closed.last), closed.last,
        closed.rest, opened.problems ++ filled.problems ++ closed.problems, h⟩ := by
  intro labelled opened filled closed
  refine ⟨Nat.le_trans closed.rest_le (Nat.le_trans filled.rest_le
    (Nat.le_trans opened.rest_le labelled.rest_le)), ?_⟩
  rw [block]

/-- An array is its values and a bracket. -/
theorem value_array_eq {first : Lexeme} (hf : first.token = .openBracket) (ls : List Lexeme) :
    let filled := items first.span ls
    let closed := expect .closeBracket filled.last filled.rest
    ∃ h, value first ls =
      ⟨.list filled.value, closed.last, closed.rest, filled.problems ++ closed.problems, h⟩ := by
  intro filled closed
  refine ⟨Nat.le_trans closed.rest_le filled.rest_le, ?_⟩
  rw [value, hf]
  rfl

/-- A value in braces is its items and a brace. -/
theorem value_braces_eq {first : Lexeme} (hf : first.token = .openBrace) (ls : List Lexeme) :
    let filled := fields first.span ls
    let closed := expect .closeBrace filled.last filled.rest
    ∃ h, value first ls =
      ⟨braced filled.value, closed.last, closed.rest, filled.problems ++ closed.problems, h⟩ := by
  intro filled closed
  refine ⟨Nat.le_trans closed.rest_le filled.rest_le, ?_⟩
  rw [value, hf]
  rfl

/-- A value of a single token is read from it. -/
theorem value_scalar_eq {first : Lexeme} {scalar : Value}
    (hs : scalar? first.token = some scalar) (ls : List Lexeme) :
    value first ls = ⟨scalar, first.span, ls, [], Nat.le_refl _⟩ := by
  rw [value, hs]

/-- The value of a text. -/
theorem scalar?_text (s : String) : scalar? (.text s) = some (ValueTree.text s).meaning := by
  rw [ValueTree.meaning]
  rfl

/-- The value of a number. -/
theorem scalar?_number (x : Float) : scalar? (.number x) = some (ValueTree.number x).meaning := by
  rw [ValueTree.meaning]
  rfl

/-- The value of a name. -/
theorem scalar?_name (s : String) : scalar? (.name s) = some (ValueTree.name s).meaning := by
  rw [ValueTree.meaning]
  by_cases ht : s = "true"
  · subst ht
    rfl
  · by_cases hf : s = "false"
    · subst hf
      rfl
    · rw [if_neg ht, if_neg hf]
      unfold scalar?
      split
      · rename_i h
        exact nomatch h
      · rename_i h
        exact nomatch h
      · rename_i h
        exact absurd (Token.name.inj h) ht
      · rename_i h
        exact absurd (Token.name.inj h) hf
      · rename_i h
        rw [Token.name.inj h]
      · rename_i h
        exact absurd rfl (h s)

/-! ## What a reading gives -/

/-- The tokens of lexemes. -/
def tokens (ls : List Lexeme) : List Token := ls.map Lexeme.token

/-- A reading finds no problem, gives a value that is `b` but for places, and leaves the tokens
`ts`. -/
structure Gives {α β : Type} {n : Nat} (erase : α → β) (r : Reading α n) (b : β)
    (ts : List Token) : Prop where
  /-- The value is this one, but for its places. -/
  value : erase r.value = b
  /-- These tokens are left. -/
  rest : tokens r.rest = ts
  /-- Nothing is wrong. -/
  problems : r.problems = []

/-- The lexemes that some tokens are those of. -/
theorem tokens_eq_cons {ls : List Lexeme} {tok : Token} {ts : List Token}
    (h : tokens ls = tok :: ts) : ∃ l rest, ls = l :: rest ∧ l.token = tok ∧ tokens rest = ts :=
  List.map_eq_cons_iff.mp h

/-- Expecting a lexeme that is there. -/
theorem expect_gives (wanted : TokenClass) {ls : List Lexeme} {tok : Token} {ts : List Token}
    (h : tokens ls = tok :: ts) (hw : tok.tokenClass = wanted) (last : Span) :
    Gives id (expect wanted last ls) () ts := by
  obtain ⟨l, rest, rfl, rfl, rfl⟩ := tokens_eq_cons h
  rw [expect, if_pos hw]
  exact ⟨rfl, rfl, rfl⟩

/-- Reading the labels of a block. -/
theorem labels_gives {texts : List String} {ts : List Token} {ls : List Lexeme}
    (h : tokens ls = texts.map Token.text ++ .openBrace :: ts) (last : Span) :
    Gives id (labels ls last) texts (.openBrace :: ts) := by
  induction texts generalizing ls last with
  | nil =>
    obtain ⟨l, rest, rfl, hl, rfl⟩ := tokens_eq_cons h
    rw [labels, hl]
    exact ⟨rfl, by rw [tokens, List.map_cons, hl]; rfl, rfl⟩
  | cons s texts ih =>
    obtain ⟨l, rest, rfl, hl, hrest⟩ := tokens_eq_cons h
    obtain ⟨hvalue, hts, hproblems⟩ := ih hrest l.span
    rw [labels, hl]
    exact ⟨congrArg (List.cons s) hvalue, hts, hproblems⟩

/-- The labels and the brace of a block do not start with an equals sign. -/
theorem noEquals_of_labels {texts : List String} {ts : List Token} {ls : List Lexeme}
    (h : tokens ls = texts.map Token.text ++ .openBrace :: ts) (l : Lexeme) (rest : List Lexeme)
    (hls : ls = l :: rest) : l.token ≠ .equals := by
  intro hl
  rw [hls, tokens, List.map_cons, hl] at h
  cases texts with
  | nil => exact nomatch (List.cons.inj h).1
  | cons s texts => exact nomatch (List.cons.inj h).1

/-- Where the tokens of an item are ahead, its meaning is read. -/
def ItemReads (t : ItemTree) : Prop :=
  ∀ (first : Lexeme) (name : String) (ls : List Lexeme) (ts : List Token),
    .name name :: tokens ls = t.tokens ++ ts →
      Gives Statement.unplaced (item first name ls) t.meaning ts

/-- Where the tokens of a value are ahead, its meaning is read. -/
def ValueReads (t : ValueTree) : Prop :=
  ∀ (first : Lexeme) (ls : List Lexeme) (ts : List Token),
    first.token :: tokens ls = t.tokens ++ ts →
      Gives Value.unplaced (value first ls) t.meaning ts

/-! ## Lists -/

/-- Reading the items of a block, up to its closing brace. -/
theorem body_gives {items : List ItemTree} (hitems : ∀ t ∈ items, ItemReads t) (name : String)
    (last : Span) {ls : List Lexeme} {ts : List Token}
    (h : tokens ls = itemTokens items ++ .closeBrace :: ts) :
    Gives unplacedBody (body name last ls) (itemMeanings items) (.closeBrace :: ts) := by
  induction items generalizing ls last with
  | nil =>
    rw [itemTokens, List.nil_append] at h
    obtain ⟨l, rest, rfl, hl, rfl⟩ := tokens_eq_cons h
    rw [body]
    simp only [hl]
    exact ⟨rfl, h, rfl⟩
  | cons t items ih =>
    obtain ⟨s, more, ht⟩ := t.tokens_eq_cons
    rw [itemTokens, List.append_assoc, ht] at h
    obtain ⟨l, rest, rfl, hl, hrest⟩ := tokens_eq_cons h
    have hitem := hitems t List.mem_cons_self l s rest (itemTokens items ++ .closeBrace :: ts)
      (by rw [hrest, ht]; rfl)
    rw [body]
    simp only [hl]
    generalize item l s rest = r at hitem
    obtain ⟨hv, hts, hp⟩ := hitem
    obtain ⟨hvs, hts', hps⟩ := ih (fun t ht => hitems t (List.mem_cons_of_mem _ ht)) r.last hts
    refine ⟨?_, hts', ?_⟩
    · rw [unplacedBody, itemMeanings, hv, hvs]
    · rw [hp, hps, List.append_nil]

/-- Reading the items in braces, up to the closing brace. -/
theorem fields_gives {fs : List (ItemTree × Bool)} (hfs : ∀ f ∈ fs, ItemReads f.1) (last : Span)
    {ls : List Lexeme} {ts : List Token} (h : tokens ls = fieldTokens fs ++ .closeBrace :: ts) :
    Gives unplacedBody (fields last ls) (fieldMeanings fs) (.closeBrace :: ts) := by
  induction fs generalizing ls last with
  | nil =>
    rw [fieldTokens, List.nil_append] at h
    obtain ⟨l, rest, rfl, hl, rfl⟩ := tokens_eq_cons h
    rw [fields]
    simp only [hl]
    exact ⟨rfl, h, rfl⟩
  | cons f fs ih =>
    obtain ⟨t, comma⟩ := f
    obtain ⟨s, more, ht⟩ := t.tokens_eq_cons
    simp only [fieldTokens, List.append_assoc, ht] at h
    obtain ⟨l, rest, rfl, hl, hrest⟩ := tokens_eq_cons h
    have hitem := hfs (t, comma) List.mem_cons_self l s rest
      ((if comma then [.comma] else []) ++ (fieldTokens fs ++ .closeBrace :: ts))
      (by rw [hrest, ht]; rfl)
    have hmore : ∀ f ∈ fs, ItemReads f.1 := fun f hf => hfs f (List.mem_cons_of_mem _ hf)
    rw [fields]
    simp only [hl]
    generalize item l s rest = r at hitem
    obtain ⟨statement, last, afterItem, problems, hle⟩ := r
    obtain ⟨hv, hts, hp⟩ := hitem
    dsimp only at hv hts hp
    cases comma with
    | true =>
      obtain ⟨c, afterComma, rfl, hc, hafter⟩ := tokens_eq_cons hts
      obtain ⟨hvs, hts', hps⟩ := ih hmore c.span hafter
      simp only [hc, if_true]
      refine ⟨?_, hts', ?_⟩
      · rw [unplacedBody, fieldMeanings, hv, hvs]
      · rw [hp, hps, List.append_nil]
    | false =>
      rw [if_neg Bool.false_ne_true, List.nil_append] at hts
      obtain ⟨hvs, hts', hps⟩ := ih hmore last hts
      cases afterItem with
      | nil =>
        have hne : fieldTokens fs ++ .closeBrace :: ts ≠ [] := by simp
        exact absurd hts.symm hne
      | cons c afterComma =>
        -- Behind the item stands another one or the closing brace, so no comma is consumed.
        have hc : c.token ≠ .comma := fun hc =>
          fieldTokens_ne_comma fs ts (tokens afterComma) (by rw [← hts, ← hc]; rfl)
        simp only [if_neg hc]
        refine ⟨?_, hts', ?_⟩
        · rw [unplacedBody, fieldMeanings, hv, hvs]
        · rw [hp, hps, List.append_nil]

/-- A lexeme with which a value can start neither closes an array nor is the end. -/
theorem not_closes_of_startsValue {l : Lexeme} (h : l.token.StartsValue) :
    ¬ (l.token = .closeBracket ∨ l.isEnd) := by
  rintro (hl | hl)
  · rw [hl] at h
    exact h
  · have hl' : l.token = .finish := eq_of_beq hl
    rw [hl'] at h
    exact h

/-- Reading the last value of an array, if it is there. -/
theorem items_gives_last {t : Option ValueTree} (ht : ∀ t' ∈ t, ValueReads t') (last : Span)
    {ls : List Lexeme} {ts : List Token} (h : tokens ls = lastTokens t ++ .closeBracket :: ts) :
    Gives unplacedItems (items last ls) (lastMeanings t) (.closeBracket :: ts) := by
  cases t with
  | none =>
    rw [lastTokens, List.nil_append] at h
    obtain ⟨l, rest, rfl, hl, rfl⟩ := tokens_eq_cons h
    rw [items, if_pos (.inl hl)]
    exact ⟨rfl, h, rfl⟩
  | some t =>
    obtain ⟨tok, more, htok, hstart⟩ := t.tokens_eq_cons
    rw [lastTokens, htok] at h
    obtain ⟨l, rest, rfl, rfl, hrest⟩ := tokens_eq_cons h
    -- Behind the value stands the closing bracket and no comma, so the array ends here.
    have hvalue := ht t rfl l rest (.closeBracket :: ts) (by rw [hrest, htok]; rfl)
    rw [items, if_neg (not_closes_of_startsValue hstart)]
    generalize value l rest = r at hvalue
    obtain ⟨v, last, afterValue, problems, hle⟩ := r
    obtain ⟨hv, hts, hp⟩ := hvalue
    dsimp only at hv hts hp
    obtain ⟨c, afterBracket, rfl, hc, rfl⟩ := tokens_eq_cons hts
    have hcomma : c.token ≠ .comma := fun hcomma =>
      Token.noConfusion (hc.symm.trans hcomma)
    simp only [if_neg hcomma]
    refine ⟨?_, hts, hp⟩
    rw [unplacedItems, unplacedItems, hv, lastMeanings]

/-- Reading the values of an array, up to the closing bracket. -/
theorem items_gives {init : List ValueTree} (hinit : ∀ t ∈ init, ValueReads t)
    {t : Option ValueTree} (ht : ∀ t' ∈ t, ValueReads t') (last : Span) {ls : List Lexeme}
    {ts : List Token} (h : tokens ls = initTokens init ++ (lastTokens t ++ .closeBracket :: ts)) :
    Gives unplacedItems (items last ls) (initMeanings init ++ lastMeanings t)
      (.closeBracket :: ts) := by
  induction init generalizing ls last with
  | nil =>
    rw [initTokens, List.nil_append] at h
    rw [initMeanings, List.nil_append]
    exact items_gives_last ht last h
  | cons t' init ih =>
    obtain ⟨tok, more, htok, hstart⟩ := t'.tokens_eq_cons
    rw [initTokens, List.append_assoc, htok] at h
    obtain ⟨l, rest, rfl, rfl, hrest⟩ := tokens_eq_cons h
    -- Behind the value stands a comma, so the array goes on.
    have hvalue := hinit t' List.mem_cons_self l rest
      (.comma :: (initTokens init ++ (lastTokens t ++ .closeBracket :: ts)))
      (by rw [hrest, htok]; rfl)
    rw [items, if_neg (not_closes_of_startsValue hstart)]
    generalize value l rest = r at hvalue
    obtain ⟨v, last, afterValue, problems, hle⟩ := r
    obtain ⟨hv, hts, hp⟩ := hvalue
    dsimp only at hv hts hp
    obtain ⟨c, afterComma, rfl, hc, hafter⟩ := tokens_eq_cons hts
    obtain ⟨hvs, hts', hps⟩ := ih (fun t ht => hinit t (List.mem_cons_of_mem _ ht)) c.span hafter
    simp only [if_pos hc]
    refine ⟨?_, hts', ?_⟩
    · rw [unplacedItems, hv, hvs, initMeanings, List.cons_append]
    · rw [hp, hps, List.append_nil]

/-! ## Productions -/

/-- Reading the value of an attribute. -/
theorem valueIn_gives {t : ValueTree} (ht : ValueReads t) (last : Span) {ls : List Lexeme}
    {ts : List Token} (h : tokens ls = t.tokens ++ ts) :
    Gives Value.unplaced (valueIn last ls) t.meaning ts := by
  obtain ⟨tok, more, htok, hstart⟩ := t.tokens_eq_cons
  rw [htok] at h
  obtain ⟨l, rest, rfl, rfl, hrest⟩ := tokens_eq_cons h
  have hvalue := ht l rest ts (by rw [hrest, htok]; rfl)
  rw [valueIn, if_neg fun hend => not_closes_of_startsValue hstart (.inr hend)]
  exact ⟨hvalue.value, hvalue.rest, hvalue.problems⟩

/-- Reading the labels and the body of a block. -/
theorem block_gives {items : List ItemTree} (hitems : ∀ t ∈ items, ItemReads t) (first : Lexeme)
    (name : String) {texts : List String} {ls : List Lexeme} {ts : List Token}
    (h : tokens ls =
      texts.map Token.text ++ .openBrace :: (itemTokens items ++ .closeBrace :: ts)) :
    Gives Statement.unplaced (block first name ls)
      (.block name texts (itemMeanings items) .nowhere) ts := by
  -- The labels, the brace, the items and the closing brace are read one after the other.
  have hlabels := labels_gives h first.span
  have hopen := expect_gives .openBrace hlabels.rest rfl
  have hbody := fun l l' => body_gives hitems name l (hopen l').rest
  have hclose := fun l l' => expect_gives .closeBrace (hbody l l').rest rfl
  obtain ⟨hle, heq⟩ := block_eq first name ls
  rw [heq]
  refine ⟨?_, (hclose _ _ _).rest, ?_⟩
  · rw [Statement.unplaced, (hbody _ _).value]
    exact congrArg (fun texts => Statement.block name texts _ _) hlabels.value
  · rw [(hopen _).problems, (hbody _ _).problems, (hclose _ _ _).problems]
    rfl

/-- Reading a value of a single token. -/
theorem scalar_reads {t : ValueTree} {tok : Token} (ht : t.tokens = [tok])
    (hs : scalar? tok = some t.meaning) (hm : t.meaning.unplaced = t.meaning) : ValueReads t := by
  intro first ls ts h
  rw [ht] at h
  obtain ⟨hf, hts⟩ := List.cons.inj h
  rw [value_scalar_eq (hf ▸ hs)]
  exact ⟨hm, hts, rfl⟩

/-- Every production hands on that its tokens are read. -/
theorem productions_reads : Productions ItemReads ValueReads where
  assign key v hv first name ls ts h := by
    rw [ItemTree.tokens] at h
    obtain ⟨hname, hrest⟩ := List.cons.inj h
    obtain ⟨l, rest, rfl, hl, hts⟩ := tokens_eq_cons hrest
    obtain ⟨hvalue, hts', hp⟩ := valueIn_gives hv l.span hts
    rw [item, if_pos hl]
    refine ⟨?_, hts', hp⟩
    rw [Statement.unplaced, hvalue, ItemTree.meaning, Token.name.inj hname]
  block name' labels body hbody first name ls ts h := by
    rw [ItemTree.tokens] at h
    simp only [List.cons_append, List.append_assoc, List.nil_append] at h
    obtain ⟨hname, hrest⟩ := List.cons.inj h
    obtain ⟨hvalue, hts, hp⟩ := block_gives hbody first name hrest
    -- No sign of equality is behind the name, so it starts a block.
    rw [item_block_eq (noEquals_of_labels hrest)]
    refine ⟨?_, hts, hp⟩
    rw [hvalue, ItemTree.meaning, Token.name.inj hname]
  text s :=
    scalar_reads (by rw [ValueTree.tokens]) (scalar?_text s) (by rw [ValueTree.meaning]; rfl)
  number x :=
    scalar_reads (by rw [ValueTree.tokens]) (scalar?_number x) (by rw [ValueTree.meaning]; rfl)
  name s := by
    refine scalar_reads (by rw [ValueTree.tokens]) (scalar?_name s) ?_
    rw [ValueTree.meaning]
    -- Two names stand for truth values; all others are texts.
    split
    · rfl
    · split <;> rfl
  array init last hinit hlast first ls ts h := by
    rw [ValueTree.tokens] at h
    simp only [List.cons_append, List.append_assoc, List.nil_append] at h
    obtain ⟨hf, hrest⟩ := List.cons.inj h
    -- The values are read up to the bracket, which is the token expected then.
    have hitems := items_gives hinit hlast first.span hrest
    have hclose := expect_gives .closeBracket hitems.rest rfl
    obtain ⟨hle, heq⟩ := value_array_eq hf ls
    rw [heq]
    refine ⟨?_, (hclose _).rest, ?_⟩
    · rw [Value.unplaced, hitems.value, ValueTree.meaning]
    · rw [hitems.problems, (hclose _).problems]
      rfl
  braces fs hfs first ls ts h := by
    rw [ValueTree.tokens] at h
    simp only [List.cons_append, List.append_assoc, List.nil_append] at h
    obtain ⟨hf, hrest⟩ := List.cons.inj h
    have hfields := fields_gives hfs first.span hrest
    have hclose := expect_gives .closeBrace hfields.rest rfl
    obtain ⟨hle, heq⟩ := value_braces_eq hf ls
    rw [heq]
    refine ⟨?_, (hclose _).rest, ?_⟩
    · rw [braced_unplaced, hfields.value, ValueTree.meaning]
    · rw [hfields.problems, (hclose _).problems]
      rfl

end Flowchart.Reader
