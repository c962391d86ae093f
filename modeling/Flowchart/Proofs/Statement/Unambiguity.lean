import Flowchart.Proofs.Statement.Grammar

/-!
# Tokens determine the derivation

What stands before a tail of tokens determines both the tree that derives it and the tail
(`ItemTree.Determined`, `ValueTree.Determined`). Every production hands this on, for the first
tokens tell the productions apart and an item is followed by a token that no item goes on with. So a
document has at most one derivation (`itemTokens_inj`).
-/

namespace Flowchart

/-- The tokens before a tail determine an item. -/
def ItemTree.Determined (t : ItemTree) : Prop :=
  ∀ (t' : ItemTree) (r r' : List Token), t.tokens ++ r = t'.tokens ++ r' → t = t' ∧ r = r'

/-- The tokens before a tail determine a value. -/
def ValueTree.Determined (t : ValueTree) : Prop :=
  ∀ (t' : ValueTree) (r r' : List Token), t.tokens ++ r = t'.tokens ++ r' → t = t' ∧ r = r'

/-- A token with which a value can start. -/
def Token.StartsValue : Token → Prop
  | .text _ | .number _ | .name _ | .openBracket | .openBrace => True
  | _ => False

/-- Tokens that do not go on with an item. -/
def NoItem (ts : List Token) : Prop := ∀ s r, ts ≠ .name s :: r

/-! ## First tokens -/

/-- An item starts with a name. -/
theorem ItemTree.tokens_eq_cons (t : ItemTree) : ∃ s ts, t.tokens = .name s :: ts := by
  cases t with
  | assign key value => exact ⟨key, _, by rw [ItemTree.tokens]⟩
  | block name labels body => exact ⟨name, _, by rw [ItemTree.tokens]; rfl⟩

/-- A value starts with a token that starts values. -/
theorem ValueTree.tokens_eq_cons (t : ValueTree) :
    ∃ tok ts, t.tokens = tok :: ts ∧ tok.StartsValue := by
  cases t with
  | text s => exact ⟨.text s, [], by rw [ValueTree.tokens], trivial⟩
  | number x => exact ⟨.number x, [], by rw [ValueTree.tokens], trivial⟩
  | name s => exact ⟨.name s, [], by rw [ValueTree.tokens], trivial⟩
  | array init last => exact ⟨.openBracket, _, by rw [ValueTree.tokens]; rfl, trivial⟩
  | braces fields => exact ⟨.openBrace, _, by rw [ValueTree.tokens]; rfl, trivial⟩

/-- A closing bracket does not start a value. -/
theorem ValueTree.tokens_ne_closeBracket (t : ValueTree) (r r' : List Token) :
    t.tokens ++ r ≠ .closeBracket :: r' := by
  obtain ⟨tok, ts, ht, hs⟩ := t.tokens_eq_cons
  rw [ht]
  intro h
  rw [(List.cons.inj h).1] at hs
  exact hs

/-- A closing brace goes on with no item. -/
theorem noItem_closeBrace (r : List Token) : NoItem (.closeBrace :: r) :=
  fun _ _ h => nomatch (List.cons.inj h).1

/-- Nothing goes on with no item. -/
theorem noItem_nil : NoItem [] := fun _ _ h => nomatch h

/-- Items in braces go on with a name or end. -/
theorem fieldTokens_ne_comma (fields : List (ItemTree × Bool)) (r r' : List Token) :
    fieldTokens fields ++ .closeBrace :: r ≠ .comma :: r' := by
  cases fields with
  | nil =>
    rw [fieldTokens]
    exact fun h => nomatch (List.cons.inj h).1
  | cons f fs =>
    obtain ⟨t, comma⟩ := f
    obtain ⟨s, ts, ht⟩ := t.tokens_eq_cons
    rw [fieldTokens, ht]
    exact fun h => nomatch (List.cons.inj h).1

/-! ## Lists -/

/-- The labels of a block end before its brace. -/
theorem labelTokens_inj {labels labels' : List String} {r r' : List Token}
    (h : labels.map Token.text ++ .openBrace :: r = labels'.map Token.text ++ .openBrace :: r') :
    labels = labels' ∧ r = r' := by
  induction labels generalizing labels' with
  | nil =>
    cases labels' with
    | nil => exact ⟨rfl, (List.cons.inj h).2⟩
    | cons l ls => exact nomatch (List.cons.inj h).1
  | cons l ls ih =>
    cases labels' with
    | nil => exact nomatch (List.cons.inj h).1
    | cons l' ls' =>
      obtain ⟨hl, hls⟩ := List.cons.inj h
      obtain ⟨rfl, rfl⟩ := ih hls
      exact ⟨by rw [Token.text.inj hl], rfl⟩

/-- The items before a tail that goes on with none. -/
theorem itemTokens_determined {ts : List ItemTree} (hts : ∀ t ∈ ts, t.Determined)
    {ts' : List ItemTree} {r r' : List Token} (hr : NoItem r) (hr' : NoItem r')
    (h : itemTokens ts ++ r = itemTokens ts' ++ r') : ts = ts' ∧ r = r' := by
  induction ts generalizing ts' with
  | nil =>
    cases ts' with
    | nil => exact ⟨rfl, by simpa [itemTokens] using h⟩
    | cons t' ts' =>
      -- The tail would go on with the first item of the other list.
      obtain ⟨s, more, ht⟩ := t'.tokens_eq_cons
      rw [itemTokens, itemTokens, ht] at h
      exact absurd h (hr s _)
  | cons t ts ih =>
    cases ts' with
    | nil =>
      obtain ⟨s, more, ht⟩ := t.tokens_eq_cons
      rw [itemTokens, itemTokens, ht] at h
      exact absurd h.symm (hr' s _)
    | cons t' ts' =>
      rw [itemTokens, itemTokens, List.append_assoc, List.append_assoc] at h
      obtain ⟨rfl, hrest⟩ := hts t List.mem_cons_self t' _ _ h
      obtain ⟨rfl, hr⟩ := ih (fun t ht => hts t (List.mem_cons_of_mem _ ht)) hrest
      exact ⟨rfl, hr⟩

/-- The items before a closing brace, with their commas. -/
theorem fieldTokens_determined {fs : List (ItemTree × Bool)} (hfs : ∀ f ∈ fs, f.1.Determined)
    {fs' : List (ItemTree × Bool)} {r r' : List Token}
    (h : fieldTokens fs ++ .closeBrace :: r = fieldTokens fs' ++ .closeBrace :: r') :
    fs = fs' ∧ r = r' := by
  induction fs generalizing fs' with
  | nil =>
    cases fs' with
    | nil => exact ⟨rfl, by simpa [fieldTokens] using h⟩
    | cons f' fs' =>
      obtain ⟨t', comma'⟩ := f'
      obtain ⟨s, more, ht⟩ := t'.tokens_eq_cons
      rw [fieldTokens, fieldTokens, ht] at h
      exact nomatch (List.cons.inj h).1
  | cons f fs ih =>
    obtain ⟨t, comma⟩ := f
    cases fs' with
    | nil =>
      obtain ⟨s, more, ht⟩ := t.tokens_eq_cons
      rw [fieldTokens, fieldTokens, ht] at h
      exact nomatch (List.cons.inj h).1
    | cons f' fs' =>
      obtain ⟨t', comma'⟩ := f'
      simp only [fieldTokens, List.append_assoc] at h
      obtain ⟨rfl, hrest⟩ := hfs (t, comma) List.mem_cons_self t' _ _ h
      have hmore : ∀ f ∈ fs, f.1.Determined := fun f hf => hfs f (List.mem_cons_of_mem _ hf)
      -- What follows the item tells whether it has a comma behind it.
      cases comma with
      | false =>
        cases comma' with
        | false =>
          obtain ⟨rfl, hr⟩ := ih hmore hrest
          exact ⟨rfl, hr⟩
        | true => exact absurd hrest (fieldTokens_ne_comma fs r _)
      | true =>
        cases comma' with
        | false => exact absurd hrest.symm (fieldTokens_ne_comma fs' r' _)
        | true =>
          obtain ⟨rfl, hr⟩ := ih hmore (List.cons.inj hrest).2
          exact ⟨rfl, hr⟩

/-- The last value of an array, if it is there, before the closing bracket. -/
theorem lastTokens_determined {last : Option ValueTree} (hlast : ∀ t ∈ last, t.Determined)
    {last' : Option ValueTree} {r r' : List Token}
    (h : lastTokens last ++ .closeBracket :: r = lastTokens last' ++ .closeBracket :: r') :
    last = last' ∧ r = r' := by
  cases last with
  | none =>
    cases last' with
    | none =>
      rw [lastTokens] at h
      exact ⟨rfl, (List.cons.inj h).2⟩
    | some t' =>
      rw [lastTokens, lastTokens] at h
      exact absurd h.symm (t'.tokens_ne_closeBracket _ _)
  | some t =>
    cases last' with
    | none =>
      rw [lastTokens, lastTokens] at h
      exact absurd h (t.tokens_ne_closeBracket _ _)
    | some t' =>
      rw [lastTokens, lastTokens] at h
      obtain ⟨rfl, hr⟩ := hlast t rfl t' _ _ h
      exact ⟨rfl, (List.cons.inj hr).2⟩

/-- Where one array has its last value, another one has no value with a comma behind it. -/
theorem lastTokens_ne_init {last : Option ValueTree} (hlast : ∀ t ∈ last, t.Determined)
    (t' : ValueTree) (r r' : List Token) :
    lastTokens last ++ .closeBracket :: r ≠ t'.tokens ++ .comma :: r' := by
  cases last with
  | none =>
    rw [lastTokens]
    exact fun h => t'.tokens_ne_closeBracket _ _ h.symm
  | some t =>
    rw [lastTokens]
    exact fun h => nomatch (List.cons.inj (hlast t rfl t' _ _ h).2).1

/-- The values of an array before its closing bracket. -/
theorem initTokens_determined {init : List ValueTree} (hinit : ∀ t ∈ init, t.Determined)
    {last : Option ValueTree} (hlast : ∀ t ∈ last, t.Determined) {init' : List ValueTree}
    {last' : Option ValueTree} {r r' : List Token}
    (h : initTokens init ++ (lastTokens last ++ .closeBracket :: r) =
      initTokens init' ++ (lastTokens last' ++ .closeBracket :: r')) :
    init = init' ∧ last = last' ∧ r = r' := by
  induction init generalizing init' with
  | nil =>
    cases init' with
    | nil =>
      rw [initTokens, List.nil_append, List.nil_append] at h
      exact ⟨rfl, lastTokens_determined hlast h⟩
    | cons t' ts' =>
      rw [initTokens, initTokens, List.nil_append, List.append_assoc] at h
      exact absurd h (lastTokens_ne_init hlast t' _ _)
  | cons t ts ih =>
    have ht := hinit t List.mem_cons_self
    rw [initTokens, List.append_assoc] at h
    cases init' with
    | nil =>
      -- Here the value with a comma behind it would be the last one of the other array.
      rw [initTokens, List.nil_append] at h
      cases last' with
      | none =>
        rw [lastTokens] at h
        exact absurd h (t.tokens_ne_closeBracket _ _)
      | some t' =>
        rw [lastTokens] at h
        exact nomatch (List.cons.inj (ht t' _ _ h).2).1
    | cons t' ts' =>
      rw [initTokens, List.append_assoc] at h
      obtain ⟨rfl, hrest⟩ := ht t' _ _ h
      obtain ⟨rfl, hends⟩ := ih (fun t ht => hinit t (List.mem_cons_of_mem _ ht))
        (List.cons.inj hrest).2
      exact ⟨rfl, hends⟩

/-! ## Productions -/

/-- The second token tells an attribute from a block. -/
theorem assign_ne_block (key name : String) (value : ValueTree) (labels : List String)
    (body : List ItemTree) (r r' : List Token) :
    (ItemTree.assign key value).tokens ++ r ≠ (ItemTree.block name labels body).tokens ++ r' := by
  rw [ItemTree.tokens, ItemTree.tokens]
  intro h
  cases labels with
  | nil => exact nomatch (List.cons.inj (List.cons.inj h).2).1
  | cons l ls => exact nomatch (List.cons.inj (List.cons.inj h).2).1

/-- Every production hands on that tokens determine the tree. -/
theorem productions_determined : Productions ItemTree.Determined ValueTree.Determined where
  assign key value hvalue t' r r' h := by
    cases t' with
    | assign key' value' =>
      rw [ItemTree.tokens, ItemTree.tokens] at h
      obtain ⟨hkey, hrest⟩ := List.cons.inj h
      obtain ⟨rfl, hr⟩ := hvalue value' r r' (List.cons.inj hrest).2
      exact ⟨by rw [Token.name.inj hkey], hr⟩
    -- The second token tells an attribute from a block.
    | block name labels body => exact absurd h (assign_ne_block _ _ _ _ _ _ _)
  block name labels body hbody t' r r' h := by
    cases t' with
    | assign key value => exact absurd h.symm (assign_ne_block _ _ _ _ _ _ _)
    | block name' labels' body' =>
      rw [ItemTree.tokens, ItemTree.tokens] at h
      simp only [List.cons_append, List.append_assoc, List.nil_append] at h
      obtain ⟨hname, hrest⟩ := List.cons.inj h
      -- The labels end at the brace, and the items at the one that closes the block.
      obtain ⟨rfl, hitems⟩ := labelTokens_inj hrest
      obtain ⟨rfl, hr⟩ := itemTokens_determined hbody (noItem_closeBrace r) (noItem_closeBrace r')
        hitems
      exact ⟨by rw [Token.name.inj hname], (List.cons.inj hr).2⟩
  text s t' r r' h := by
    -- Every other value starts with another token.
    cases t' with
    | text s' =>
      rw [ValueTree.tokens, ValueTree.tokens] at h
      obtain ⟨hs, hr⟩ := List.cons.inj h
      exact ⟨by rw [Token.text.inj hs], hr⟩
    | _ => simp [ValueTree.tokens] at h
  number x t' r r' h := by
    cases t' with
    | number x' =>
      rw [ValueTree.tokens, ValueTree.tokens] at h
      obtain ⟨hx, hr⟩ := List.cons.inj h
      exact ⟨by rw [Token.number.inj hx], hr⟩
    | _ => simp [ValueTree.tokens] at h
  name s t' r r' h := by
    cases t' with
    | name s' =>
      rw [ValueTree.tokens, ValueTree.tokens] at h
      obtain ⟨hs, hr⟩ := List.cons.inj h
      exact ⟨by rw [Token.name.inj hs], hr⟩
    | _ => simp [ValueTree.tokens] at h
  array init last hinit hlast t' r r' h := by
    cases t' with
    | array init' last' =>
      rw [ValueTree.tokens, ValueTree.tokens] at h
      simp only [List.cons_append, List.append_assoc, List.nil_append] at h
      obtain ⟨rfl, rfl, hr⟩ := initTokens_determined hinit hlast (List.cons.inj h).2
      exact ⟨rfl, hr⟩
    | _ => simp [ValueTree.tokens] at h
  braces fields hfields t' r r' h := by
    cases t' with
    | braces fields' =>
      rw [ValueTree.tokens, ValueTree.tokens] at h
      simp only [List.cons_append, List.append_assoc, List.nil_append] at h
      obtain ⟨rfl, hr⟩ := fieldTokens_determined hfields (List.cons.inj h).2
      exact ⟨rfl, hr⟩
    | _ => simp [ValueTree.tokens] at h

/-- A document has at most one derivation. -/
theorem itemTokens_inj {ts ts' : List ItemTree} (h : itemTokens ts = itemTokens ts') : ts = ts' :=
  (itemTokens_determined (fun t _ => productions_determined.item t) noItem_nil noItem_nil
    (by rw [List.append_nil, List.append_nil, h])).1

end Flowchart
