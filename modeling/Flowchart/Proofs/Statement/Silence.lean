import Flowchart.Proofs.Statement.Reading

/-!
# Reading that finds no problem

Where reading finds no problem, the tokens it has passed are those of a tree. The proof follows the
recursion of the reader: each part that finds no problem gives a tree, and these are put together
(`item_silent`, `value_silent`).
-/

namespace Flowchart.Reader

/-- Expecting a lexeme finds no problem when it is there. -/
theorem expect_silent {wanted : TokenClass} {last : Span} {ls : List Lexeme}
    (h : (expect wanted last ls).problems = []) :
    ∃ tok : Token, tok.tokenClass = wanted ∧
      tokens ls = tok :: tokens (expect wanted last ls).rest := by
  cases ls with
  | nil => exact absurd h (List.cons_ne_nil _ _)
  | cons l ls =>
    rw [expect] at h ⊢
    by_cases hw : l.token.tokenClass = wanted
    · rw [if_pos hw]
      exact ⟨l.token, hw, rfl⟩
    · rw [if_neg hw] at h
      split at h <;> exact absurd h (List.cons_ne_nil _ _)

/-- A token that is the only one of its class. -/
def IsMark : Token → Prop
  | .name _ | .text _ | .number _ => False
  | _ => True

/-- A mark is known by its class. -/
theorem IsMark.eq_of_tokenClass {m tok : Token} (hm : IsMark m)
    (h : tok.tokenClass = m.tokenClass) : tok = m := by
  cases m with
  | name s => exact hm.elim
  | text s => exact hm.elim
  | number x => exact hm.elim
  | _ => cases tok <;> first | rfl | exact nomatch h

/-- Expecting a mark finds no problem when it is there. -/
theorem mark_silent {m : Token} (hm : IsMark m) {wanted : TokenClass} {last : Span}
    {ls : List Lexeme} (h : (expect wanted last ls).problems = []) (hw : m.tokenClass = wanted) :
    tokens ls = m :: tokens (expect wanted last ls).rest := by
  obtain ⟨tok, htok, hls⟩ := expect_silent h
  rw [← hm.eq_of_tokenClass (htok.trans hw.symm)]
  exact hls

/-- The labels that are read are the texts in front. -/
theorem tokens_eq_labels (ls : List Lexeme) (last : Span) :
    tokens ls = (labels ls last).value.map Token.text ++ tokens (labels ls last).rest := by
  induction ls generalizing last with
  | nil => rfl
  | cons l ls ih =>
    unfold labels
    split
    · rename_i s hl
      have hrest := ih l.span
      rw [tokens, List.map_cons, hl, List.map_cons, List.cons_append, ← hrest]
      rfl
    · rfl

/-- The tokens of an item with a comma behind it, those of others, and a tail. -/
theorem fieldTokens_comma (t : ItemTree) (fs : List (ItemTree × Bool)) (ts : List Token) :
    fieldTokens ((t, true) :: fs) ++ ts = t.tokens ++ .comma :: (fieldTokens fs ++ ts) := by
  rw [fieldTokens, if_pos rfl, List.append_assoc, List.append_assoc]
  rfl

/-- The tokens of an item without a comma behind it, those of others, and a tail. -/
theorem fieldTokens_noComma (t : ItemTree) (fs : List (ItemTree × Bool)) (ts : List Token) :
    fieldTokens ((t, false) :: fs) ++ ts = t.tokens ++ (fieldTokens fs ++ ts) := by
  rw [fieldTokens, if_neg Bool.false_ne_true, List.append_nil, List.append_assoc]

/-- A value of a single token is read without a problem. -/
theorem scalar_silent {first : Lexeme} {tok : Token} (hf : first.token = tok) {t : ValueTree}
    (ht : t.tokens = [tok]) (hs : scalar? tok = some t.meaning) (ls : List Lexeme) :
    ∃ t : ValueTree, tok :: tokens ls = t.tokens ++ tokens (value first ls).rest := by
  rw [value_scalar_eq (hf ▸ hs)]
  exact ⟨t, by rw [ht]; rfl⟩

mutual

/-- An item read without a problem. -/
theorem item_silent (first : Lexeme) (name : String) : ∀ ls : List Lexeme,
    (item first name ls).problems = [] →
    ∃ t : ItemTree, .name name :: tokens ls = t.tokens ++ tokens (item first name ls).rest
  | [], h => by
    have hblock : item first name [] = block first name [] :=
      item_block_eq fun _ _ hls => nomatch hls
    rw [hblock] at h ⊢
    exact block_silent first name [] h
  | l :: rest, h => by
    by_cases hl : l.token = .equals
    · rw [item, if_pos hl] at h ⊢
      obtain ⟨t, ht⟩ := valueIn_silent l.span rest h
      refine ⟨.assign name t, ?_⟩
      rw [ItemTree.tokens, tokens, List.map_cons, hl]
      exact congrArg (fun ts => Token.name name :: .equals :: ts) ht
    · have hblock : item first name (l :: rest) = block first name (l :: rest) :=
        item_block_eq fun l' rest' hls => (List.cons.inj hls).1 ▸ hl
      rw [hblock] at h ⊢
      exact block_silent first name (l :: rest) h
termination_by ls => 3 * ls.length + 2
decreasing_by all_goals (simp only [List.length_cons, List.length_nil]; omega)

/-- A block read without a problem. -/
theorem block_silent (first : Lexeme) (name : String) (ls : List Lexeme)
    (h : (block first name ls).problems = []) :
    ∃ t : ItemTree, .name name :: tokens ls = t.tokens ++ tokens (block first name ls).rest := by
  obtain ⟨hle, heq⟩ := block_eq first name ls
  rw [heq] at h ⊢
  dsimp only at h ⊢
  obtain ⟨hprevious, hclosed⟩ := List.append_eq_nil_iff.mp h
  obtain ⟨hopened, hfilled⟩ := List.append_eq_nil_iff.mp hprevious
  -- The body is shorter than the block, which has a brace in front of it at least.
  have hshort := (expect .openBrace (labels ls first.span).last (labels ls first.span).rest).rest_le
  have hlabels := (labels ls first.span).rest_le
  obtain ⟨items, hitems⟩ := body_silent name _ _ hfilled
  refine ⟨.block name (labels ls first.span).value items, ?_⟩
  rw [ItemTree.tokens, tokens_eq_labels ls first.span,
    mark_silent (m := .openBrace) trivial hopened rfl, hitems,
    mark_silent (m := .closeBrace) trivial hclosed rfl]
  simp only [List.cons_append, List.append_assoc, List.nil_append]
termination_by 3 * ls.length + 1
decreasing_by all_goals omega

/-- The body of a block read without a problem. -/
theorem body_silent (name : String) (last : Span) : ∀ ls : List Lexeme,
    (body name last ls).problems = [] →
    ∃ items, tokens ls = itemTokens items ++ tokens (body name last ls).rest
  | [], _ => by
    rw [body]
    exact ⟨[], rfl⟩
  | l :: rest, h => by
    rw [body] at h ⊢
    cases hl : l.token with
    | name s =>
      simp only [hl] at h ⊢
      obtain ⟨hitem, hmore⟩ := List.append_eq_nil_iff.mp h
      obtain ⟨t, ht⟩ := item_silent l s rest hitem
      have hshort := (item l s rest).rest_le
      obtain ⟨items, hitems⟩ := body_silent name _ _ hmore
      refine ⟨t :: items, ?_⟩
      rw [itemTokens, List.append_assoc, ← hitems, ← ht, tokens, List.map_cons, hl]
      rfl
    | closeBrace => exact ⟨[], rfl⟩
    | finish => exact ⟨[], rfl⟩
    | _ =>
      -- Any other token is a problem.
      simp only [hl] at h
      exact absurd h (List.cons_ne_nil _ _)
termination_by ls => 3 * ls.length
decreasing_by all_goals (simp only [List.length_cons]; omega)

/-- The value of an attribute read without a problem. -/
theorem valueIn_silent (last : Span) : ∀ ls : List Lexeme, (valueIn last ls).problems = [] →
    ∃ t : ValueTree, tokens ls = t.tokens ++ tokens (valueIn last ls).rest
  | [], h => by
    rw [valueIn] at h
    exact absurd h (List.cons_ne_nil _ _)
  | l :: rest, h => by
    rw [valueIn] at h ⊢
    by_cases hl : l.isEnd
    · rw [if_pos hl] at h
      exact absurd h (List.cons_ne_nil _ _)
    · rw [if_neg hl] at h ⊢
      exact value_silent l rest h
termination_by ls => 3 * ls.length
decreasing_by all_goals (simp only [List.length_cons]; omega)

/-- A value read without a problem. -/
theorem value_silent (first : Lexeme) (ls : List Lexeme) (h : (value first ls).problems = []) :
    ∃ t : ValueTree, first.token :: tokens ls = t.tokens ++ tokens (value first ls).rest := by
  cases hf : first.token with
  | text s => exact scalar_silent hf (by rw [ValueTree.tokens]) (scalar?_text s) ls
  | number x => exact scalar_silent hf (by rw [ValueTree.tokens]) (scalar?_number x) ls
  | name s => exact scalar_silent hf (by rw [ValueTree.tokens]) (scalar?_name s) ls
  | openBracket =>
    obtain ⟨hle, heq⟩ := value_array_eq hf ls
    rw [heq] at h ⊢
    obtain ⟨hfilled, hclosed⟩ := List.append_eq_nil_iff.mp h
    obtain ⟨init, t, hitems⟩ := items_silent first.span ls hfilled
    refine ⟨.array init t, ?_⟩
    rw [ValueTree.tokens, hitems, mark_silent (m := .closeBracket) trivial hclosed rfl]
    simp only [List.cons_append, List.append_assoc, List.nil_append]
  | openBrace =>
    obtain ⟨hle, heq⟩ := value_braces_eq hf ls
    rw [heq] at h ⊢
    obtain ⟨hfilled, hclosed⟩ := List.append_eq_nil_iff.mp h
    obtain ⟨fs, hfields⟩ := fields_silent first.span ls hfilled
    refine ⟨.braces fs, ?_⟩
    rw [ValueTree.tokens, hfields, mark_silent (m := .closeBrace) trivial hclosed rfl]
    simp only [List.cons_append, List.append_assoc, List.nil_append]
  | _ =>
    rw [value, hf] at h
    exact absurd h (List.cons_ne_nil _ _)
termination_by 3 * ls.length + 1
decreasing_by all_goals omega

/-- The values of an array read without a problem. -/
theorem items_silent (last : Span) : ∀ ls : List Lexeme, (items last ls).problems = [] →
    ∃ init t, tokens ls = initTokens init ++ (lastTokens t ++ tokens (items last ls).rest)
  | [], _ => by
    rw [items]
    exact ⟨[], none, by rw [initTokens, lastTokens]; rfl⟩
  | l :: rest, h => by
    rw [items] at h ⊢
    by_cases hl : l.token = .closeBracket ∨ l.isEnd
    · rw [if_pos hl]
      exact ⟨[], none, by rw [initTokens, lastTokens]; rfl⟩
    · rw [if_neg hl] at h ⊢
      have hvalue := value_silent l rest
      generalize value l rest = r at h hvalue
      obtain ⟨v, last, afterValue, problems, hle⟩ := r
      cases afterValue with
      | nil =>
        obtain ⟨t, ht⟩ := hvalue h
        refine ⟨[], some t, ?_⟩
        rw [initTokens, lastTokens]
        exact ht
      | cons c afterComma =>
        by_cases hc : c.token = .comma
        · simp only [if_pos hc] at h ⊢
          obtain ⟨hproblems, hmore⟩ := List.append_eq_nil_iff.mp h
          obtain ⟨t, ht⟩ := hvalue hproblems
          have hshort : afterComma.length + 1 ≤ rest.length := hle
          obtain ⟨init, t', hitems⟩ := items_silent c.span afterComma hmore
          refine ⟨t :: init, t', ?_⟩
          rw [initTokens, List.append_assoc, List.cons_append, ← hitems, ← hc]
          exact ht
        · -- A value without a comma behind it is the last one.
          simp only [if_neg hc] at h ⊢
          obtain ⟨t, ht⟩ := hvalue h
          refine ⟨[], some t, ?_⟩
          rw [initTokens, lastTokens]
          exact ht
termination_by ls => 3 * ls.length
decreasing_by all_goals (simp only [List.length_cons]; omega)

/-- The items in braces read without a problem. -/
theorem fields_silent (last : Span) : ∀ ls : List Lexeme, (fields last ls).problems = [] →
    ∃ fs, tokens ls = fieldTokens fs ++ tokens (fields last ls).rest
  | [], _ => by
    rw [fields]
    exact ⟨[], by rw [fieldTokens]; rfl⟩
  | l :: rest, h => by
    rw [fields] at h ⊢
    cases hl : l.token with
    | name s =>
      simp only [hl] at h ⊢
      -- An item starts with a name, and a comma may stand behind it.
      have hitem := item_silent l s rest
      generalize item l s rest = r at h hitem
      obtain ⟨v, last, afterItem, problems, hle⟩ := r
      cases afterItem with
      | nil =>
        obtain ⟨t, ht⟩ := hitem h
        refine ⟨[(t, false)], ?_⟩
        rw [fieldTokens_noComma, fieldTokens, List.nil_append, ← ht, tokens, List.map_cons, hl]
        rfl
      | cons c afterComma =>
        by_cases hc : c.token = .comma
        · simp only [if_pos hc] at h ⊢
          obtain ⟨hproblems, hmore⟩ := List.append_eq_nil_iff.mp h
          obtain ⟨t, ht⟩ := hitem hproblems
          have hshort : afterComma.length + 1 ≤ rest.length := hle
          obtain ⟨fs, hfields⟩ := fields_silent c.span afterComma hmore
          refine ⟨(t, true) :: fs, ?_⟩
          rw [fieldTokens_comma, ← hfields, ← hc, tokens, List.map_cons, hl]
          exact ht
        · -- Without a comma the next item starts with the token that was looked at.
          simp only [if_neg hc] at h ⊢
          obtain ⟨hproblems, hmore⟩ := List.append_eq_nil_iff.mp h
          obtain ⟨t, ht⟩ := hitem hproblems
          have hshort : afterComma.length + 1 ≤ rest.length := hle
          obtain ⟨fs, hfields⟩ := fields_silent last (c :: afterComma) hmore
          refine ⟨(t, false) :: fs, ?_⟩
          rw [fieldTokens_noComma, ← hfields, tokens, List.map_cons, hl]
          exact ht
    | closeBrace => exact ⟨[], by rw [fieldTokens]; rfl⟩
    | finish => exact ⟨[], by rw [fieldTokens]; rfl⟩
    -- Any other token is a problem.
    | _ =>
      simp only [hl] at h
      exact absurd h (List.cons_ne_nil _ _)
termination_by ls => 3 * ls.length
decreasing_by all_goals (simp only [List.length_cons]; omega)

end

end Flowchart.Reader
