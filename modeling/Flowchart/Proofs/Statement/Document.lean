import Flowchart.Proofs.Statement.Silence

/-!
# The reader and the grammar

`document_correct` puts the two directions together: the reader finds no problem exactly where the
tokens before the end of the source have a derivation, which is then the only one, and the
statements read are the meaning of that derivation.

No token of a derivation is the end (`noFinish_itemTokens`), so the tokens of a document stop where
those before the end do, and the reader of a document stops there as well.
-/

namespace Flowchart

/-! ## Derivations stop before the end -/

/-- The end is not a token of items if it is not a token of any of them. -/
theorem noFinish_itemTokens {ts : List ItemTree} (h : ∀ t ∈ ts, .finish ∉ t.tokens) :
    Token.finish ∉ itemTokens ts := by
  induction ts with
  | nil => exact List.not_mem_nil
  | cons t ts ih =>
    rw [itemTokens, List.mem_append, not_or]
    exact ⟨h t List.mem_cons_self, ih fun t ht => h t (List.mem_cons_of_mem _ ht)⟩

/-- The end is not a token of values with commas if it is not a token of any of them. -/
theorem noFinish_initTokens {ts : List ValueTree} (h : ∀ t ∈ ts, .finish ∉ t.tokens) :
    Token.finish ∉ initTokens ts := by
  induction ts with
  | nil => exact List.not_mem_nil
  | cons t ts ih =>
    have hts := ih fun t ht => h t (List.mem_cons_of_mem _ ht)
    simp only [initTokens, List.mem_append, List.mem_cons, not_or]
    exact ⟨h t List.mem_cons_self, by decide, hts⟩

/-- The end is not a token of a value that may be missing if it is not one of the value. -/
theorem noFinish_lastTokens {t : Option ValueTree} (h : ∀ t' ∈ t, .finish ∉ t'.tokens) :
    Token.finish ∉ lastTokens t := by
  cases t with
  | none => exact List.not_mem_nil
  | some t => exact h t rfl

/-- The end is not a token of items in braces if it is not a token of any of them. -/
theorem noFinish_fieldTokens {fs : List (ItemTree × Bool)} (h : ∀ f ∈ fs, .finish ∉ f.1.tokens) :
    Token.finish ∉ fieldTokens fs := by
  induction fs with
  | nil => exact List.not_mem_nil
  | cons f fs ih =>
    obtain ⟨t, comma⟩ := f
    have hfs := ih fun f hf => h f (List.mem_cons_of_mem _ hf)
    have hcomma : Token.finish ∉ if comma then [Token.comma] else [] := by
      cases comma <;> decide
    rw [fieldTokens, List.mem_append, List.mem_append, not_or, not_or]
    exact ⟨⟨h (t, comma) List.mem_cons_self, hcomma⟩, hfs⟩

/-- Every production hands on that the end is no token. -/
theorem productions_noFinish :
    Productions (fun t => .finish ∉ t.tokens) (fun t => .finish ∉ t.tokens) where
  assign key value hvalue := by
    rw [ItemTree.tokens, List.mem_cons, List.mem_cons, not_or, not_or]
    exact ⟨Token.noConfusion, Token.noConfusion, hvalue⟩
  block name labels body hbody := by
    have hlabels : Token.finish ∉ labels.map Token.text := fun h =>
      have ⟨_, _, hl⟩ := List.mem_map.mp h
      nomatch hl
    have hitems := noFinish_itemTokens hbody
    simp [ItemTree.tokens, hlabels, hitems]
  text s := by simp [ValueTree.tokens]
  number x := by simp [ValueTree.tokens]
  name s := by simp [ValueTree.tokens]
  array init last hinit hlast := by
    have hvalues := noFinish_initTokens hinit
    have hend := noFinish_lastTokens hlast
    simp [ValueTree.tokens, hvalues, hend]
  braces fields hfields := by
    have hitems := noFinish_fieldTokens hfields
    simp [ValueTree.tokens, hitems]

/-- The end is not a token of a document. -/
theorem noFinish_document (doc : List ItemTree) : Token.finish ∉ itemTokens doc :=
  noFinish_itemTokens fun t _ => productions_noFinish.item t

namespace Reader

/-! ## Documents -/

/-- The tokens before the end of the source. -/
def ahead (ls : List Lexeme) : List Token := (tokens ls).takeWhile (· ≠ .finish)

/-- Tokens at which a document stops: none at all, or the end with whatever follows it. -/
def Stops (ts : List Token) : Prop := ∀ tok ∈ ts.head?, tok = .finish

/-- Behind the tokens before the end a document stops. -/
theorem exists_stops (ls : List Lexeme) : ∃ ts, tokens ls = ahead ls ++ ts ∧ Stops ts := by
  refine ⟨(tokens ls).dropWhile (· ≠ .finish), List.takeWhile_append_dropWhile.symm, ?_⟩
  intro tok htok
  have hnot := List.head?_dropWhile_not (· ≠ Token.finish) (tokens ls)
  rw [Option.mem_def.mp htok] at hnot
  exact of_decide_eq_true (by simpa using hnot)

/-- The tokens before the end are those of a document at which it stops. -/
theorem ahead_of_stops {doc : List ItemTree} {ls : List Lexeme} {ts : List Token}
    (h : tokens ls = itemTokens doc ++ ts) (hts : Stops ts) : ahead ls = itemTokens doc := by
  have hdoc : ∀ tok ∈ itemTokens doc, decide (tok ≠ .finish) = true := fun tok htok =>
    decide_eq_true fun hfinish => noFinish_document doc (hfinish ▸ htok)
  have hend : ts.takeWhile (· ≠ .finish) = [] := by
    cases ts with
    | nil => rfl
    | cons tok ts => rw [hts tok rfl]; rfl
  rw [ahead, h, List.takeWhile_append_of_pos hdoc, hend, List.append_nil]

/-- Where the tokens before the end are those of a document, its meaning is read. -/
theorem document_gives {doc : List ItemTree} {ls : List Lexeme} {ts : List Token}
    (h : tokens ls = itemTokens doc ++ ts) (hts : Stops ts) :
    unplacedBody (document ls).1 = itemMeanings doc ∧ (document ls).2 = [] := by
  induction doc generalizing ls with
  | nil =>
    rw [itemTokens, List.nil_append] at h
    cases ls with
    | nil =>
      rw [document]
      exact ⟨rfl, rfl⟩
    | cons l rest =>
      have hl : l.token = .finish := hts l.token (by rw [← h]; rfl)
      have hend : document (l :: rest) = ([], []) := by
        rw [document, hl]
      rw [hend]
      exact ⟨rfl, rfl⟩
  | cons t doc ih =>
    obtain ⟨s, more, ht⟩ := t.tokens_eq_cons
    rw [itemTokens, List.append_assoc, ht] at h
    obtain ⟨l, rest, rfl, hl, hrest⟩ := tokens_eq_cons h
    -- The first item is read from its tokens, and the others from what that leaves.
    have hitem := productions_reads.item t l s rest (itemTokens doc ++ ts) (by rw [hrest, ht]; rfl)
    rw [document]
    simp only [hl]
    generalize item l s rest = r at hitem
    obtain ⟨statement, last, afterItem, problems, hle⟩ := r
    obtain ⟨hv, hafter, hp⟩ := hitem
    dsimp only at hv hafter hp
    obtain ⟨hvalues, hproblems⟩ := ih hafter
    constructor
    · rw [unplacedBody, itemMeanings, hv, hvalues]
    · rw [hp, hproblems, List.append_nil]

/-- Where the reader finds no problem, it stops behind the tokens of a document. -/
theorem document_silent : ∀ ls : List Lexeme, (document ls).2 = [] →
    ∃ doc ts, tokens ls = itemTokens doc ++ ts ∧ Stops ts
  | [], _ => ⟨[], [], rfl, fun _ h => (Option.not_mem_none _ h).elim⟩
  | l :: rest, h => by
    rw [document] at h
    cases hl : l.token with
    | finish =>
      refine ⟨[], tokens (l :: rest), rfl, fun tok htok => ?_⟩
      exact (Option.mem_some_iff.mp htok).symm.trans hl
    | name s =>
      simp only [hl] at h
      obtain ⟨hitem, hmore⟩ := List.append_eq_nil_iff.mp h
      obtain ⟨t, ht⟩ := item_silent l s rest hitem
      have hshort := (item l s rest).rest_le
      obtain ⟨doc, ts, hdoc, hts⟩ := document_silent _ hmore
      refine ⟨t :: doc, ts, ?_, hts⟩
      rw [itemTokens, List.append_assoc, ← hdoc, ← ht, tokens, List.map_cons, hl]
      rfl
    | _ =>
      simp only [hl] at h
      exact absurd h (List.cons_ne_nil _ _)
termination_by ls => ls.length
decreasing_by all_goals (simp only [List.length_cons]; omega)

end Reader

/-- The reader finds no problem exactly where the tokens before the end have a derivation. That
derivation is the only one, and what is read is its meaning. -/
theorem document_correct (ls : List Lexeme) :
    ((Reader.document ls).2 = [] ↔ ∃ doc : List ItemTree, itemTokens doc = Reader.ahead ls) ∧
      ∀ doc : List ItemTree, itemTokens doc = Reader.ahead ls →
        unplacedBody (Reader.document ls).1 = itemMeanings doc ∧
          ∀ doc' : List ItemTree, itemTokens doc' = Reader.ahead ls → doc' = doc := by
  obtain ⟨ts, hls, hts⟩ := Reader.exists_stops ls
  refine ⟨⟨fun h => ?_, fun ⟨doc, hdoc⟩ => ?_⟩, fun doc hdoc => ⟨?_, fun doc' hdoc' => ?_⟩⟩
  · -- The tokens passed without a problem are those before the end.
    obtain ⟨doc, ts', hdoc, hts'⟩ := Reader.document_silent ls h
    exact ⟨doc, (Reader.ahead_of_stops hdoc hts').symm⟩
  · rw [← hdoc] at hls
    exact (Reader.document_gives hls hts).2
  · rw [← hdoc] at hls
    exact (Reader.document_gives hls hts).1
  · exact itemTokens_inj (hdoc'.trans hdoc.symm)

/-- A list of two values in braces: a key that is written twice, and a key beside a block. -/
def bracesDocument : List ItemTree :=
  [.assign "list" (.array
    [.braces [(.assign "k" (.text "first"), true), (.assign "k" (.name "true"), false)]]
    (some (.braces [(.assign "k" (.name "x"), false), (.block "b" ["label"] [], true)])))]

/-- Lexemes of that document and of its end, with a stray comma behind the end. -/
def bracesLexemes : List Lexeme :=
  (itemTokens bracesDocument ++ [Token.finish, .comma]).map fun tok => ⟨tok, .nowhere, {}⟩

/-- The document is read, its first value in braces as an object and its second one as it is. -/
theorem document_correct_braces :
    itemTokens bracesDocument = Reader.ahead bracesLexemes ∧
      (Reader.document bracesLexemes).2 = [] ∧
        unplacedBody (Reader.document bracesLexemes).1 =
          [.attribute "list" (.list [.object [("k", .truth true)],
            .nested [.attribute "k" (.text "x") .nowhere, .block "b" ["label"] [] .nowhere]])
            .nowhere] := by
  have hahead : itemTokens bracesDocument = Reader.ahead bracesLexemes := rfl
  have hread := document_correct bracesLexemes
  refine ⟨hahead, hread.1.mpr ⟨bracesDocument, hahead⟩, (hread.2 bracesDocument hahead).1.trans ?_⟩
  rfl

end Flowchart
