import Flowchart.Proofs.Statement.Reading

/-!
# The moves of the reader

What the reader does to lexemes is a list of moves. A move takes the next lexeme, as a part of what
is read, as a separating comma or as one that does not fit, or it finds only the end where a lexeme
has to stand and takes nothing. A move that finds a fault reports it at the lexeme that is next
(`Step`), so a run of moves tells what is reported, and in which order (`Run.problems`).

Which moves make up which statements is a grammar again: that of documents with the lexemes left out
and the lexemes missing written into it (`ItemMoves`, `ValueMoves` and their companions).
-/

namespace Flowchart.Reader

/-- What a lexeme is taken for. -/
inductive Role where
  /-- It is a part of what is read. -/
  | part
  /-- It is a comma behind a value of an array or an item in braces. -/
  | separator
  /-- It does not fit here and is left out. -/
  | misfit (fault : SyntaxFault)
  deriving DecidableEq

/-- What the reader does next. -/
inductive Move where
  /-- It takes the next lexeme. -/
  | take (role : Role) (l : Lexeme)
  /-- It finds the end where a lexeme has to stand. -/
  | miss (fault : SyntaxFault)
  deriving DecidableEq

namespace Move

/-- The lexeme that a move takes. -/
def lexeme? : Move → Option Lexeme
  | take _ l => some l
  | miss _ => none

/-- The problem that is reported at the lexeme that a move leaves out. -/
def report? : Move → Option SyntaxProblem
  | take (.misfit fault) l => some ⟨fault, some l⟩
  | _ => none

/-- The bytes of the lexeme taken last, when those before the move are known. -/
def after (last : Span) : Move → Span
  | take _ l => l.span
  | miss _ => last

end Move

/-- The bytes of the lexeme taken last by some moves. -/
def reach (last : Span) (ms : List Move) : Span := ms.foldl Move.after last

/-- Where the reader stands: the bytes of the lexeme taken last and the lexemes ahead. -/
structure Spot where
  /-- The bytes of the lexeme taken last. -/
  last : Span
  /-- The lexemes ahead. -/
  ahead : List Lexeme

/-- Nothing is ahead but the end. -/
def AtEnd (ls : List Lexeme) : Prop := ∀ l ∈ ls.head?, l.isEnd

/-- The lexemes have run out. -/
theorem atEnd_nil : AtEnd [] := fun _ hl => nomatch hl

/-- The end stands ahead. -/
theorem atEnd_cons {l : Lexeme} (hl : l.isEnd) (ls : List Lexeme) : AtEnd (l :: ls) :=
  fun _ hl' => Option.some.inj (Option.mem_def.mp hl') ▸ hl

/-- What a single move does, and what it reports: a fault is found at the lexeme ahead. -/
inductive Step : Spot → Move → Spot → List SyntaxProblem → Prop
  /-- The lexeme ahead is taken. -/
  | take (role : Role) {l : Lexeme} (hl : l.isEnd = false) (last : Span) (ls : List Lexeme) :
    Step ⟨last, l :: ls⟩ (.take role l) ⟨l.span, ls⟩ (Move.take role l).report?.toList
  /-- Nothing is ahead, and nothing is taken. -/
  | miss (fault : SyntaxFault) {a : Spot} (ha : AtEnd a.ahead) :
    Step a (.miss fault) a [⟨fault, a.ahead.head?⟩]

/-- What moves do one after another, and what they report. -/
inductive Run : Spot → List Move → Spot → List SyntaxProblem → Prop
  /-- No move is made. -/
  | stay (a : Spot) : Run a [] a []
  /-- A move is made before the others. -/
  | move {a b c : Spot} {m : Move} {ms : List Move} {ps qs : List SyntaxProblem}
    (h : Step a m b ps) (t : Run b ms c qs) : Run a (m :: ms) c (ps ++ qs)

/-! ## Runs -/

variable {a b c : Spot} {m : Move} {ms ns : List Move} {ps qs : List SyntaxProblem}

/-- A single move is a run. -/
theorem Step.run (h : Step a m b ps) : Run a [m] b ps :=
  List.append_nil ps ▸ .move h (.stay b)

/-- A run behind a run. -/
theorem Run.append (h : Run a ms b ps) (t : Run b ns c qs) : Run a (ms ++ ns) c (ps ++ qs) := by
  induction h with
  | stay a => exact t
  | move h _ ih =>
    rw [List.append_assoc]
    exact .move h (ih t)

/-- A move takes the lexeme ahead or none. -/
theorem Step.taken (h : Step a m b ps) : m.lexeme?.toList ++ b.ahead = a.ahead := by
  cases h <;> rfl

/-- A run takes the lexemes ahead, one after another. -/
theorem Run.taken (h : Run a ms b ps) : ms.filterMap Move.lexeme? ++ b.ahead = a.ahead := by
  induction h with
  | stay a => rfl
  | @move a b c m ms ps qs h _ ih =>
    rw [← h.taken, ← ih, ← List.append_assoc, List.filterMap_cons]
    cases m <;> rfl

/-- The end is never taken. -/
theorem Step.isEnd_eq_false (h : Step a m b ps) {l : Lexeme} (hl : m.lexeme? = some l) :
    l.isEnd = false := by
  cases h with
  | take role hend last ls => exact Option.some.inj hl ▸ hend
  | miss fault ha => cases hl

/-- No run takes the end. -/
theorem Run.isEnd_eq_false (h : Run a ms b ps) {l : Lexeme}
    (hl : l ∈ ms.filterMap Move.lexeme?) : l.isEnd = false := by
  obtain ⟨m, hm, hml⟩ := List.mem_filterMap.mp hl
  clear hl
  induction h with
  | stay a => cases hm
  | move h _ ih =>
    rcases List.mem_cons.mp hm with rfl | hm
    · exact h.isEnd_eq_false hml
    · exact ih hm

/-- The bytes of the lexeme taken last. -/
theorem Run.last_eq (h : Run a ms b ps) : b.last = reach a.last ms := by
  induction h with
  | stay a => rfl
  | move h _ ih =>
    rw [ih]
    cases h <;> rfl

/-- At the end nothing is taken. -/
theorem Run.of_atEnd (h : Run a ms b ps) (ha : AtEnd a.ahead) :
    ms.filterMap Move.lexeme? = [] ∧ b.ahead = a.ahead := by
  have htaken := h.taken
  cases hms : ms.filterMap Move.lexeme? with
  | nil => exact ⟨rfl, by rw [← htaken, hms, List.nil_append]⟩
  | cons l ls =>
    have hl := h.isEnd_eq_false (hms ▸ List.mem_cons_self : l ∈ _)
    rw [hms] at htaken
    exact absurd (ha l (by rw [← htaken]; rfl)) (Bool.eq_false_iff.mp hl)

/-- Up to the end a run takes all lexemes before it. -/
theorem Run.taken_eq_takeWhile (h : Run a ms b ps) (hb : AtEnd b.ahead) :
    ms.filterMap Move.lexeme? = a.ahead.takeWhile (!·.isEnd) := by
  have hfront : ∀ l ∈ ms.filterMap Move.lexeme?, (!l.isEnd) = true := fun l hl => by
    rw [h.isEnd_eq_false hl]
    rfl
  have hback : b.ahead.takeWhile (!·.isEnd) = [] := by
    cases hb' : b.ahead with
    | nil => rfl
    | cons l ls => rw [List.takeWhile_cons, hb l (by rw [hb']; rfl)]; rfl
  rw [← h.taken, List.takeWhile_append_of_pos hfront, hback, List.append_nil]

/-- What is reported is reported at the lexeme taken. -/
theorem Move.lexeme?_of_report? {p : SyntaxProblem} (h : m.report? = some p) :
    m.lexeme? = p.found := by
  cases m with
  | take role l => cases role <;> cases h; rfl
  | miss fault => cases h

/-- The lexemes at which problems are reported are some of those taken, in the same order. -/
theorem found_sublist (ms : List Move) :
    ((ms.filterMap Move.report?).map (·.found)).Sublist ((ms.filterMap Move.lexeme?).map some) := by
  induction ms with
  | nil => exact .slnil
  | cons m ms ih =>
    cases m with
    | take role l => cases role <;> first | exact ih.cons_cons _ | exact ih.cons _
    | miss fault => exact ih

/-- A problem reported about a misfit is found at a lexeme taken. -/
theorem exists_taken_of_report {p : SyntaxProblem} (hp : p ∈ ms.filterMap Move.report?) :
    ∃ l ∈ ms.filterMap Move.lexeme?, p.found = some l := by
  have hfound := (found_sublist ms).subset (List.mem_map_of_mem hp)
  obtain ⟨l, hl, heq⟩ := List.mem_map.mp hfound
  exact ⟨l, hl, heq.symm⟩

/-- What a run reports: first each lexeme that it leaves out, once and in order, and then the end,
as often as a lexeme is missing. -/
theorem Run.problems (h : Run a ms b ps) :
    ∃ faults : List SyntaxFault,
      ps = ms.filterMap Move.report? ++ faults.map (⟨·, b.ahead.head?⟩) := by
  induction h with
  | stay a => exact ⟨[], rfl⟩
  | @move a b c m ms ps qs h t ih =>
    obtain ⟨faults, hfaults⟩ := ih
    rw [hfaults, List.filterMap_cons]
    cases h with
    | take role hl last ls =>
      refine ⟨faults, ?_⟩
      cases role <;> rfl
    | miss fault ha =>
      -- Behind a miss nothing is taken any more, so nothing is left out either.
      obtain ⟨hnone, hsame⟩ := t.of_atEnd ha
      have hmisfits : ms.filterMap Move.report? = [] := by
        have hsub := found_sublist ms
        rw [hnone, List.map_nil, List.sublist_nil, List.map_eq_nil_iff] at hsub
        exact hsub
      refine ⟨fault :: faults, ?_⟩
      rw [hmisfits, hsame]
      rfl

/-! ## The moves that make up statements -/

/-- The moves where a lexeme of the wanted class has to stand. -/
inductive Slot (wanted : TokenClass) : Move → Prop
  /-- The lexeme that is wanted. -/
  | filled {l : Lexeme} (hl : l.token.tokenClass = wanted) : Slot wanted (.take .part l)
  /-- Another lexeme, which is left out. -/
  | wrong {l : Lexeme} (hl : l.token.tokenClass ≠ wanted) :
    Slot wanted (.take (.misfit (.expected wanted)) l)
  /-- No lexeme. -/
  | missing : Slot wanted (.miss (.expected wanted))

/-- Where items stand. -/
inductive Enclosure where
  /-- The whole document. -/
  | document
  /-- The body of a block. -/
  | block (name : String)
  /-- A value in braces. -/
  | braces
  deriving DecidableEq

/-- The fault of a lexeme at which no item starts. -/
def Enclosure.stray : Enclosure → SyntaxFault
  | document => .strayInDocument
  | block name => .strayInBlock name
  | braces => .expected .name

mutual

/-- The moves that make up an item. -/
inductive ItemMoves : List Move → Statement → Prop
  /-- The key and the equals sign are taken, and the value is read. -/
  | assign {key equals : Lexeme} {name : String} {ms : List Move} {v : Value}
    (hkey : key.token = .name name) (hequals : equals.token = .equals) (hv : ValueMoves ms v) :
    ItemMoves (.take .part key :: .take .part equals :: ms)
      (.attribute name v (key.span.union (reach equals.span ms)))
  /-- The name and the labels are taken, and the body is read between its braces. -/
  | block {first : Lexeme} {name : String} {labels : List Lexeme} {texts : List String}
    {opened closed : Move} {ms : List Move} {body : List Statement}
    (hfirst : first.token = .name name) (hlabels : tokens labels = texts.map Token.text)
    (hopened : Slot .openBrace opened) (hbody : ItemsMoves (.block name) ms body)
    (hclosed : Slot .closeBrace closed) :
    ItemMoves (.take .part first :: (labels.map (.take .part) ++ opened :: (ms ++ [closed])))
      (.block name texts body (first.span.union
        (reach first.span (labels.map (.take .part) ++ opened :: (ms ++ [closed])))))

/-- The moves that make up items in a row. -/
inductive ItemsMoves : Enclosure → List Move → List Statement → Prop
  /-- Nothing is read. -/
  | nil (e : Enclosure) : ItemsMoves e [] []
  /-- An item is read before the others. -/
  | item {e : Enclosure} {ms ns : List Move} {s : Statement} {body : List Statement}
    (hs : ItemMoves ms s) (hbody : ItemsMoves e ns body) : ItemsMoves e (ms ++ ns) (s :: body)
  /-- In braces, a comma may follow an item. -/
  | itemComma {ms ns : List Move} {s : Statement} {comma : Lexeme} {body : List Statement}
    (hs : ItemMoves ms s) (hcomma : comma.token = .comma) (hbody : ItemsMoves .braces ns body) :
    ItemsMoves .braces (ms ++ .take .separator comma :: ns) (s :: body)
  /-- What starts no item is left out. -/
  | stray {e : Enclosure} {l : Lexeme} {ns : List Move} {body : List Statement}
    (hl : l.token.tokenClass ≠ .name) (hbody : ItemsMoves e ns body) :
    ItemsMoves e (.take (.misfit e.stray) l :: ns) body

/-- The moves that make up a value. -/
inductive ValueMoves : List Move → Value → Prop
  /-- A single lexeme is a value. -/
  | scalar {l : Lexeme} {v : Value} (hl : scalar? l.token = some v) :
    ValueMoves [.take .part l] v
  /-- Values are read between brackets. -/
  | array {l : Lexeme} {ms : List Move} {closed : Move} {vs : List Value}
    (hl : l.token = .openBracket) (hvs : ValuesMoves ms vs) (hclosed : Slot .closeBracket closed) :
    ValueMoves (.take .part l :: (ms ++ [closed])) (.list vs)
  /-- Items are read between braces. -/
  | braces {l : Lexeme} {ms : List Move} {closed : Move} {body : List Statement}
    (hl : l.token = .openBrace) (hbody : ItemsMoves .braces ms body)
    (hclosed : Slot .closeBrace closed) :
    ValueMoves (.take .part l :: (ms ++ [closed])) (braced body)
  /-- What starts no value is left out. -/
  | wrong {l : Lexeme} (hl : ¬ l.token.StartsValue) :
    ValueMoves [.take (.misfit .notAValue) l] .null
  /-- There is no lexeme to read a value from. -/
  | missing : ValueMoves [.miss .notAValue] .null

/-- The moves that make up the values of an array. -/
inductive ValuesMoves : List Move → List Value → Prop
  /-- No value is read. -/
  | nil : ValuesMoves [] []
  /-- The last value has no comma behind it. -/
  | last {ms : List Move} {v : Value} (hv : ValueMoves ms v) : ValuesMoves ms [v]
  /-- A value with a comma is read before the others. -/
  | cons {ms ns : List Move} {v : Value} {comma : Lexeme} {vs : List Value}
    (hv : ValueMoves ms v) (hcomma : comma.token = .comma) (hvs : ValuesMoves ns vs) :
    ValuesMoves (ms ++ .take .separator comma :: ns) (v :: vs)

end

/-! ## What each reader does -/

/-- A token that is not the end. -/
theorem isEnd_eq_false {l : Lexeme} (h : l.token ≠ .finish) : l.isEnd = false :=
  beq_false_of_ne h

/-- A reader takes a lexeme. -/
theorem run_take (role : Role) {l : Lexeme} (hl : l.isEnd = false) (last : Span)
    (ls : List Lexeme) (t : Run ⟨l.span, ls⟩ ms b ps) :
    Run ⟨last, l :: ls⟩ (.take role l :: ms) b ((Move.take role l).report?.toList ++ ps) :=
  .move (.take role hl last ls) t

/-- Expecting a lexeme is a single move. -/
theorem expect_moves (wanted : TokenClass) (hw : wanted ≠ .finish) (last : Span)
    (ls : List Lexeme) :
    ∃ m, Slot wanted m ∧ Run ⟨last, ls⟩ [m]
      ⟨(expect wanted last ls).last, (expect wanted last ls).rest⟩
      (expect wanted last ls).problems := by
  cases ls with
  | nil => exact ⟨_, .missing, (Step.miss _ atEnd_nil).run⟩
  | cons l ls =>
    rw [expect]
    by_cases hl : l.token.tokenClass = wanted
    · rw [if_pos hl]
      have hend : l.isEnd = false := isEnd_eq_false fun h => hw (by rw [← hl, h]; rfl)
      exact ⟨_, .filled hl, (Step.take .part hend last ls).run⟩
    · rw [if_neg hl]
      by_cases hend : l.isEnd
      · rw [if_pos hend]
        exact ⟨_, .missing, (Step.miss _ (atEnd_cons hend ls)).run⟩
      · rw [if_neg hend]
        exact ⟨_, .wrong hl,
          (Step.take (.misfit (.expected wanted)) (Bool.eq_false_iff.mpr hend) last ls).run⟩

/-- Reading labels takes them. -/
theorem labels_moves (ls : List Lexeme) (last : Span) :
    ∃ taken, tokens taken = (labels ls last).value.map Token.text ∧
      Run ⟨last, ls⟩ (taken.map (.take .part)) ⟨(labels ls last).last, (labels ls last).rest⟩
        [] := by
  induction ls generalizing last with
  | nil => exact ⟨[], rfl, .stay _⟩
  | cons l ls ih =>
    unfold labels
    split
    · rename_i s hl
      obtain ⟨taken, htaken, hrun⟩ := ih l.span
      refine ⟨l :: taken, ?_, run_take .part (isEnd_eq_false (hl ▸ Token.noConfusion)) last ls hrun⟩
      rw [tokens, List.map_cons, hl, List.map_cons, ← htaken]
      rfl
    · exact ⟨[], rfl, .stay _⟩

mutual

/-- The moves of reading an item. -/
theorem item_moves {first : Lexeme} {name : String} (hfirst : first.token = .name name)
    (last : Span) : ∀ ls : List Lexeme,
    ∃ ms, ItemMoves ms (item first name ls).value ∧ Run ⟨last, first :: ls⟩ ms
      ⟨(item first name ls).last, (item first name ls).rest⟩ (item first name ls).problems
  | [] => by
    have hblock : item first name [] = block first name [] :=
      item_block_eq fun _ _ hls => nomatch hls
    rw [hblock]
    exact block_moves hfirst last []
  | l :: rest => by
    by_cases hl : l.token = .equals
    · rw [item, if_pos hl]
      dsimp only
      obtain ⟨ms, hms, hrun⟩ := valueIn_moves l.span rest
      refine ⟨.take .part first :: .take .part l :: ms, ?_,
        run_take .part (isEnd_eq_false (hfirst ▸ Token.noConfusion)) last _
          (run_take .part (isEnd_eq_false (hl ▸ Token.noConfusion)) first.span rest hrun)⟩
      rw [show (valueIn l.span rest).last = reach l.span ms from hrun.last_eq]
      exact .assign hfirst hl hms
    · have hblock : item first name (l :: rest) = block first name (l :: rest) :=
        item_block_eq fun l' rest' hls => (List.cons.inj hls).1 ▸ hl
      rw [hblock]
      exact block_moves hfirst last (l :: rest)
termination_by ls => 3 * ls.length + 2
decreasing_by all_goals (simp only [List.length_cons, List.length_nil]; omega)

/-- The moves of reading a block. -/
theorem block_moves {first : Lexeme} {name : String} (hfirst : first.token = .name name)
    (last : Span) (ls : List Lexeme) :
    ∃ ms, ItemMoves ms (block first name ls).value ∧ Run ⟨last, first :: ls⟩ ms
      ⟨(block first name ls).last, (block first name ls).rest⟩
      (block first name ls).problems := by
  obtain ⟨hle, heq⟩ := block_eq first name ls
  rw [heq]
  dsimp only
  -- The body is no longer than the lexemes behind the labels.
  have hshort := (expect .openBrace (labels ls first.span).last (labels ls first.span).rest).rest_le
  have hlabels := (labels ls first.span).rest_le
  obtain ⟨taken, htaken, labelled⟩ := labels_moves ls first.span
  obtain ⟨opened, hopened, atBody⟩ := expect_moves .openBrace TokenClass.noConfusion
    (labels ls first.span).last (labels ls first.span).rest
  obtain ⟨ms, hms, filled⟩ := body_moves name
    (expect .openBrace (labels ls first.span).last (labels ls first.span).rest).last
    (expect .openBrace (labels ls first.span).last (labels ls first.span).rest).rest
  obtain ⟨closed, hclosed, behind⟩ := expect_moves .closeBrace TokenClass.noConfusion
    (body name _ _).last (body name _ _).rest
  have hrun := labelled.append (atBody.append (filled.append behind))
  rw [List.append_assoc]
  refine ⟨_, ?_, run_take .part (isEnd_eq_false (hfirst ▸ Token.noConfusion)) last ls hrun⟩
  rw [show (expect .closeBrace _ _).last = reach first.span _ from hrun.last_eq]
  exact .block hfirst htaken hopened hms hclosed
termination_by 3 * ls.length + 1
decreasing_by all_goals omega

/-- The moves of reading the body of a block. -/
theorem body_moves (name : String) (last : Span) : ∀ ls : List Lexeme,
    ∃ ms, ItemsMoves (.block name) ms (body name last ls).value ∧
      Run ⟨last, ls⟩ ms ⟨(body name last ls).last, (body name last ls).rest⟩
        (body name last ls).problems
  | [] => by
    rw [body]
    exact ⟨[], .nil _, .stay _⟩
  | l :: rest => by
    rw [body]
    cases hl : l.token with
    | name s =>
      obtain ⟨ms, hms, read⟩ := item_moves hl last rest
      have hshort := (item l s rest).rest_le
      obtain ⟨ns, hns, more⟩ := body_moves name (item l s rest).last (item l s rest).rest
      exact ⟨ms ++ ns, .item hms hns, read.append more⟩
    | closeBrace => exact ⟨[], .nil _, .stay _⟩
    | finish => exact ⟨[], .nil _, .stay _⟩
    | _ =>
      obtain ⟨ns, hns, more⟩ := body_moves name l.span rest
      have hopen : l.token ≠ .finish := hl ▸ Token.noConfusion
      exact ⟨_, .stray (e := .block name) (hl ▸ TokenClass.noConfusion) hns,
        run_take (.misfit (.strayInBlock name)) (isEnd_eq_false hopen) last rest more⟩
termination_by ls => 3 * ls.length
decreasing_by all_goals (simp only [List.length_cons]; omega)

/-- The moves of reading the value of an attribute. -/
theorem valueIn_moves (last : Span) : ∀ ls : List Lexeme,
    ∃ ms, ValueMoves ms (valueIn last ls).value ∧
      Run ⟨last, ls⟩ ms ⟨(valueIn last ls).last, (valueIn last ls).rest⟩
        (valueIn last ls).problems
  | [] => by
    rw [valueIn]
    exact ⟨_, .missing, (Step.miss .notAValue atEnd_nil).run⟩
  | l :: rest => by
    rw [valueIn]
    by_cases hl : l.isEnd
    · rw [if_pos hl]
      exact ⟨_, .missing, (Step.miss .notAValue (atEnd_cons hl rest)).run⟩
    · rw [if_neg hl]
      exact value_moves (Bool.eq_false_iff.mpr hl) last rest
termination_by ls => 3 * ls.length
decreasing_by all_goals (simp only [List.length_cons]; omega)

/-- The moves of reading a value. -/
theorem value_moves {first : Lexeme} (hend : first.isEnd = false) (last : Span)
    (ls : List Lexeme) :
    ∃ ms, ValueMoves ms (value first ls).value ∧
      Run ⟨last, first :: ls⟩ ms ⟨(value first ls).last, (value first ls).rest⟩
        (value first ls).problems := by
  have single {v : Value} (hv : scalar? first.token = some v) :
      ∃ ms, ValueMoves ms (value first ls).value ∧
        Run ⟨last, first :: ls⟩ ms ⟨(value first ls).last, (value first ls).rest⟩
          (value first ls).problems := by
    rw [value_scalar_eq hv]
    exact ⟨_, .scalar hv, (Step.take .part hend last ls).run⟩
  cases hf : first.token with
  | text s => exact single (hf ▸ scalar?_text s)
  | number x => exact single (hf ▸ scalar?_number x)
  | name s => exact single (hf ▸ scalar?_name s)
  | openBracket =>
    obtain ⟨hle, heq⟩ := value_array_eq hf ls
    rw [heq]
    obtain ⟨ms, hms, filled⟩ := items_moves first.span ls
    -- The bracket is taken behind the values, or it is missing.
    obtain ⟨closed, hclosed, behind⟩ := expect_moves .closeBracket TokenClass.noConfusion
      (items first.span ls).last (items first.span ls).rest
    exact ⟨_, .array hf hms hclosed, run_take .part hend last ls (filled.append behind)⟩
  | openBrace =>
    obtain ⟨hle, heq⟩ := value_braces_eq hf ls
    rw [heq]
    obtain ⟨ms, hms, filled⟩ := fields_moves first.span ls
    obtain ⟨closed, hclosed, behind⟩ := expect_moves .closeBrace TokenClass.noConfusion
      (fields first.span ls).last (fields first.span ls).rest
    exact ⟨_, .braces hf hms hclosed, run_take .part hend last ls (filled.append behind)⟩
  -- Any other lexeme is taken all the same and reported.
  | _ =>
    rw [value, hf]
    exact ⟨_, .wrong (hf ▸ id), (Step.take (.misfit .notAValue) hend last ls).run⟩
termination_by 3 * ls.length + 1
decreasing_by all_goals omega

/-- The moves of reading the values of an array. -/
theorem items_moves (last : Span) : ∀ ls : List Lexeme,
    ∃ ms, ValuesMoves ms (items last ls).value ∧
      Run ⟨last, ls⟩ ms ⟨(items last ls).last, (items last ls).rest⟩ (items last ls).problems
  | [] => by
    rw [items]
    exact ⟨[], .nil, .stay _⟩
  | l :: rest => by
    rw [items]
    by_cases hl : l.token = .closeBracket ∨ l.isEnd
    · rw [if_pos hl]
      exact ⟨[], .nil, .stay _⟩
    · rw [if_neg hl]
      have hvalue := value_moves (Bool.eq_false_iff.mpr fun hend => hl (.inr hend)) last rest
      generalize value l rest = r at hvalue
      obtain ⟨v, reached, afterValue, problems, hle⟩ := r
      obtain ⟨ms, hms, read⟩ := hvalue
      cases afterValue with
      | nil => exact ⟨ms, .last hms, read⟩
      | cons c afterComma =>
        by_cases hc : c.token = .comma
        · have hshort : afterComma.length + 1 ≤ rest.length := hle
          obtain ⟨ns, hns, more⟩ := items_moves c.span afterComma
          simp only [if_pos hc]
          exact ⟨_, .cons hms hc hns, read.append
            (run_take .separator (isEnd_eq_false (hc ▸ Token.noConfusion)) reached afterComma more)⟩
        · -- Without a comma behind it, the value is the last one.
          simp only [if_neg hc]
          exact ⟨ms, .last hms, read⟩
termination_by ls => 3 * ls.length
decreasing_by all_goals (simp only [List.length_cons]; omega)

/-- The moves of reading the items in braces. -/
theorem fields_moves (last : Span) : ∀ ls : List Lexeme,
    ∃ ms, ItemsMoves .braces ms (fields last ls).value ∧
      Run ⟨last, ls⟩ ms ⟨(fields last ls).last, (fields last ls).rest⟩ (fields last ls).problems
  | [] => by
    rw [fields]
    exact ⟨[], .nil _, .stay _⟩
  | l :: rest => by
    rw [fields]
    cases hl : l.token with
    | name s =>
      dsimp only
      have hitem := item_moves hl last rest
      generalize item l s rest = r at hitem
      obtain ⟨statement, reached, afterItem, problems, hle⟩ := r
      obtain ⟨ms, hms, read⟩ := hitem
      cases afterItem with
      | nil => exact ⟨ms ++ [], .item hms (.nil _), (List.append_nil ms).symm ▸ read⟩
      | cons c afterComma =>
        have hshort : afterComma.length + 1 ≤ rest.length := hle
        by_cases hc : c.token = .comma
        · obtain ⟨ns, hns, more⟩ := fields_moves c.span afterComma
          simp only [if_pos hc]
          exact ⟨_, .itemComma hms hc hns, read.append
            (run_take .separator (isEnd_eq_false (hc ▸ Token.noConfusion)) reached afterComma more)⟩
        · -- There is no comma, so the next item starts with this lexeme.
          obtain ⟨ns, hns, more⟩ := fields_moves reached (c :: afterComma)
          simp only [if_neg hc]
          exact ⟨_, .item hms hns, read.append more⟩
    | closeBrace => exact ⟨[], .nil _, .stay _⟩
    | finish => exact ⟨[], .nil _, .stay _⟩
    | _ =>
      -- A lexeme that starts no item is left out and reported.
      obtain ⟨ns, hns, more⟩ := fields_moves l.span rest
      have hopen : l.token ≠ .finish := hl ▸ Token.noConfusion
      exact ⟨_, .stray (e := .braces) (hl ▸ TokenClass.noConfusion) hns,
        run_take (.misfit (.expected .name)) (isEnd_eq_false hopen) last rest more⟩
termination_by ls => 3 * ls.length
decreasing_by all_goals (simp only [List.length_cons]; omega)

end

/-- The moves of reading a document go on to the end. -/
theorem document_moves (last : Span) : ∀ ls : List Lexeme,
    ∃ ms b, ItemsMoves .document ms (document ls).1 ∧ Run ⟨last, ls⟩ ms b (document ls).2 ∧
      AtEnd b.ahead
  | [] => by
    rw [document]
    exact ⟨[], _, .nil _, .stay _, atEnd_nil⟩
  | l :: rest => by
    rw [document]
    cases hl : l.token with
    | finish =>
      have hend : l.isEnd := beq_iff_eq.mpr hl
      exact ⟨[], _, .nil _, .stay _, atEnd_cons hend rest⟩
    | name s =>
      obtain ⟨ms, hms, read⟩ := item_moves hl last rest
      have hshort := (item l s rest).rest_le
      obtain ⟨ns, b, hns, more, hb⟩ := document_moves (item l s rest).last (item l s rest).rest
      exact ⟨ms ++ ns, b, .item hms hns, read.append more, hb⟩
    | _ =>
      obtain ⟨ns, b, hns, more, hb⟩ := document_moves l.span rest
      have hopen : l.token ≠ .finish := hl ▸ Token.noConfusion
      exact ⟨_, b, .stray (e := .document) (hl ▸ TokenClass.noConfusion) hns,
        run_take (.misfit .strayInDocument) (isEnd_eq_false hopen) last rest more, hb⟩
termination_by ls => ls.length
decreasing_by all_goals (simp only [List.length_cons]; omega)

end Flowchart.Reader
