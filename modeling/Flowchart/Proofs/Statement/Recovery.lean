import Flowchart.Proofs.Statement.Moves
import Mathlib.Data.List.Nodup
import Mathlib.Data.Option.Basic

/-!
# Recovery skips nothing silently

Reading a document takes every lexeme before the end once and in order. A lexeme that has become
neither a part of a statement nor a separating comma is the place of one reported problem, and these
problems stand in the order of the source, before those that are found at the end
(`document_recovers`).
-/

namespace Flowchart.Reader

variable {ls : List Lexeme} {ms : List Move} {ps : List SyntaxProblem}

/-- Lexemes whose spans increase. -/
def Increasing (ls : List Lexeme) : Prop := ls.Pairwise (·.span.start < ·.span.start)

/-- Whether spans increase can be decided pair by pair. -/
instance (ls : List Lexeme) : Decidable (Increasing ls) := by
  unfold Increasing
  infer_instance

/-- What the moves of a reader make of some lexemes, with the statements and the problems that come
out. -/
structure Recovers (ls : List Lexeme) (ms : List Move) (body : List Statement)
    (ps : List SyntaxProblem) : Prop where
  /-- The statements are made of the lexemes taken as parts, with commas and misfits between. -/
  statements : ItemsMoves .document ms body
  /-- Every lexeme before the end is taken, once and in order, and none behind it. -/
  taken : ms.filterMap Move.lexeme? = ls.takeWhile (!·.isEnd)
  /-- A problem is shown with one of two codes and a single label, at the lexeme found. -/
  shown : ∀ p ∈ ps, (p.diagnostic.code = some .unexpectedToken ∨
    p.diagnostic.code = some .unexpectedValue) ∧ p.diagnostic.labels.map (·.span) = [p.span]
  /-- No problem is found at a lexeme that is a part or a separator. -/
  kept : ∀ role l, .take role l ∈ ms → role = .part ∨ role = .separator →
    ∀ p ∈ ps, p.found ≠ some l
  /-- One problem is found at a lexeme that is left out. -/
  leftOut : ∀ fault l, .take (.misfit fault) l ∈ ms →
    ps.filter (·.found = some l) = [⟨fault, some l⟩]
  /-- Two problems are found at one place only where it is the end. -/
  apart : ps.Pairwise fun p q => p.found = q.found → ∀ l ∈ p.found, l.isEnd
  /-- The problems before the end stand in the order of the source, those at the end behind. -/
  ordered : ∃ early late, ps = early ++ late ∧
    early.Pairwise (·.span.start < ·.span.start) ∧
    (∀ p ∈ early, ∃ l ∈ ls.takeWhile (!·.isEnd), p.found = some l) ∧
    ∀ p ∈ late, p.found = (ls.dropWhile (!·.isEnd)).head?

/-- What is reported about misfits stands in the order of increasing spans. -/
theorem pairwise_reports (h : Increasing (ms.filterMap Move.lexeme?)) :
    (ms.filterMap Move.report?).Pairwise (·.span.start < ·.span.start) := by
  let place (o : Option Lexeme) : Nat := ((o.map Lexeme.span).getD .nowhere).start
  have hsome : ((ms.filterMap Move.lexeme?).map some).Pairwise (place · < place ·) :=
    List.pairwise_map.mpr h
  have hfound := hsome.sublist (found_sublist ms)
  rw [List.pairwise_map] at hfound
  exact hfound

/-- Where no key occurs twice, a member is the only one with its key. -/
theorem filter_key_eq {α β : Type} [DecidableEq α] [DecidableEq β] {f : α → β} {xs : List α}
    (h : (xs.map f).Nodup) {x : α} (hx : x ∈ xs) : xs.filter (f · = f x) = [x] := by
  have hsame : xs.filter (f · = f x) = xs.filter (· = x) :=
    List.filter_congr fun y hy =>
      decide_eq_decide.mpr ⟨List.inj_on_of_nodup_map h hy hx, congrArg f⟩
  rw [hsame, List.filter_eq, List.count_eq_one_of_mem h.of_map hx]
  rfl

/-- Where no key occurs twice among those that have one, members with the same key are the same. -/
theorem eq_of_nodup_filterMap {α β : Type} {f : α → Option β} {xs : List α}
    (h : (xs.filterMap f).Nodup) {x y : α} (hx : x ∈ xs) (hy : y ∈ xs) {key : β}
    (hfx : f x = some key) (hfy : f y = some key) : x = y := by
  have hapart := List.pairwise_filterMap.mp h
  clear h
  induction hapart with
  | nil => cases hx
  | cons hz _ ih =>
    rcases List.mem_cons.mp hx with rfl | hx' <;> rcases List.mem_cons.mp hy with rfl | hy'
    · rfl
    · exact absurd rfl (hz y hy' key hfx key hfy)
    · exact absurd rfl (hz x hx' key hfy key hfx)
    · exact ih hx' hy'

/-- No lexeme occurs twice among those with increasing spans. -/
theorem Increasing.nodup (h : Increasing ls) : ls.Nodup :=
  h.imp fun hlt heq => absurd (congrArg (·.span.start) heq) (Nat.ne_of_lt hlt)

/-- No two misfits are found at one lexeme. -/
theorem nodup_found (h : Increasing (ms.filterMap Move.lexeme?)) :
    ((ms.filterMap Move.report?).map (·.found)).Nodup :=
  (h.nodup.map (Option.some_injective Lexeme)).sublist (found_sublist ms)

/-- Behind the lexemes before the end nothing is ahead but the end. -/
theorem head?_dropWhile {l : Lexeme} (hl : l ∈ (ls.dropWhile (!·.isEnd)).head?) : l.isEnd := by
  have hnot := List.head?_dropWhile_not (!·.isEnd) ls
  rw [Option.mem_def.mp hl] at hnot
  simpa using hnot

/-- A problem is shown with one of the two codes of the reader and with one label. -/
theorem shown_problem (p : SyntaxProblem) : (p.diagnostic.code = some .unexpectedToken ∨
    p.diagnostic.code = some .unexpectedValue) ∧ p.diagnostic.labels.map (·.span) = [p.span] := by
  refine ⟨?_, rfl⟩
  obtain ⟨fault, found⟩ := p
  cases fault with
  | notAValue => exact .inr rfl
  | _ => exact .inl rfl

/-- A problem found behind the lexemes before the end is found at no lexeme but the end. -/
theorem isEnd_of_late {faults : List SyntaxFault} {p : SyntaxProblem}
    (hp : p ∈ faults.map (⟨·, (ls.dropWhile (!·.isEnd)).head?⟩)) : ∀ l ∈ p.found, l.isEnd := by
  obtain ⟨fault, -, rfl⟩ := List.mem_map.mp hp
  exact fun l hl => head?_dropWhile hl

/-- Every document is read without a lexeme left out in silence: for lexemes with increasing spans
reading takes each lexeme before the end once and in order, reports each one that it leaves out
once, and reports them in order, those at the end last. -/
theorem document_recovers (ls : List Lexeme) (h : Increasing ls) :
    ∃ ms, Recovers ls ms (document ls).1 (document ls).2 := by
  -- The moves of the reader take the lexemes before the end, and what is ahead then is the end.
  obtain ⟨ms, b, hms, run, hb⟩ := document_moves .nowhere ls
  have htaken := run.taken_eq_takeWhile hb
  have hincreasing : Increasing (ms.filterMap Move.lexeme?) :=
    htaken ▸ h.sublist (List.takeWhile_sublist _)
  have hbehind : b.ahead = ls.dropWhile (!·.isEnd) := by
    have hsplit : ms.filterMap Move.lexeme? ++ b.ahead = ls := run.taken
    rw [htaken] at hsplit
    exact List.append_cancel_left (hsplit.trans List.takeWhile_append_dropWhile.symm)
  -- First come the problems of the moves, then those found when nothing was left to take.
  obtain ⟨faults, hps⟩ := run.problems
  rw [hbehind] at hps
  have hnotEnd {l : Lexeme} (hl : l ∈ ms.filterMap Move.lexeme?) : ¬ l.isEnd :=
    Bool.eq_false_iff.mp (run.isEnd_eq_false hl)
  refine ⟨ms, hms, htaken, fun p _ => shown_problem p, ?_, ?_, ?_, ?_⟩
  · intro role l hm hrole p hp hfound
    rw [hps, List.mem_append] at hp
    rcases hp with hp | hp
    · obtain ⟨m', hm', hreport⟩ := List.mem_filterMap.mp hp
      -- Each lexeme is taken by one move, and that of a part or a separator reports nothing.
      have hsame : m' = .take role l := eq_of_nodup_filterMap hincreasing.nodup hm' hm
        ((Move.lexeme?_of_report? hreport).trans hfound) rfl
      rw [hsame] at hreport
      rcases hrole with rfl | rfl <;> cases hreport
    · exact hnotEnd (List.mem_filterMap.mpr ⟨_, hm, rfl⟩) (isEnd_of_late hp l hfound)
  · intro fault l hm
    -- The lexeme that is left out is reported by its move, and not once more at the end.
    have hearly : (⟨fault, some l⟩ : SyntaxProblem) ∈ ms.filterMap Move.report? :=
      List.mem_filterMap.mpr ⟨_, hm, rfl⟩
    have hlate : (faults.map (⟨·, (ls.dropWhile (!·.isEnd)).head?⟩ :
        SyntaxFault → SyntaxProblem)).filter (·.found = some l) = [] :=
      List.filter_eq_nil_iff.mpr fun p hp hfound => hnotEnd
        (List.mem_filterMap.mpr ⟨_, hm, rfl⟩) (isEnd_of_late hp l (of_decide_eq_true hfound))
    rw [hps, List.filter_append, hlate, filter_key_eq (f := SyntaxProblem.found)
      (nodup_found hincreasing) hearly]
    rfl
  · rw [hps, List.pairwise_append]
    refine ⟨?_, ?_, ?_⟩
    · exact (List.pairwise_map.mp (nodup_found hincreasing)).imp fun hne heq => absurd heq hne
    · exact List.pairwise_of_forall_mem_list fun p hp q _ _ => isEnd_of_late hp
    · exact fun p _ q hq heq => heq ▸ isEnd_of_late hq
  · refine ⟨_, _, hps, pairwise_reports hincreasing, fun p hp => ?_, fun p hp => ?_⟩
    · exact htaken ▸ exists_taken_of_report hp
    · obtain ⟨fault, -, rfl⟩ := List.mem_map.mp hp
      rfl

/-- A document with a fault of each kind: a comma where an item has to start, a bracket where a
value has to stand, a text between the items and an attribute that the end cuts off. -/
def brokenLexemes : List Lexeme :=
  [⟨.name "d", ⟨0, 1, by decide⟩, {}⟩, ⟨.openBrace, ⟨2, 3, by decide⟩, {}⟩,
    ⟨.comma, ⟨4, 5, by decide⟩, {}⟩, ⟨.name "k", ⟨6, 7, by decide⟩, {}⟩,
    ⟨.equals, ⟨8, 9, by decide⟩, {}⟩, ⟨.closeBracket, ⟨10, 11, by decide⟩, {}⟩,
    ⟨.closeBrace, ⟨12, 13, by decide⟩, {}⟩, ⟨.text "t", ⟨14, 17, by decide⟩, {}⟩,
    ⟨.name "z", ⟨18, 19, by decide⟩, {}⟩, ⟨.equals, ⟨20, 21, by decide⟩, {}⟩,
    ⟨.finish, ⟨22, 22, by decide⟩, {}⟩, ⟨.name "after", ⟨23, 28, by decide⟩, {}⟩]

/-- Its faults are reported at the comma, the bracket, the text and the end. -/
theorem document_recovers_broken :
    Increasing brokenLexemes ∧
      (∃ ms, Recovers brokenLexemes ms (document brokenLexemes).1 (document brokenLexemes).2) ∧
      (document brokenLexemes).2 =
        [⟨.strayInBlock "d", brokenLexemes[2]?⟩, ⟨.notAValue, brokenLexemes[5]?⟩,
          ⟨.strayInDocument, brokenLexemes[7]?⟩, ⟨.notAValue, brokenLexemes[10]?⟩] := by
  have hincreasing : Increasing brokenLexemes := by decide
  refine ⟨hincreasing, document_recovers _ hincreasing, ?_⟩
  decide +kernel

end Flowchart.Reader
