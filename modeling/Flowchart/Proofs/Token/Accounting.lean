import Flowchart.Proofs.Token.Scan

/-!
# The scan accounts for every character

The marks of a text are its tokens and its problems, in the order of the source. `Tiles` says that
they cover it but for trivia: a mark takes the characters next to the gap in front of it, and the
next gap starts where it stops. Whatever characters there are, the scan finds such marks
(`scanFrom_tiles`), and what it says about the source is read off the tiling.
-/

namespace Flowchart.Lexer

/-- A token or a problem, each with the bytes it covers. -/
inductive Mark where
  /-- A lexeme. -/
  | lexeme (l : Lexeme)
  /-- A piece that could not be read. -/
  | problem (p : LexicalProblem)

namespace Mark

/-- The bytes that the mark covers. -/
def span : Mark → Span
  | .lexeme l => l.span
  | .problem p => p.span

/-- The token of the mark, if it is one. -/
def lexeme? : Mark → Option Lexeme
  | .lexeme l => some l
  | .problem _ => none

/-- The problem of the mark, if it is one. -/
def problem? : Mark → Option LexicalProblem
  | .lexeme _ => none
  | .problem p => some p

end Mark

/-- The characters are scanned as this one token, without a problem. -/
def Alone (t : Token) (part : List Char) : Prop :=
  t ≠ .finish ∧
    scan (String.ofList part) =
      ⟨[⟨t, Span.between 0 (byteLength part), {}⟩,
        ⟨.finish, Span.point (byteLength part), ({} : Position).after part⟩], []⟩

/-- Trivia at the end of a source, where a comment needs no newline. -/
def LastGap (gap : List Char) : Prop :=
  Trivia gap ∨ ∃ front body, gap = front ++ body ∧ Trivia front ∧ IsComment body

/-- What a mark says about its characters and about those behind it. -/
def Mark.Stands (part rest : List Char) : Mark → Prop
  | .lexeme l => Alone l.token part
  | .problem p => p.fault.isOpen = true → rest = []

/-- Marks and the gaps between them make up a text that starts at an offset. -/
inductive Tiles : Nat → List Char → List Mark → Prop
  /-- Nothing but trivia is left. -/
  | last {offset : Nat} {gap : List Char} (hgap : LastGap gap) : Tiles offset gap []
  /-- Trivia, a piece that is marked, and the rest. -/
  | mark {offset : Nat} {gap part rest : List Char} {m : Mark} {marks : List Mark}
      (hgap : Trivia gap) (hpart : part ≠ [])
      (hstart : m.span.start = offset + byteLength gap)
      (hstop : m.span.stop = m.span.start + byteLength part)
      (hm : m.Stands part rest) (hrest : Tiles m.span.stop rest marks) :
      Tiles offset (gap ++ (part ++ rest)) (m :: marks)

/-! ## The scan makes a tiling -/

/-- Trivia before the trivia at the end of a source is trivia at its end. -/
theorem LastGap.append {gap cs : List Char} (hgap : Trivia gap) (hcs : LastGap cs) :
    LastGap (gap ++ cs) := by
  rcases hcs with hcs | ⟨front, body, rfl, hfront, hbody⟩
  · exact .inl (hgap.append hcs)
  · exact .inr ⟨gap ++ front, body, (List.append_assoc _ _ _).symm, hgap.append hfront, hbody⟩

/-- Trivia in front of a tiled text widens its first gap. -/
theorem Tiles.append {offset : Nat} {gap cs : List Char} {marks : List Mark} (hgap : Trivia gap)
    (h : Tiles (offset + byteLength gap) cs marks) : Tiles offset (gap ++ cs) marks := by
  cases h with
  | last hlast => exact .last (hlast.append hgap)
  | mark hgap' hpart hstart hstop hm hrest =>
    rw [← List.append_assoc]
    refine .mark (hgap.append hgap') hpart ?_ hstop hm hrest
    rw [hstart, byteLength_append, Nat.add_assoc]

/-- The span of a piece ends as many bytes behind its start as the piece has. -/
theorem stop_between (p : Place) (cs : List Char) :
    (Span.between p.offset (p.after cs).offset).stop = p.offset + byteLength cs := by
  show max (p.offset + byteLength cs) p.offset = _
  exact Nat.max_eq_left (Nat.le_add_right _ _)

/-- A mark takes the characters that stand at the front of a text. -/
theorem Tiles.front {p : Place} {c : Char} {cs : List Char} {n : Nat} {m : Mark}
    {marks : List Mark} (hspan : m.span = Span.between p.offset (p.after (c :: cs.take n)).offset)
    (hm : m.Stands (c :: cs.take n) (cs.drop n))
    (hrest : Tiles (p.after (c :: cs.take n)).offset (cs.drop n) marks) :
    Tiles p.offset (c :: cs) (m :: marks) := by
  have hstart : m.span.start = p.offset := by rw [hspan]; rfl
  have hstop : m.span.stop = p.offset + byteLength (c :: cs.take n) := by
    rw [hspan, stop_between]
  have htiles : Tiles p.offset ([] ++ (c :: cs.take n ++ cs.drop n)) (m :: marks) := by
    refine .mark .nil (List.cons_ne_nil _ _) hstart (by rw [hstop, hstart]) hm ?_
    rw [hstop]
    exact hrest
  rwa [List.nil_append, List.cons_append, List.take_append_drop] at htiles

/-- A token is scanned by itself as it is in the text. -/
theorem alone_of_front {c : Char} {cs : List Char} {t : Token} {n : Nat}
    (h : front c cs = (.token t, n)) : Alone t (c :: cs.take n) := by
  refine ⟨(front_fits h nofun).1, ?_⟩
  have hdrop : (cs.take n).drop n = [] :=
    List.drop_eq_nil_iff.mpr (List.length_take_le n cs)
  rw [scan, String.toList_ofList, scanFrom_token (front_take h), List.take_take, Nat.min_self, hdrop,
    scanFrom_nil, Place.after, Nat.zero_add]

/-- **The scan makes a tiling:** its lexemes and problems are marks that cover the text. -/
theorem scanFrom_tiles (p : Place) (cs : List Char) :
    ∃ marks, Tiles p.offset cs marks ∧
      scanFrom p cs =
        ⟨marks.filterMap Mark.lexeme? ++
            [⟨.finish, Span.point (p.after cs).offset, (p.after cs).position⟩],
          marks.filterMap Mark.problem?⟩ := by
  induction cs using scan_induction generalizing p with
  | nil => exact ⟨[], .last (.inl .nil), scanFrom_nil p⟩
  | trivia gap rest hgap ih =>
    obtain ⟨marks, htiles, hscan⟩ := ih (p.after gap)
    refine ⟨marks, htiles.append hgap, ?_⟩
    rw [scanFrom_trivia hgap, hscan, Place.after_append]
  | comment body hbody =>
    exact ⟨[], .last (.inr ⟨[], body, rfl, .nil, hbody⟩),
      (scanFrom_lastComment hbody p).trans (scanFrom_nil _)⟩
  | token c cs t n hfront ih =>
    obtain ⟨marks, htiles, hscan⟩ := ih (p.after (c :: cs.take n))
    let l : Lexeme := ⟨t, Span.between p.offset (p.after (c :: cs.take n)).offset, p.position⟩
    have hl : Alone l.token (c :: cs.take n) := alone_of_front hfront
    refine ⟨.lexeme l :: marks, .front rfl hl htiles, ?_⟩
    rw [scanFrom_token hfront, hscan, Place.after_take_drop]
    rfl
  | fault c cs f n hfront ih =>
    obtain ⟨marks, htiles, hscan⟩ := ih (p.after (c :: cs.take n))
    let q : LexicalProblem := ⟨f, Span.between p.offset (p.after (c :: cs.take n)).offset,
      p.position, (p.after (c :: cs.take n)).position⟩
    -- What is left open takes all the characters there are.
    have hq : q.fault.isOpen = true → cs.drop n = [] := fun hopen => by
      rw [(front_fits hfront nofun).2 hopen, List.drop_length]
    refine ⟨.problem q :: marks, .front rfl hq htiles, ?_⟩
    rw [scanFrom_fault hfront, hscan, Place.after_take_drop]
    rfl

/-! ## What a tiling says -/

/-- The characters of a text at a span; it stands between characters. -/
def Slice (source : List Char) (s : Span) (part : List Char) : Prop :=
  ∃ before after, source = before ++ (part ++ after) ∧
    s.start = byteLength before ∧ s.stop = byteLength (before ++ part)

/-- Two starts of a text with as many bytes are the same. -/
theorem eq_of_byteLength {cs ds x y : List Char} (h : cs ++ x = ds ++ y)
    (hlength : byteLength cs = byteLength ds) : cs = ds := by
  induction cs generalizing ds with
  | nil =>
    cases ds with
    | nil => rfl
    | cons d ds =>
      rw [byteLength, byteLength] at hlength
      have := d.utf8Size_pos
      omega
  | cons c cs ih =>
    cases ds with
    | nil =>
      rw [byteLength, byteLength] at hlength
      have := c.utf8Size_pos
      omega
    | cons d ds =>
      obtain ⟨rfl, htail⟩ := List.cons.inj h
      rw [ih htail (Nat.add_left_cancel hlength)]

/-- A span holds one part of the text. -/
theorem Slice.unique {source part part' : List Char} {s : Span} (h : Slice source s part)
    (h' : Slice source s part') : part = part' := by
  obtain ⟨before, after, rfl, hstart, hstop⟩ := h
  obtain ⟨before', after', heq, hstart', hstop'⟩ := h'
  obtain rfl : before = before' := eq_of_byteLength heq (hstart.symm.trans hstart')
  rw [← List.append_assoc, ← List.append_assoc] at heq
  have hpart := eq_of_byteLength heq (hstop.symm.trans hstop')
  exact List.append_cancel_left hpart

/-- Each mark covers a part of the text. -/
theorem Tiles.exists_slice {offset : Nat} {cs before : List Char} {marks : List Mark}
    (h : Tiles offset cs marks) (hoffset : offset = byteLength before) :
    ∀ m ∈ marks, ∃ part rest, part ≠ [] ∧ Slice (before ++ cs) m.span part ∧ m.Stands part rest := by
  induction h generalizing before with
  | last => exact fun _ hm => nomatch hm
  | @mark offset gap part rest m marks hgap hpart hstart hstop hm hrest ih =>
    have hstart' : m.span.start = byteLength (before ++ gap) := by
      rw [hstart, hoffset, byteLength_append]
    have hstop' : m.span.stop = byteLength (before ++ gap ++ part) := by
      rw [hstop, hstart', ← byteLength_append]
    intro m' hm'
    rcases List.mem_cons.mp hm' with rfl | hm'
    · refine ⟨part, rest, hpart, ⟨before ++ gap, rest, ?_, hstart', hstop'⟩, hm⟩
      rw [List.append_assoc]
    · have := ih hstop' m' hm'
      rwa [List.append_assoc, List.append_assoc] at this

/-- Marks come one behind the other. -/
theorem Tiles.pairwise {offset : Nat} {cs : List Char} {marks : List Mark}
    (h : Tiles offset cs marks) :
    (∀ m ∈ marks, offset ≤ m.span.start) ∧
      marks.Pairwise fun m m' => m.span.stop ≤ m'.span.start := by
  induction h with
  | last => exact ⟨fun _ hm => (nomatch hm), .nil⟩
  | @mark offset gap part rest m marks hgap hpart hstart hstop hm hrest ih =>
    obtain ⟨hbehind, hpairwise⟩ := ih
    refine ⟨fun m' hm' => ?_, .cons hbehind hpairwise⟩
    rcases List.mem_cons.mp hm' with rfl | hm'
    · omega
    · have := hbehind m' hm'
      omega

/-- There are no marks in a text without characters. -/
theorem Tiles.eq_nil {offset : Nat} {marks : List Mark} (h : Tiles offset [] marks) :
    marks = [] := by
  generalize hcs : ([] : List Char) = cs at h
  cases h with
  | last => rfl
  | mark _ hpart =>
    obtain ⟨-, hparts⟩ := List.append_eq_nil_iff.mp hcs.symm
    exact absurd (List.append_eq_nil_iff.mp hparts).1 hpart

/-- What nothing has closed is the last mark and reaches to the end. -/
theorem Tiles.open_last {offset : Nat} {cs : List Char} {marks : List Mark} (h : Tiles offset cs marks)
    {p : LexicalProblem} (hp : .problem p ∈ marks) (hopen : p.fault.isOpen = true) :
    p.span.stop = offset + byteLength cs ∧ ∃ init, marks = init ++ [.problem p] ∧
      ∀ q, .problem q ∈ init → q.fault.isOpen = false := by
  induction h with
  | last => cases hp
  | @mark offset gap part rest m marks _ _ hstart hstop hm hrest ih =>
    -- A mark that nothing has closed has no other behind it.
    have hlast : ∀ q, m = .problem q → q.fault.isOpen = true → rest = [] ∧ marks = [] := by
      rintro q rfl hq
      obtain rfl : rest = [] := hm hq
      exact ⟨rfl, hrest.eq_nil⟩
    rcases List.mem_cons.mp hp with rfl | hp
    · obtain ⟨rfl, rfl⟩ := hlast p rfl hopen
      refine ⟨?_, [], rfl, fun _ hq => nomatch hq⟩
      show (Mark.problem p).span.stop = _
      rw [hstop, hstart, List.append_nil, byteLength_append, Nat.add_assoc]
    · obtain ⟨hend, init, rfl, hinit⟩ := ih hp
      refine ⟨?_, m :: init, rfl, fun q hq => ?_⟩
      · rw [hend, hstop, hstart, byteLength_append, byteLength_append]
        omega
      · rcases List.mem_cons.mp hq with rfl | hq
        · cases hq : q.fault.isOpen with
          | false => rfl
          | true =>
            have hnil := (hlast q rfl hq).2
            exact absurd hnil (List.append_ne_nil_of_right_ne_nil init (List.cons_ne_nil _ _))
        · exact hinit q hq

/-! ## What the scan of a source says -/

/-- The problems are those of the marks that are problems. -/
theorem mem_problems {p : LexicalProblem} {marks : List Mark} :
    p ∈ marks.filterMap Mark.problem? ↔ .problem p ∈ marks := by
  rw [List.mem_filterMap]
  constructor
  · rintro ⟨l | q, hm, heq⟩
    · cases heq
    · obtain rfl : q = p := Option.some.inj heq
      exact hm
  · exact fun hm => ⟨_, hm, rfl⟩

/-- What a scan says about its source, through marks that put its lexemes and its problems in the
order of the source. -/
structure Accounts (source : List Char) (scan : Scan) (marks : List Mark) : Prop where
  /-- The lexemes are those of the marks, and behind them the end of the source. -/
  lexemes : scan.lexemes = marks.filterMap Mark.lexeme? ++
    [⟨.finish, Span.point (byteLength source), ({} : Position).after source⟩]
  /-- The problems are those of the marks. -/
  problems : scan.problems = marks.filterMap Mark.problem?
  /-- Between the marks there are only blanks and whole comments. -/
  tiles : Tiles 0 source marks
  /-- Every mark covers characters of the source, at least one. -/
  slice : ∀ m ∈ marks, ∃ part, part ≠ [] ∧ Slice source m.span part
  /-- No mark starts before the one in front of it stops. -/
  ordered : marks.Pairwise fun m m' => m.span.stop ≤ m'.span.start
  /-- A token of the marks is not the end of the source. -/
  no_finish : ∀ l, .lexeme l ∈ marks → l.token ≠ .finish
  /-- The characters of a token, scanned by themselves, are that token and nothing else. -/
  alone : ∀ l part, .lexeme l ∈ marks → Slice source l.span part →
    Lexer.scan (String.ofList part) =
      ⟨[⟨l.token, Span.between 0 (byteLength part), {}⟩,
        ⟨.finish, Span.point (byteLength part), ({} : Position).after part⟩], []⟩
  /-- A text, an escape or a heredoc that nothing has closed is the last problem, the only one of
  its kind, and reaches to the end of the source. -/
  closed : ∀ p ∈ scan.problems, p.code ∈ openCodes → p.span.stop = byteLength source ∧
    ∃ init, scan.problems = init ++ [p] ∧ ∀ q ∈ init, q.code ∉ openCodes

/-- **The scan accounts for every character** of every source. -/
theorem scan_accounts (source : String) :
    ∃ marks, Accounts source.toList (scan source) marks := by
  obtain ⟨marks, htiles, hscan⟩ := scanFrom_tiles {} source.toList
  have hslice : ∀ m ∈ marks, ∃ part rest, part ≠ [] ∧ Slice source.toList m.span part ∧
      m.Stands part rest := by
    have hoffset : 0 = byteLength [] := rfl
    exact htiles.exists_slice hoffset
  -- Each mark stands for a piece of the text, and that of a token is scanned to it alone.
  have halone : ∀ l, .lexeme l ∈ marks → ∃ part, Slice source.toList l.span part ∧
      Alone l.token part := fun l hl => by
    obtain ⟨part, _, -, hpart, hstands⟩ := hslice _ hl
    exact ⟨part, hpart, hstands⟩
  have hend : ({} : Place).after source.toList =
      ⟨byteLength source.toList, ({} : Position).after source.toList⟩ := by
    rw [Place.after, Nat.zero_add]
  rw [hend] at hscan
  have hproblems : (scan source).problems = marks.filterMap Mark.problem? :=
    congrArg Scan.problems hscan
  refine ⟨marks, congrArg Scan.lexemes hscan, hproblems, htiles, fun m hm => ?_,
    htiles.pairwise.2, fun l hl => ?_, fun l part hl hpart => ?_, fun p hp hcode => ?_⟩
  · obtain ⟨part, _, hne, hpart, -⟩ := hslice m hm
    exact ⟨part, hne, hpart⟩
  · obtain ⟨_, -, hfinish, -⟩ := halone l hl
    exact hfinish
  · obtain ⟨part', hpart', -, hscanned⟩ := halone l hl
    obtain rfl := hpart.unique hpart'
    exact hscanned
  · rw [hproblems] at hp ⊢
    -- Only a mark that reaches to the end of the text may be left open.
    obtain ⟨hstop, init, rfl, hinit⟩ := htiles.open_last (mem_problems.mp hp) (mem_openCodes.mp hcode)
    refine ⟨hstop.trans (Nat.zero_add _), init.filterMap Mark.problem?, ?_, fun q hq => ?_⟩
    · rw [List.filterMap_append]
      rfl
    · rw [mem_openCodes, hinit q (mem_problems.mp hq)]
      exact Bool.false_ne_true

/-- A letter that starts no name, a heredoc, a comment, a stray character, a name and a number, and a
quote that is not closed. -/
def faultySource : String := "é <<E\n x\nE\n// c\n$ ok -1 \x27op"

/-- Such a source is accounted for: between the tokens and the problems there are only blanks and the
comment, the letter has two bytes, and the open quote reaches to the end. -/
theorem scan_accounts_faulty :
    (∃ marks, Accounts faultySource.toList (scan faultySource) marks) ∧
      (scan faultySource).lexemes.map (fun l => (l.token, l.span)) =
        [(.text " x", .between 3 11), (.name "ok", .between 19 21), (.number (-1), .between 22 24),
          (.finish, .point 28)] ∧
      (scan faultySource).problems.map (fun p => (p.code, p.span)) =
        [(.unexpectedCharacter, .between 0 2), (.unexpectedCharacter, .between 17 18),
          (.unterminatedString, .between 25 28)] := by
  refine ⟨scan_accounts faultySource, ?_, ?_⟩ <;> decide +kernel

end Flowchart.Lexer
