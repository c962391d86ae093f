import Flowchart.Proofs.Token.Boundaries
import Flowchart.Text.LineIndex
import Mathlib.Data.List.DropRight
import Mathlib.Data.List.GetD
import Mathlib.Data.Prod.Lex
import Mathlib.Order.Monotone.Basic

/-!
# Lines and columns

The position of an offset counts the newlines before it and the characters behind the last of them
(`Position.after_eq`). Looking it up in the index of a text gives the same as reading on to it
(`LineIndex.position_eq`): the lines that start before the offset are one more than the newlines
before it, and the last of them starts where the characters to be counted do.

Each character moves a position on, in the order that compares lines before columns. So positions
grow with the offset, and those of the lexemes with their order in the source.
-/

namespace Flowchart

open Lexer (byteLength byteLength_append)

/-! ## Bisection -/

/-- Bisection finds where a front part ends at which `holds` does and behind which it does not. -/
theorem partitionPoint_eq {holds : Nat → Bool} {low count k : Nat} (hlow : low ≤ k)
    (hhigh : k ≤ low + count) (hfront : ∀ i, low ≤ i → i < k → holds i = true)
    (hback : ∀ i, k ≤ i → i < low + count → holds i = false) :
    partitionPoint holds low count = k := by
  induction count using Nat.strong_induction_on generalizing low with
  | _ count ih =>
    rw [partitionPoint]
    by_cases hnone : count = 0
    · rw [if_pos hnone]
      omega
    · rw [if_neg hnone]
      dsimp only
      rcases Nat.lt_or_ge (low + count / 2) k with hlt | hge
      · rw [if_pos (hfront _ (Nat.le_add_right _ _) hlt)]
        refine ih (count - count / 2 - 1) (by omega) hlt (by omega) ?_ ?_
        · exact fun i hi => hfront i (by omega)
        · exact fun i hi hlt => hback i hi (by omega)
      · rw [hback _ hge (by omega), if_neg Bool.false_ne_true]
        exact ih (count / 2) (by omega) hlow hge hfront fun i hi hlt => hback i hi (by omega)

/-! ## Counting -/

namespace Position

/-- Lines are compared before columns. -/
def lex (p : Position) : Nat ×ₗ Nat := toLex (p.line, p.column)

/-- Positions are ordered by their lines, and by their columns on the same line. -/
theorem lex_lt_iff {p q : Position} :
    p.lex < q.lex ↔ p.line < q.line ∨ p.line = q.line ∧ p.column < q.column := Prod.Lex.toLex_lt_toLex

/-- A character moves a position on. -/
theorem lex_lt_step (p : Position) (c : Char) : p.lex < (p.step c).lex := by
  rw [lex_lt_iff, step]
  split
  · exact .inl (Nat.lt_succ_self _)
  · exact .inr ⟨rfl, Nat.lt_succ_self _⟩

/-- A position moves over a text as it does over its parts, one after the other. -/
theorem after_append (p : Position) (cs ds : List Char) : p.after (cs ++ ds) = (p.after cs).after ds :=
  List.foldl_append

/-- Characters move a position on, if there are any. -/
theorem lex_lt_after (p : Position) {cs : List Char} (h : cs ≠ []) : p.lex < (p.after cs).lex := by
  induction cs using List.reverseRecOn with
  | nil => exact absurd rfl h
  | append_singleton cs c ih =>
    have hlast : (p.after cs).lex < ((p.after cs).step c).lex := lex_lt_step _ c
    rw [after_append]
    rcases eq_or_ne cs [] with rfl | hne
    · exact hlast
    · exact (ih hne).trans hlast

/-- A text is as many lines long as there are newlines in it, and one more; its last line is what
stands behind the last newline. -/
theorem after_eq (cs : List Char) :
    ({} : Position).after cs =
      ⟨1 + cs.count '\n', 1 + (cs.rtakeWhile (· != '\n')).length⟩ := by
  induction cs using List.reverseRecOn with
  | nil => rfl
  | append_singleton cs c ih =>
    have hlast : ({} : Position).after (cs ++ [c]) = (({} : Position).after cs).step c :=
      after_append _ _ _
    rw [hlast, ih, step, List.rtakeWhile_concat, List.count_append]
    by_cases hc : c = '\n'
    · subst hc
      rfl
    · have hnone : List.count '\n' [c] = 0 := List.count_eq_zero.mpr (by simpa using Ne.symm hc)
      simp [hc, hnone, Nat.add_assoc]

/-- The characters before a boundary. -/
theorem charsBefore_append (before after : List Char) :
    charsBefore (byteLength before) (before ++ after) = before := by
  induction before with
  | nil =>
    cases after with
    | nil => rfl
    | cons c cs =>
      have hpos := c.utf8Size_pos
      rw [List.nil_append, byteLength, charsBefore, if_neg (by omega)]
  | cons c before ih =>
    rw [List.cons_append, charsBefore, byteLength, if_pos (Nat.le_add_right _ _),
      Nat.add_sub_cancel_left, ih]

end Position

/-! ## The index -/

namespace LineIndex

/-- The characters of a text start where those of its parts do. -/
theorem startsBehind_append (offset : Nat) (cs ds : List Char) :
    startsBehind offset (cs ++ ds) =
      startsBehind offset cs ++ startsBehind (offset + byteLength cs) ds := by
  induction cs generalizing offset with
  | nil => rfl
  | cons c cs ih =>
    rw [List.cons_append, startsBehind, startsBehind, ih, byteLength, Nat.add_assoc]
    split <;> rfl

/-- A line starts behind each newline. -/
theorem length_startsBehind (offset : Nat) (cs : List Char) :
    (startsBehind offset cs).length = cs.count '\n' := by
  induction cs generalizing offset with
  | nil => rfl
  | cons c cs ih =>
    rw [startsBehind]
    split
    · rename_i hc
      rw [List.length_cons, ih, hc, List.count_cons_self]
    · rename_i hc
      rw [ih, List.count_cons_of_ne hc]

/-- These lines start behind a character of the text, and the last of them at its end at most. -/
theorem mem_startsBehind {offset start : Nat} {cs : List Char} (h : start ∈ startsBehind offset cs) :
    offset < start ∧ start ≤ offset + byteLength cs := by
  induction cs generalizing offset with
  | nil => exact nomatch h
  | cons c cs ih =>
    have hpos := c.utf8Size_pos
    have hbehind : start ∈ startsBehind (offset + c.utf8Size) cs →
        offset < start ∧ start ≤ offset + byteLength (c :: cs) := by
      intro hmem
      have hbounds := ih hmem
      rw [byteLength]
      omega
    rw [startsBehind] at h
    split at h
    · rcases List.mem_cons.mp h with rfl | h
      · rw [byteLength]
        omega
      · exact hbehind h
    · exact hbehind h

/-- Before a boundary there are the characters in front of it. -/
theorem upTo?_append (before after : List Char) :
    upTo? (byteLength before) (before ++ after) = some before := by
  induction before with
  | nil => cases after <;> rfl
  | cons c before ih =>
    have hpos := c.utf8Size_pos
    rw [List.cons_append, upTo?, byteLength, if_neg (by omega), if_pos (Nat.le_add_right _ _),
      Nat.add_sub_cancel_left, ih]
    rfl

/-- Between two boundaries there are the characters that stand there. -/
theorem slice?_append (before piece after : List Char) :
    slice? (byteLength before) (byteLength (before ++ piece)) (before ++ piece ++ after) =
      some piece := by
  have hstart : upTo? (byteLength before) (before ++ piece ++ after) = some before := by
    rw [List.append_assoc]
    exact upTo?_append _ _
  have hle : byteLength before ≤ byteLength (before ++ piece) := by
    rw [byteLength_append]
    exact Nat.le_add_right _ _
  rw [slice?, hstart, upTo?_append]
  dsimp only
  rw [if_pos hle, List.drop_left]

/-- The lines that start up to a boundary are the first one and one for each newline before it. -/
theorem partitionPoint_starts (before after : List Char) :
    partitionPoint ((0 :: startsBehind 0 (before ++ after)).getD · 0 ≤ byteLength before) 0
      (0 :: startsBehind 0 (before ++ after)).length = 1 + before.count '\n' := by
  have hcount : (0 :: startsBehind 0 before).length = 1 + before.count '\n' := by
    rw [List.length_cons, length_startsBehind, Nat.add_comm]
  have hsplit : 0 :: startsBehind 0 (before ++ after) =
      (0 :: startsBehind 0 before) ++ startsBehind (0 + byteLength before) after := by
    rw [startsBehind_append, List.cons_append]
  rw [← hcount, hsplit]
  refine partitionPoint_eq (Nat.zero_le _) ?_ (fun i _ hi => ?_) fun i hle hi => ?_
  · rw [List.length_append]
    omega
  · rw [decide_eq_true_iff, List.getD_append _ _ _ _ hi, List.getD_eq_getElem _ _ hi]
    rcases List.mem_cons.mp (List.getElem_mem hi) with hzero | hmem
    · rw [hzero]
      exact Nat.zero_le _
    · have hbounds := mem_startsBehind hmem
      omega
  · rw [Nat.zero_add, List.length_append] at hi
    have hlt : i - (0 :: startsBehind 0 before).length <
        (startsBehind (0 + byteLength before) after).length := by omega
    rw [decide_eq_false_iff_not, List.getD_append_right _ _ _ _ hle, List.getD_eq_getElem _ _ hlt]
    have hbounds := mem_startsBehind (List.getElem_mem hlt)
    omega

/-- The line of a boundary starts behind the last newline before it. -/
theorem getD_starts (before after : List Char) :
    (0 :: startsBehind 0 (before ++ after)).getD (before.count '\n') 0 =
      byteLength (before.rdropWhile (· != '\n')) := by
  -- No line starts in the line that is cut off here.
  have hline : startsBehind (0 + byteLength (before.rdropWhile (· != '\n')))
      (before.rtakeWhile (· != '\n')) = [] := by
    rw [← List.length_eq_zero_iff, length_startsBehind, List.count_eq_zero]
    intro hmem
    exact absurd (List.mem_rtakeWhile_imp hmem) (by simp)
  have hstarts : startsBehind 0 before = startsBehind 0 (before.rdropWhile (· != '\n')) := by
    conv_lhs => rw [← List.rdropWhile_append_rtakeWhile (p := (· != '\n')) (l := before)]
    rw [startsBehind_append, hline, List.append_nil]
  rw [startsBehind_append, ← length_startsBehind 0, hstarts]
  rcases eq_or_ne (before.rdropWhile (· != '\n')) [] with hnil | hne
  · rw [hnil]
    rfl
  · have hlast := List.rdropWhile_last_not (· != '\n') before hne
    have hnewline : (before.rdropWhile (· != '\n')).getLast hne = '\n' := by simpa using hlast
    rw [← List.dropLast_append_getLast hne, hnewline, startsBehind_append, byteLength_append]
    generalize (before.rdropWhile (· != '\n')).dropLast = lines
    have hone : startsBehind (0 + byteLength lines) ['\n'] = [byteLength lines + 1] := by
      rw [startsBehind, if_pos rfl, Nat.zero_add]
      rfl
    rw [hone, List.length_append, List.length_singleton, List.getD_cons_succ,
      List.append_assoc, List.getD_append_right _ _ _ _ (Nat.le_refl _), Nat.sub_self]
    rfl

/-- **Looking up a position is reading on to it.** -/
theorem position_eq (before after : String) :
    (ofSource (before ++ after)).position before.utf8ByteSize =
      ({} : Position).after before.toList := by
  have hsize : before.utf8ByteSize = byteLength before.toList := by
    rw [Lexer.byteLength_eq, String.ofList_toList]
  have hmin : min before.utf8ByteSize (before ++ after).utf8ByteSize = before.utf8ByteSize := by
    rw [String.utf8ByteSize_append]
    exact min_eq_left (Nat.le_add_right _ _)
  have hcolumn := slice?_append (before.toList.rdropWhile (· != '\n'))
    (before.toList.rtakeWhile (· != '\n')) after.toList
  rw [List.rdropWhile_append_rtakeWhile] at hcolumn
  rw [position, ofSource, hmin, hsize, String.toList_append, partitionPoint_starts,
    Nat.add_sub_cancel_left, getD_starts, hcolumn, Position.after_eq, Nat.add_comm,
    Option.map_some, Option.getD_some, Nat.add_comm (List.length _)]

/-- So it is the position that the offset has reached. -/
theorem position_eq_ofOffset (before after : String) :
    (ofSource (before ++ after)).position before.utf8ByteSize =
      Position.ofOffset (before ++ after).toList before.utf8ByteSize := by
  have hsize : before.utf8ByteSize = byteLength before.toList := by
    rw [Lexer.byteLength_eq, String.ofList_toList]
  rw [position_eq, Position.ofOffset, String.toList_append, hsize, Position.charsBefore_append]

/-- Nothing is counted behind the end. -/
theorem position_past (source : String) (past : Nat) :
    (ofSource source).position (source.utf8ByteSize + past) =
      (ofSource source).position source.utf8ByteSize := by
  have hmin : min (source.utf8ByteSize + past) source.utf8ByteSize =
      min source.utf8ByteSize source.utf8ByteSize := by omega
  rw [position, ofSource, hmin, position]

/-- Positions grow with the offset. -/
theorem strictMonoOn_position (source : String) :
    StrictMonoOn (fun offset => ((ofSource source).position offset).lex)
      {offset | (String.Pos.Raw.mk offset).IsValid source} := by
  intro low hlow high hhigh hlt
  obtain ⟨front, x, hfront, hlow⟩ := String.Pos.Raw.isValid_iff_exists_append.mp hlow
  obtain ⟨back, y, hback, hhigh⟩ := String.Pos.Raw.isValid_iff_exists_append.mp hhigh
  obtain rfl : low = front.utf8ByteSize := congrArg String.Pos.Raw.byteIdx hlow
  obtain rfl : high = back.utf8ByteSize := congrArg String.Pos.Raw.byteIdx hhigh
  -- The text up to the greater offset goes on where the other one ends.
  obtain ⟨between, rfl⟩ := Span.exists_append_of_append_eq (hfront.symm.trans hback) hlt.le
  have hne : between.toList ≠ [] := by
    intro hnil
    obtain rfl : between = "" := String.toList_eq_nil_iff.mp hnil
    rw [String.append_empty] at hlt
    exact lt_irrefl _ hlt
  show ((ofSource source).position front.utf8ByteSize).lex <
    ((ofSource source).position (front ++ between).utf8ByteSize).lex
  conv_lhs => rw [hfront, position_eq]
  rw [hback, position_eq, String.toList_append, Position.after_append]
  exact Position.lex_lt_after _ hne

end LineIndex

/-! ## Lexemes -/

/-- The place at which a lexeme starts. -/
def Lexeme.place (l : Lexeme) : Lexer.Place := ⟨l.span.start, l.position⟩

namespace Lexer

/-- A lexeme stands behind characters that have been read. -/
def StandsBehind (p : Place) (cs : List Char) (l : Lexeme) : Prop :=
  ∃ front, front <+: cs ∧ l.place = p.after front

/-- What stands behind more characters stands behind those in front of them too. -/
theorem StandsBehind.append {p : Place} {gap rest : List Char} {l : Lexeme}
    (h : StandsBehind (p.after gap) rest l) : StandsBehind p (gap ++ rest) l := by
  obtain ⟨front, hfront, hplace⟩ := h
  exact ⟨gap ++ front, (List.prefix_append_right_inj gap).mpr hfront,
    hplace.trans (Place.after_append p gap front).symm⟩

/-- What stands behind a piece of the text and a part of the rest stands behind a part of the
text. -/
theorem StandsBehind.take_drop {p : Place} {c : Char} {cs : List Char} {n : Nat} {l : Lexeme}
    (h : StandsBehind (p.after (c :: cs.take n)) (cs.drop n) l) : StandsBehind p (c :: cs) l := by
  have happend := h.append
  rwa [List.cons_append, List.take_append_drop] at happend

/-- It starts at the place itself at the earliest. -/
theorem StandsBehind.le_start {p : Place} {cs : List Char} {l : Lexeme} (h : StandsBehind p cs l) :
    p.offset ≤ l.span.start := by
  obtain ⟨front, -, hplace⟩ := h
  have hstart : l.span.start = p.offset + byteLength front := congrArg Place.offset hplace
  omega

/-- Every lexeme of a scan stands behind characters that have been read, and starts behind the one
in front of it. -/
theorem scanFrom_standsBehind (p : Place) (cs : List Char) :
    (∀ l ∈ (scanFrom p cs).lexemes, StandsBehind p cs l) ∧
      (scanFrom p cs).lexemes.Pairwise fun l m => l.span.start < m.span.start := by
  induction cs using scan_induction generalizing p with
  | nil =>
    rw [scanFrom_nil]
    exact ⟨List.forall_mem_singleton.mpr ⟨[], List.nil_prefix, rfl⟩, List.pairwise_singleton _ _⟩
  | trivia gap rest hgap ih =>
    rw [scanFrom_trivia hgap]
    exact ⟨fun l hl => ((ih (p.after gap)).1 l hl).append, (ih (p.after gap)).2⟩
  | comment body hbody =>
    rw [scanFrom_lastComment hbody, scanFrom_nil]
    exact ⟨List.forall_mem_singleton.mpr ⟨body, List.prefix_rfl, rfl⟩, List.pairwise_singleton _ _⟩
  | token c cs t n hfront ih =>
    obtain ⟨hplaces, hpairwise⟩ := ih (p.after (c :: cs.take n))
    rw [scanFrom_token hfront]
    constructor
    · exact List.forall_mem_cons.mpr
        ⟨⟨[], List.nil_prefix, rfl⟩, fun l hl => (hplaces l hl).take_drop⟩
    · refine List.pairwise_cons.mpr ⟨fun m hm => ?_, hpairwise⟩
      -- All other lexemes start behind the characters of this one.
      have hbehind : p.offset + (c.utf8Size + byteLength (cs.take n)) ≤ m.span.start :=
        (hplaces m hm).le_start
      have hpos := c.utf8Size_pos
      show p.offset < m.span.start
      omega
  | fault c cs f n hfront ih =>
    rw [scanFrom_fault hfront]
    exact ⟨fun l hl => ((ih _).1 l hl).take_drop, (ih _).2⟩

/-- The position of a lexeme is that of its first byte. -/
theorem position_eq_lookup {source : String} {l : Lexeme} (hl : l ∈ (scan source).lexemes) :
    l.position = (LineIndex.ofSource source).position l.span.start := by
  obtain ⟨front, ⟨back, hsource⟩, hplace⟩ := (scanFrom_standsBehind {} source.toList).1 l hl
  have hposition : l.position = ({} : Position).after front := congrArg Place.position hplace
  have hstart : l.span.start = (String.ofList front).utf8ByteSize := by
    rw [← byteLength_eq, ← Nat.zero_add (byteLength front)]
    exact congrArg Place.offset hplace
  have happend : source = String.ofList front ++ String.ofList back := by
    rw [← String.ofList_append, hsource, String.ofList_toList]
  rw [hposition, hstart, happend, LineIndex.position_eq, String.toList_ofList]

end Lexer

/-- **The line and the column of an offset.** In every text, the position looked up for a boundary
between characters counts the newlines before it and the characters behind the last one of them; it
is the position that reading on to the offset comes to. An offset past the end counts as the end.
So positions grow with the offset. The position of a lexeme is the one looked up for its first byte,
and the positions of the lexemes of a source grow in their order. -/
theorem position_counts :
    (∀ before after : String,
      (LineIndex.ofSource (before ++ after)).position before.utf8ByteSize =
          ⟨1 + before.toList.count '\n', 1 + (before.toList.rtakeWhile (· != '\n')).length⟩ ∧
        (LineIndex.ofSource (before ++ after)).position before.utf8ByteSize =
          Position.ofOffset (before ++ after).toList before.utf8ByteSize) ∧
    ∀ source : String,
      (∀ past, (LineIndex.ofSource source).position (source.utf8ByteSize + past) =
        (LineIndex.ofSource source).position source.utf8ByteSize) ∧
      StrictMonoOn (fun offset => ((LineIndex.ofSource source).position offset).lex)
        {offset | (String.Pos.Raw.mk offset).IsValid source} ∧
      (∀ l ∈ (Lexer.scan source).lexemes,
        l.position = (LineIndex.ofSource source).position l.span.start) ∧
      (Lexer.scan source).lexemes.Pairwise fun l m => l.position.lex < m.position.lex := by
  refine ⟨fun before after => ⟨?_, LineIndex.position_eq_ofOffset before after⟩, fun source => ?_⟩
  · rw [LineIndex.position_eq, Position.after_eq]
  have hmono := LineIndex.strictMonoOn_position source
  refine ⟨LineIndex.position_past source, hmono, fun l => Lexer.position_eq_lookup, ?_⟩
  have hpairwise := (Lexer.scanFrom_standsBehind {} source.toList).2
  refine hpairwise.imp_of_mem fun {l m} hl hm hlt => ?_
  rw [Lexer.position_eq_lookup hl, Lexer.position_eq_lookup hm]
  exact hmono ((Lexer.scan_fits source).1 l hl).start ((Lexer.scan_fits source).1 m hm).start hlt

/-- Behind a character of two bytes on the fourth line. -/
example : (LineIndex.ofSource "ab\ncd\n\né$").position 9 = ⟨4, 2⟩ := by decide +kernel

end Flowchart
