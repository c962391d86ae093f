import Flowchart.Document
import Flowchart.Layout
import Flowchart.Proofs.Machine.Arithmetic
import Flowchart.Proofs.Text.Pieces

/-!
# Wrapped labels

Every line of a label is wrapped on its own, into one or more lines. `Filled` says what these are:
whole words that follow each other, with one space between each two, or the pieces of one word that
does not fit. So no line is too wide unless it is a single character, lines are tidy, and nothing
but blanks is lost or added (`Wraps`). None of this asks anything of the measure.

Labels are wrapped to the width that a shape leaves for text, and an icon grows with its lines, so
every icon has room for its label (`wrap_holds`).
-/

namespace Flowchart

namespace Wrap

/-! ## Pieces of a word -/

/-- Bisection finds a number that fits, or none. -/
theorem bisect_eq_or (fits : ℕ → Bool) (low count best : ℕ) :
    bisect fits low count best = best ∨
      low ≤ bisect fits low count best ∧ fits (bisect fits low count best) = true := by
  induction count using Nat.strong_induction_on generalizing low best with
  | _ count ih =>
    rw [bisect]
    split
    · exact .inl rfl
    · rename_i hcount
      dsimp only
      split
      · rename_i hfits
        -- The middle fits and is the best so far, and what is searched next lies above it.
        rcases ih (count - 1 - (count - 1) / 2) (by omega) (low + (count - 1) / 2 + 1)
            (low + (count - 1) / 2) with heq | ⟨hle, hbest⟩
        · rw [heq]
          exact .inr ⟨Nat.le_add_right _ _, hfits⟩
        · exact .inr ⟨by omega, hbest⟩
      · exact ih ((count - 1) / 2) (by omega) low best

/-- A line is narrow when it fits or is too short to be cut any further. -/
def Narrow (fits : List Char → Bool) (line : List Char) : Prop :=
  fits line = true ∨ line.length ≤ 1

variable {fits : List Char → Bool}

/-- A word is cut behind a narrow piece that is not empty. -/
theorem exists_pieces_cons (fits : List Char → Bool) (c : Char) (cs : List Char) :
    ∃ piece rest, piece ++ rest = c :: cs ∧ piece ≠ [] ∧ Narrow fits piece ∧
      pieces fits (c :: cs) = piece :: pieces fits rest := by
  have hbisect := bisect_eq_or (fun n => fits ((c :: cs).take n)) 1 (cs.length + 1) 1
  rw [pieces]
  generalize bisect (fun n => fits ((c :: cs).take n)) 1 (cs.length + 1) 1 = length at hbisect ⊢
  refine ⟨_, _, ?_, List.cons_ne_nil c _, ?_, rfl⟩
  · rw [List.cons_append, List.take_append_drop]
  · rcases hbisect with rfl | ⟨hle, hfits⟩
    · exact .inr le_rfl
    · obtain ⟨n, rfl⟩ : ∃ n, length = n + 1 := ⟨length - 1, by omega⟩
      exact .inl hfits

/-- The pieces of a word make up the word, and each of them is narrow and not empty. -/
theorem flatten_pieces (fits : List Char → Bool) (word : List Char) :
    (pieces fits word).flatten = word ∧
      ∀ piece ∈ pieces fits word, piece ≠ [] ∧ Narrow fits piece := by
  induction hlength : word.length using Nat.strong_induction_on generalizing word with
  | _ length ih =>
    cases word with
    | nil =>
      rw [pieces]
      exact ⟨rfl, fun _ hpiece => absurd hpiece List.not_mem_nil⟩
    | cons c cs =>
      obtain ⟨piece, rest, hword, hne, hnarrow, hpieces⟩ := exists_pieces_cons fits c cs
      have hshorter : rest.length < length := by
        have hsum := congrArg List.length hword
        rw [List.length_append, hlength] at hsum
        have hpos := List.length_pos_of_ne_nil hne
        omega
      obtain ⟨hflatten, hall⟩ := ih _ hshorter rest rfl
      rw [hpieces]
      refine ⟨?_, List.forall_mem_cons.mpr ⟨⟨hne, hnarrow⟩, hall⟩⟩
      rw [List.flatten_cons, hflatten, hword]

/-! ## Filled lines -/

/-- Lines that are filled with words, in their order: a line has some whole words on it and fits, or
it is one of the pieces of a word that does not fit. -/
inductive Filled (fits : List Char → Bool) : List (List Char) → List (List Char) → Prop where
  /-- No words are left. -/
  | done : Filled fits [] []
  /-- A line takes words that fit together. -/
  | line {ws words lines : List (List Char)} : ws ≠ [] → fits (Text.joinWords ws) = true →
      Filled fits words lines → Filled fits (ws ++ words) (Text.joinWords ws :: lines)
  /-- A word that does not fit by itself is cut into lines of its own. -/
  | cut {ps words lines : List (List Char)} : fits ps.flatten = false →
      (∀ p ∈ ps, p ≠ [] ∧ Narrow fits p) → Filled fits words lines →
      Filled fits (ps.flatten :: words) (ps ++ lines)

/-- Filling starts with the words on the current line. -/
theorem filled_fill (words : List (List Char)) :
    Filled fits words (fill fits none words) ∧
      ∀ ws, ws ≠ [] → fits (Text.joinWords ws) = true →
        Filled fits (ws ++ words) (fill fits (some (Text.joinWords ws)) words) := by
  induction words with
  | nil =>
    refine ⟨.done, fun ws hne hfits => ?_⟩
    exact .line hne hfits .done
  | cons word words ih =>
    obtain ⟨hnone, hsome⟩ := ih
    -- Without a current line, the word opens one or is cut.
    have hopen : Filled fits (word :: words) (fill fits none (word :: words)) := by
      rw [fill]
      split
      · rename_i hfits
        have hline := hsome [word] (List.cons_ne_nil word []) (by rwa [Text.joinWords_singleton])
        rwa [Text.joinWords_singleton, List.singleton_append] at hline
      · rename_i hfits
        obtain ⟨hflatten, hpieces⟩ := flatten_pieces fits word
        have hcut := Filled.cut (by rwa [hflatten, Bool.eq_false_iff]) hpieces hnone
        rwa [hflatten] at hcut
    refine ⟨hopen, fun ws hne hfits => ?_⟩
    rw [fill]
    have hjoined : Text.joinWords ws ++ ' ' :: word = Text.joinWords (ws ++ [word]) := by
      rw [Text.joinWords_append hne (List.cons_ne_nil word []), Text.joinWords_singleton]
    split
    · rename_i hlonger
      rw [hjoined] at hlonger ⊢
      have hfilled := hsome (ws ++ [word]) (by simp) hlonger
      rwa [List.append_assoc, List.singleton_append] at hfilled
    · -- The current line is full, and it goes on as if there were none.
      have hline := Filled.line hne hfits hopen
      rw [fill] at hline
      split <;> rename_i hword <;> simpa [hword] using hline

section

variable {words lines : List (List Char)}

/-- Every line that has been filled fits or cannot be cut any further. -/
theorem Filled.narrow (h : Filled fits words lines) : ∀ line ∈ lines, Narrow fits line := by
  induction h with
  | done => exact nofun
  | line _ hfits _ ih => exact List.forall_mem_cons.mpr ⟨.inl hfits, ih⟩
  | cut _ hpieces _ ih => exact List.forall_mem_append.mpr ⟨fun p hp => (hpieces p hp).2, ih⟩

/-- The lines are tidy and not empty. -/
theorem Filled.tidy (h : Filled fits words lines) (hwords : ∀ w ∈ words, Text.IsWord w) :
    ∀ line ∈ lines, Text.Tidy line ∧ line ≠ [] := by
  induction h with
  | done => exact nofun
  | line hne _ _ ih =>
    obtain ⟨hws, hwords⟩ := List.forall_mem_append.mp hwords
    exact List.forall_mem_cons.mpr ⟨Text.tidy_joinWords hne hws, ih hwords⟩
  | cut _ hpieces _ ih =>
    obtain ⟨hword, hwords⟩ := List.forall_mem_cons.mp hwords
    refine List.forall_mem_append.mpr ⟨fun p hp => ⟨?_, (hpieces p hp).1⟩, ih hwords⟩
    exact Text.tidy_of_solid fun c hc => hword.solid c (List.mem_flatten_of_mem hp hc)

/-- The lines hold the characters of the words and nothing else but blanks. -/
theorem Filled.solidPart_eq (h : Filled fits words lines) (hwords : ∀ w ∈ words, Text.IsWord w) :
    Text.solidPart lines.flatten = words.flatten := by
  induction h with
  | done => rfl
  | line hne _ _ ih =>
    obtain ⟨hws, hwords⟩ := List.forall_mem_append.mp hwords
    rw [List.flatten_cons, Text.solidPart_append, Text.solidPart_joinWords hws, ih hwords,
      List.flatten_append]
  | cut _ _ _ ih =>
    obtain ⟨hword, hwords⟩ := List.forall_mem_cons.mp hwords
    rw [List.flatten_append, Text.solidPart_append, Text.solidPart_eq_self hword.solid, ih hwords,
      List.flatten_cons]

/-- Words need at least one line. -/
theorem Filled.words_eq_nil (h : Filled fits words []) (hwords : ∀ w ∈ words, Text.IsWord w) :
    words = [] := by
  have hflatten : [] = words.flatten := h.solidPart_eq hwords
  exact List.eq_nil_iff_forall_not_mem.mpr fun w hw =>
    (hwords w hw).ne_nil (List.flatten_eq_nil_iff.mp hflatten.symm w hw)

end

/-! ## The lines of a label -/

/-- What one line of a label is wrapped into. -/
structure Wraps (fits : List Char → Bool) (source : List Char) (lines : List (List Char)) : Prop where
  /-- There is at least one line. -/
  ne_nil : lines ≠ []
  /-- Every line fits or cannot be cut any further. -/
  narrow : ∀ line ∈ lines, Narrow fits line
  /-- No line has blanks in excess. -/
  tidy : ∀ line ∈ lines, Text.Tidy line
  /-- All characters that are not blank are kept, in their order. -/
  kept : Text.solidPart lines.flatten = Text.solidPart source
  /-- A line without words stays as one empty line. -/
  filled : if Text.words source = [] then lines = [[]] else Filled fits (Text.words source) lines

/-- A line without words is one empty line; else its words are filled into lines. -/
theorem wrapLine_eq (fits : List Char → Bool) (source : List Char) :
    wrapLine fits source = [[]] ∧ Text.words source = [] ∨
      wrapLine fits source = fill fits none (Text.words source) ∧ Text.words source ≠ [] := by
  have hfilled : Filled fits _ _ := (filled_fill (Text.words source)).1
  rw [wrapLine]
  split
  · rename_i hnone
    rw [hnone] at hfilled
    exact .inl ⟨rfl, hfilled.words_eq_nil fun _ => Text.isWord_of_mem_words⟩
  · rename_i hsome
    refine .inr ⟨rfl, fun hnone => ?_⟩
    rw [hnone] at hsome
    exact hsome rfl

/-- A line is wrapped by filling its words into lines, without the carriage return at its end. -/
theorem wraps_wrapLine (fits : List Char → Bool) (source : List Char) :
    Wraps fits source (wrapLine fits (Text.dropReturn source)) := by
  have hwords : ∀ w ∈ Text.words source, Text.IsWord w := fun _ => Text.isWord_of_mem_words
  rcases wrapLine_eq fits (Text.dropReturn source) with ⟨hlines, hnone⟩ | ⟨hlines, hsome⟩
  · rw [Text.words_dropReturn] at hnone
    rw [hlines]
    exact
      { ne_nil := List.cons_ne_nil _ _
        narrow := List.forall_mem_singleton.mpr (.inr (Nat.zero_le 1))
        tidy := List.forall_mem_singleton.mpr Text.tidy_nil
        kept := by
          rw [← Text.flatten_words source, hnone]
          rfl
        filled := by rw [if_pos hnone] }
  · rw [Text.words_dropReturn] at hlines hsome
    rw [hlines]
    have hfilled : Filled fits _ _ := (filled_fill (Text.words source)).1
    exact
      { ne_nil := fun hnil => hsome ((hnil ▸ hfilled).words_eq_nil hwords)
        narrow := hfilled.narrow
        tidy := fun line hline => (hfilled.tidy hwords line hline).1
        kept := by rw [hfilled.solidPart_eq hwords, Text.flatten_words]
        filled := by rwa [if_neg hsome] }

end Wrap

/-! ## Room in an icon -/

/-- The lengths that the height of a text is made of: the room above and below it is not negative,
and a line has a finite height. -/
def Shape.Measured (s : Shape) : Prop :=
  (s.padding.vertical.isNaN = false ∧ 0 ≤ Machine.rank s.padding.vertical) ∧
    0 < Machine.rank s.lineHeight ∧ Machine.rank s.lineHeight < Machine.top

/-- Whether a shape has room for text can be computed. -/
instance (s : Shape) : Decidable s.Measured := by unfold Shape.Measured; infer_instance

/-- The shapes of all icons have room for text. -/
theorem Shape.measured_ofName (name : String) : (Shape.ofName name).Measured := by
  unfold Shape.ofName
  split <;> decide +kernel

/-- An icon that grows is at least as high as its text with the room around it. -/
theorem Shape.le_heightFor {s : Shape} (h : s.Measured) (hgrows : s.grows = true) (count : ℕ) :
    s.padding.vertical + Float32.ofNat count * s.lineHeight ≤ s.heightFor count := by
  obtain ⟨⟨hvertical, hverticalZero⟩, hline, hfinite⟩ := h
  obtain ⟨hcount, hcountZero⟩ := Machine.rank_ofNat_nonneg count
  obtain ⟨htext, htextZero⟩ := Machine.rank_mul_nonneg hcount hcountZero hline (.inr hfinite)
  rw [Shape.heightFor, if_pos hgrows]
  exact Machine.le_larger (Machine.isNaN_add hvertical htext hverticalZero htextZero)

/-- A label is wrapped line by line. -/
theorem wrap_eq_flatten (measure : Measure) (limit : Float32) (label : String) :
    wrap measure limit label = ((Text.lines label.toList).map fun line =>
      Wrap.wrapLine (measure.fits limit) (Text.dropReturn line)).flatten.map String.ofList := by
  rw [wrap, Wrap.wrapChars, List.flatMap_def]

/-- What is wrapped is narrow. -/
theorem narrow_of_mem_wrap {measure : Measure} {limit : Float32} {label line : String}
    (h : line ∈ wrap measure limit label) : measure line.toList ≤ limit ∨ line.length ≤ 1 := by
  rw [wrap_eq_flatten] at h
  obtain ⟨chars, hchars, rfl⟩ := List.mem_map.mp h
  obtain ⟨lines, hlines, hmem⟩ := List.mem_flatten.mp hchars
  obtain ⟨source, -, rfl⟩ := List.mem_map.mp hlines
  rw [String.toList_ofList, String.length_ofList]
  exact ((Wrap.wraps_wrapLine _ source).narrow chars hmem).imp_left of_decide_eq_true

/-- **Wrapped labels fit and lose nothing.** Whatever the measure and the limit are, the lines of a
wrapped label are made up of one group for each line of the label, in their order: no line of a group
is too wide unless it is a single character, all of them are tidy, and they hold the words of the
line. So the lines of every framed node fit the width that its shape leaves for text, and an icon
that grows has room for them. -/
theorem wrap_holds (measure : Measure) :
    (∀ limit label, ∃ groups : List (List (List Char)),
      wrap measure limit label = groups.flatten.map String.ofList ∧
        List.Forall₂ (Wrap.Wraps (measure.fits limit)) (Text.lines label.toList) groups) ∧
    ∀ d : Diagram, ∀ n ∈ (d.framed measure).nodes, ∃ frame, n.frame = some frame ∧
      frame.lines = wrap measure (Shape.ofName n.kind.name).textWidth n.label ∧
      (∀ line ∈ frame.lines,
        measure line.toList ≤ (Shape.ofName n.kind.name).textWidth ∨ line.length ≤ 1) ∧
      ((Shape.ofName n.kind.name).grows = true →
        frame.padding.vertical + Float32.ofNat frame.lines.length * frame.lineHeight ≤
          frame.height) := by
  constructor
  · intro limit label
    refine ⟨_, wrap_eq_flatten measure limit label, ?_⟩
    exact List.forall₂_map_right_iff.mpr
      (List.forall₂_same.mpr fun source _ => Wrap.wraps_wrapLine _ source)
  · intro d n hn
    obtain ⟨node, -, rfl⟩ := List.mem_map.mp hn
    refine ⟨_, rfl, rfl, fun _ => narrow_of_mem_wrap, fun hgrows => ?_⟩
    exact Shape.le_heightFor (Shape.measured_ofName _) hgrows _

/-- An icon whose label has a word that is too long for one line. -/
def longWordSource : String :=
  "drakon \"d\" \x7b action \"a\" \x7b text = \"abcdefghijklmnopqrstuvwxyz  to  be\" \x7d \x7d"

/-- The word is cut, the others get a line of their own, and the icon has room for all three. -/
theorem wrap_holds_longWord :
    ∃ diagram n frame, (Document.read longWordSource).diagram = some diagram ∧
      n ∈ (diagram.framed (.fixed 8)).nodes ∧ (Shape.ofName n.kind.name).grows = true ∧
      n.frame = some frame ∧ frame.lines = ["abcdefghijklmnopqrstuvw", "xyz", "to be"] ∧
      (∀ line ∈ frame.lines, Measure.fixed 8 line.toList ≤
        (Shape.ofName n.kind.name).textWidth ∨ line.length ≤ 1) ∧
      frame.padding.vertical + Float32.ofNat 3 * frame.lineHeight ≤ frame.height := by
  have hframed : (Document.read longWordSource).diagram.any (fun diagram =>
      (diagram.framed (.fixed 8)).nodes.any fun n => (Shape.ofName n.kind.name).grows = true ∧
        wrap (.fixed 8) (Shape.ofName n.kind.name).textWidth n.label =
          ["abcdefghijklmnopqrstuvw", "xyz", "to be"]) = true := by decide +kernel
  obtain ⟨diagram, hdiagram, hframed⟩ := (Option.any_eq_true _ _).mp hframed
  obtain ⟨n, hn, hframed⟩ := List.any_eq_true.mp hframed
  obtain ⟨hgrows, hlines⟩ := of_decide_eq_true hframed
  obtain ⟨frame, hframe, heq, hnarrow, hheight⟩ := (wrap_holds (.fixed 8)).2 diagram n hn
  have hthree := hheight hgrows
  rw [heq, hlines] at hthree
  exact ⟨diagram, n, frame, hdiagram, hn, hgrows, hframe, heq.trans hlines, hnarrow, hthree⟩

end Flowchart
