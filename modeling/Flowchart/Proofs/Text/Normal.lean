import Mathlib.Data.List.DropRight
import Mathlib.Data.List.Forall2
import Flowchart.Draft.Parameters
import Flowchart.Proofs.Table
import Flowchart.Proofs.Text.Pieces
import Flowchart.Text.Indent

/-!
# The normal form of a text

`Normal` says what the lines of a text in normal form look like, and normalizing gives such a text
(`normal_normalizeChars`) and does nothing to one (`normalizeChars_eq_self`). What it takes away is
blank: the lines that are not blank stay, all of them moved to the left by the same number of blanks
(`forall₂_normalizeChars`).

The label of a parameters icon is in normal form, and its `text` is the label once more in normal
form, so the two are equal (`normalize_holds`).
-/

namespace Flowchart.Text

variable {n : ℕ} {cs line source : List Char} {ls : List (List Char)}

/-! ## Indentation -/

/-- A text is blank when nothing is left of it without its blanks. -/
theorem solidPart_eq_nil_iff : solidPart cs = [] ↔ isBlankText cs = true := by
  rw [solidPart, List.filter_eq_nil_iff, isBlankText, List.all_eq_true]
  exact forall₂_congr fun c _ => by rw [Bool.not_eq_true', Bool.not_eq_false]

/-- A line with `n` blanks less in front, which leaves it `n` blanks less indented. -/
structure Outdented (n : ℕ) (source line : List Char) : Prop where
  /-- The line is the source without `n` characters in front. -/
  eq : line = source.drop n
  /-- All of them were blanks. -/
  indentOf_eq : indentOf source = n + indentOf line

/-- The characters that a line is indented by are blank. -/
theorem isBlank_of_mem_take (h : n ≤ indentOf line) : ∀ c ∈ line.take n, isBlank c = true := by
  intro c hc
  have hindent : line.takeWhile isBlank = line.take (indentOf line) :=
    List.prefix_iff_eq_take.mp (List.takeWhile_prefix isBlank)
  have hmem : c ∈ line.take (indentOf line) := (List.take_prefix_take_left h).subset hc
  exact List.mem_takeWhile_imp (hindent ▸ hmem)

/-- A line loses as many characters as it is indented by, or fewer. -/
theorem outdented_drop (h : n ≤ indentOf line) : Outdented n line (line.drop n) where
  eq := rfl
  indentOf_eq := by
    have hlength : (line.take n).length = n :=
      List.length_take_of_le (h.trans (List.takeWhile_prefix isBlank).length_le)
    calc indentOf line
        = ((line.take n ++ line.drop n).takeWhile isBlank).length := by
          rw [List.take_append_drop, indentOf]
      _ = n + indentOf (line.drop n) := by
          rw [List.takeWhile_append_of_pos (isBlank_of_mem_take h), List.length_append, hlength,
            indentOf]

/-- Only blanks are taken away in front of a line. -/
theorem Outdented.solidPart_eq (h : Outdented n source line) : solidPart line = solidPart source := by
  have hle : n ≤ indentOf source := h.indentOf_eq ▸ Nat.le_add_right n _
  have hblank : solidPart (source.take n) = [] :=
    solidPart_eq_nil_iff.mpr (List.all_eq_true.mpr (isBlank_of_mem_take hle))
  rw [h.eq, ← List.nil_append (solidPart _), ← hblank, ← solidPart_append, List.take_append_drop]

/-- A line that loses some of its indentation is blank when it was blank before. -/
theorem Outdented.isBlankText_eq (h : Outdented n source line) :
    isBlankText line = isBlankText source := by
  rw [Bool.eq_iff_iff, ← solidPart_eq_nil_iff, ← solidPart_eq_nil_iff, h.solidPart_eq]

/-! ## Lines that are not blank -/

/-- The lines that are not blank. -/
def solidLines (ls : List (List Char)) : List (List Char) := ls.filter (! isBlankText ·)

/-- The solid lines are those that are not blank. -/
theorem mem_solidLines : line ∈ solidLines ls ↔ line ∈ ls ∧ isBlankText line = false := by
  rw [solidLines, List.mem_filter, Bool.not_eq_true']

/-- What lines have in common is the least indentation of those that are not blank. -/
theorem min?_indents (h : line ∈ solidLines ls) :
    ((solidLines ls).map indentOf).min? = some (commonIndent ls) := by
  cases hmin : ((solidLines ls).map indentOf).min? with
  | none =>
    rw [List.min?_eq_none_iff, List.map_eq_nil_iff] at hmin
    exact absurd (hmin ▸ h) List.not_mem_nil
  | some least => rw [commonIndent, ← solidLines, hmin, Option.getD_some]

/-- No line that is not blank is indented by less than the lines have in common. -/
theorem commonIndent_le (h : line ∈ solidLines ls) : commonIndent ls ≤ indentOf line :=
  (List.min?_eq_some_iff.mp (min?_indents h)).2 _ (List.mem_map_of_mem h)

/-- Some line is indented by just what the lines have in common. -/
theorem exists_indentOf_eq (h : line ∈ solidLines ls) :
    ∃ flush ∈ solidLines ls, indentOf flush = commonIndent ls :=
  List.mem_map.mp (List.min?_mem (min?_indents h))

/-- The lines that are not blank have, in their order, all the characters that are not blank. -/
theorem solidPart_joinLines (ls : List (List Char)) :
    solidPart (joinLines ls) = ((solidLines ls).map solidPart).flatten := by
  induction ls with
  | nil => rfl
  | cons line ls ih =>
    have hjoin : solidPart (joinLines (line :: ls)) = solidPart line ++ solidPart (joinLines ls) := by
      rcases eq_or_ne ls [] with rfl | hne
      · rw [joinLines_singleton]
        exact (List.append_nil _).symm
      · rw [joinLines_cons hne, solidPart_append]
        rfl
    rw [hjoin, ih, solidLines, solidLines, List.filter_cons]
    cases hline : isBlankText line with
    | true =>
      rw [solidPart_eq_nil_iff.mpr hline]
      rfl
    | false => rfl

/-- No line that is not blank is dropped in front. -/
theorem solidLines_dropWhile (ls : List (List Char)) :
    solidLines (ls.dropWhile isBlankText) = solidLines ls := by
  induction ls with
  | nil => rfl
  | cons line ls ih =>
    rw [List.dropWhile_cons]
    cases hline : isBlankText line with
    | true =>
      rw [if_pos rfl, ih, solidLines, solidLines, List.filter_cons, hline]
      rfl
    | false => rfl

/-! ## Trimming -/

/-- No line that is not blank is trimmed. -/
theorem solidLines_trimLines (ls : List (List Char)) : solidLines (trimLines ls) = solidLines ls := by
  have hreverse : ∀ ls : List (List Char), solidLines ls.reverse = (solidLines ls).reverse :=
    fun ls => List.filter_reverse
  rw [trimLines, hreverse, solidLines_dropWhile, hreverse, solidLines_dropWhile, List.reverse_reverse]

/-- Trimming leaves out lines and does nothing else. -/
theorem trimLines_sublist (ls : List (List Char)) : (trimLines ls).Sublist ls :=
  (List.rdropWhile_prefix isBlankText _).sublist.trans (List.dropWhile_suffix isBlankText).sublist

/-- Neither the first nor the last line is blank. -/
structure Trimmed (ls : List (List Char)) : Prop where
  /-- The first line is not blank. -/
  first : ∀ line ∈ ls.head?, isBlankText line = false
  /-- The last line is not blank. -/
  last : ∀ line ∈ ls.getLast?, isBlankText line = false

/-- Lines that are trimmed neither start nor end with a blank one. -/
theorem trimmed_trimLines (ls : List (List Char)) : Trimmed (trimLines ls) where
  first := by
    intro line hline
    -- What is trimmed behind comes after the first line, unless nothing is left.
    obtain ⟨rest, hrest⟩ : trimLines ls <+: ls.dropWhile isBlankText := List.rdropWhile_prefix _ _
    have hhead : (ls.dropWhile isBlankText).head? = some line := by
      rw [← hrest, List.head?_append, hline, Option.some_or]
    have hnot := List.head?_dropWhile_not isBlankText ls
    rwa [hhead] at hnot
  last := by
    intro line hline
    rw [trimLines, List.getLast?_reverse] at hline
    have hnot := List.head?_dropWhile_not isBlankText (ls.dropWhile isBlankText).reverse
    rwa [hline] at hnot

/-- There is nothing to trim of trimmed lines. -/
theorem Trimmed.trimLines_eq (h : Trimmed ls) : trimLines ls = ls := by
  have hfirst : ls.dropWhile isBlankText = ls := by
    refine List.dropWhile_eq_self_iff.mpr fun hpos => ?_
    rw [h.first _ (List.head?_eq_getElem? ▸ List.getElem?_eq_getElem hpos)]
    exact Bool.false_ne_true
  have hlast : ls.rdropWhile isBlankText = ls := by
    refine List.rdropWhile_eq_self_iff.mpr fun hne => ?_
    rw [h.last _ (List.getLast?_eq_some_getLast hne)]
    exact Bool.false_ne_true
  rw [trimLines, hfirst]
  exact hlast

/-! ## Stripping -/

/-- A line without `n` characters in front, or nothing if it is blank. -/
def stripLine (n : ℕ) (line : List Char) : List Char :=
  if isBlankText line then [] else line.drop n

/-- The lines lose what they have in common, each by itself. -/
theorem stripIndent_eq_map (ls : List (List Char)) :
    stripIndent ls = ls.map (stripLine (commonIndent ls)) := rfl

/-- A line that is stripped loses characters and gains none. -/
theorem stripLine_sublist (n : ℕ) (line : List Char) : (stripLine n line).Sublist line := by
  rw [stripLine]
  split
  · exact List.nil_sublist line
  · exact List.drop_sublist n line

/-- The lines that are not blank lose the same number of blanks in front. -/
theorem outdented_stripLine (h : line ∈ solidLines ls) :
    Outdented (commonIndent ls) line (stripLine (commonIndent ls) line) := by
  rw [stripLine, (mem_solidLines.mp h).2, if_neg Bool.false_ne_true]
  exact outdented_drop (commonIndent_le h)

/-- Stripping makes no line blank. -/
theorem isBlankText_stripLine (h : line ∈ ls) :
    isBlankText (stripLine (commonIndent ls) line) = isBlankText line := by
  cases hsolid : isBlankText line with
  | true =>
    rw [stripLine, if_pos hsolid]
    rfl
  | false => rw [(outdented_stripLine (mem_solidLines.mpr ⟨h, hsolid⟩)).isBlankText_eq, hsolid]

/-- Stripping keeps the solid lines in order, each with less indentation. -/
theorem forall₂_stripIndent (ls : List (List Char)) :
    List.Forall₂ (Outdented (commonIndent ls)) (solidLines ls) (solidLines (stripIndent ls)) := by
  have hstrip : solidLines (stripIndent ls) = (solidLines ls).map (stripLine (commonIndent ls)) := by
    rw [solidLines, stripIndent_eq_map, List.filter_map, solidLines]
    exact congrArg _ (List.filter_congr fun line hline => congrArg not (isBlankText_stripLine hline))
  rw [hstrip]
  exact List.forall₂_map_right_iff.mpr (List.forall₂_same.mpr fun line => outdented_stripLine)

/-- No newline comes into a line when it is stripped. -/
theorem lines_joinLines_stripIndent (hne : ls ≠ []) (h : ∀ line ∈ ls, '\n' ∉ line) :
    lines (joinLines (stripIndent ls)) = stripIndent ls := by
  refine lines_joinLines (mt List.map_eq_nil_iff.mp hne) fun line hline hmem => ?_
  obtain ⟨source, hsource, rfl⟩ := List.mem_map.mp hline
  exact h source hsource ((stripLine_sublist _ source).subset hmem)

/-! ## Normal form -/

/-- The lines of a text in normal form, unless it is empty. -/
structure Normal (ls : List (List Char)) : Prop extends Trimmed ls where
  /-- A blank line is empty. -/
  blank : ∀ line ∈ ls, isBlankText line = true → line = []
  /-- Some line is not indented. -/
  flush : ∃ line ∈ ls, ∃ c ∈ line.head?, isBlank c = false

/-- A line starts with a character that is not blank when it is not blank and not indented. -/
theorem exists_head_iff (line : List Char) :
    (∃ c ∈ line.head?, isBlank c = false) ↔ isBlankText line = false ∧ indentOf line = 0 := by
  cases line with
  | nil => simp [isBlankText]
  | cons c cs => cases hc : isBlank c <;> simp [isBlankText, indentOf, hc]

/-- Lines that are trimmed are in normal form when they are stripped. -/
theorem normal_stripIndent (h : Trimmed ls) (hne : ls ≠ []) : Normal (stripIndent ls) where
  first := by
    intro line hline
    rw [stripIndent_eq_map, List.head?_map] at hline
    obtain ⟨source, hsource, rfl⟩ := Option.map_eq_some_iff.mp hline
    rw [isBlankText_stripLine (List.mem_of_mem_head? hsource)]
    exact h.first source hsource
  last := by
    intro line hline
    rw [stripIndent_eq_map, List.getLast?_map] at hline
    obtain ⟨source, hsource, rfl⟩ := Option.map_eq_some_iff.mp hline
    rw [isBlankText_stripLine (List.mem_of_mem_getLast? hsource)]
    exact h.last source hsource
  blank := by
    intro line hline hblank
    obtain ⟨source, hsource, rfl⟩ := List.mem_map.mp hline
    exact if_pos ((isBlankText_stripLine hsource).symm.trans hblank)
  flush := by
    have hfirst := h.first _ (List.head?_eq_some_head hne)
    obtain ⟨source, hsource, hindent⟩ :=
      exists_indentOf_eq (mem_solidLines.mpr ⟨List.head_mem hne, hfirst⟩)
    obtain ⟨hmem, hsolid⟩ := mem_solidLines.mp hsource
    -- The line that is indented least starts without a blank when it is stripped.
    have hout := outdented_stripLine hsource
    refine ⟨stripLine (commonIndent ls) source, List.mem_map_of_mem hmem, ?_⟩
    refine (exists_head_iff _).mpr ⟨hout.isBlankText_eq.trans hsolid, ?_⟩
    have hsum := hout.indentOf_eq
    omega

/-- There is nothing to strip of lines in normal form. -/
theorem Normal.stripIndent_eq (h : Normal ls) : stripIndent ls = ls := by
  obtain ⟨flush, hflush, hhead⟩ := h.flush
  obtain ⟨hsolid, hindent⟩ := (exists_head_iff flush).mp hhead
  have hzero : commonIndent ls = 0 :=
    Nat.le_zero.mp (hindent ▸ commonIndent_le (mem_solidLines.mpr ⟨hflush, hsolid⟩))
  rw [stripIndent_eq_map, hzero]
  refine (List.map_congr_left fun line hline => ?_).trans (List.map_id ls)
  rw [stripLine]
  split
  · rename_i hblank
    exact (h.blank line hline hblank).symm
  · exact List.drop_zero

/-- A text without its carriage returns. -/
def dropReturns (cs : List Char) : List Char := cs.filter (· != '\r')

/-- Lines of which some are left out and others shortened. -/
theorem joinLines_sublist {ls ms : List (List Char)} (h : List.SublistForall₂ List.Sublist ls ms) :
    (joinLines ls).Sublist (joinLines ms) := by
  induction h with
  | nil => exact List.nil_sublist _
  | @cons line long ls ms hline hls ih =>
    rcases eq_or_ne ls [] with rfl | hne
    · rw [joinLines_singleton]
      rcases eq_or_ne ms [] with rfl | hms
      · rwa [joinLines_singleton]
      · rw [joinLines_cons hms]
        exact hline.trans (List.sublist_append_left _ _)
    · have hms : ms ≠ [] := by
        rintro rfl
        cases hls
        exact hne rfl
      rw [joinLines_cons hne, joinLines_cons hms]
      exact hline.append (ih.cons_cons _)
  | @cons_right long ls ms _ ih =>
    rcases eq_or_ne ms [] with rfl | hms
    · exact ih.trans (List.nil_sublist _)
    · rw [joinLines_cons hms]
      exact ih.trans ((List.sublist_cons_self _ _).trans (List.sublist_append_right _ _))

/-- What the lines of a text in normal form are before they are stripped. -/
theorem normalizeChars_cases (cs : List Char) :
    normalizeChars cs = [] ∧ trimLines (lines (dropReturns cs)) = [] ∨
      lines (normalizeChars cs) = stripIndent (trimLines (lines (dropReturns cs))) ∧
        trimLines (lines (dropReturns cs)) ≠ [] := by
  rw [normalizeChars, ← dropReturns]
  rcases eq_or_ne (trimLines (lines (dropReturns cs))) [] with hnil | hne
  · rw [hnil]
    exact .inl ⟨rfl, rfl⟩
  · refine .inr ⟨lines_joinLines_stripIndent hne fun line hline => ?_, hne⟩
    exact newline_notMem_of_mem_lines ((trimLines_sublist _).subset hline)

/-- A normalized text is in normal form. -/
theorem normal_normalizeChars (cs : List Char) :
    normalizeChars cs = [] ∨ Normal (lines (normalizeChars cs)) := by
  refine (normalizeChars_cases cs).imp And.left fun ⟨hlines, hne⟩ => ?_
  rw [hlines]
  exact normal_stripIndent (trimmed_trimLines _) hne

/-- Characters are taken out of a text and nothing else is done to it. -/
theorem normalizeChars_sublist (cs : List Char) : (normalizeChars cs).Sublist (dropReturns cs) := by
  have hlines : List.SublistForall₂ List.Sublist
      (stripIndent (trimLines (lines (dropReturns cs)))) (lines (dropReturns cs)) :=
    List.sublistForall₂_iff.mpr ⟨_, List.forall₂_map_left_iff.mpr
      (List.forall₂_same.mpr fun line _ => stripLine_sublist _ line), trimLines_sublist _⟩
  calc normalizeChars cs
      = joinLines (stripIndent (trimLines (lines (dropReturns cs)))) := rfl
    List.Sublist _ (joinLines (lines (dropReturns cs))) := joinLines_sublist hlines
    _ = dropReturns cs := joinLines_lines _

/-- A normalized text has no carriage return. -/
theorem return_notMem_normalizeChars (cs : List Char) : '\r' ∉ normalizeChars cs := by
  intro hmem
  obtain ⟨-, hkept⟩ := List.mem_filter.mp ((normalizeChars_sublist cs).subset hmem)
  exact Bool.noConfusion hkept

/-- A text in normal form stays as it is. -/
theorem normalizeChars_eq_self (hreturn : '\r' ∉ cs) (h : cs = [] ∨ Normal (lines cs)) :
    normalizeChars cs = cs := by
  rcases h with rfl | h
  · rfl
  · have hdrop : cs.filter (· != '\r') = cs :=
      List.filter_eq_self.mpr fun c hc => bne_iff_ne.mpr fun heq => hreturn (heq ▸ hc)
    rw [normalizeChars, hdrop, h.toTrimmed.trimLines_eq, h.stripIndent_eq, joinLines_lines]

/-- The lines that are not blank stay, each with the same number of blanks less in front. -/
theorem forall₂_normalizeChars (cs : List Char) :
    ∃ n, List.Forall₂ (Outdented n) (solidLines (lines (dropReturns cs)))
      (solidLines (lines (normalizeChars cs))) := by
  refine ⟨commonIndent (trimLines (lines (dropReturns cs))), ?_⟩
  rw [← solidLines_trimLines]
  rcases normalizeChars_cases cs with ⟨hnil, htrim⟩ | ⟨hlines, -⟩
  · rw [hnil, htrim]
    exact .nil
  · rw [hlines]
    exact forall₂_stripIndent _

/-- All that is taken away is blank. -/
theorem solidPart_normalizeChars (cs : List Char) : solidPart (normalizeChars cs) = solidPart cs := by
  obtain ⟨n, hout⟩ := forall₂_normalizeChars cs
  have hlines : (solidLines (lines (dropReturns cs))).map solidPart =
      (solidLines (lines (normalizeChars cs))).map solidPart := by
    rw [← List.forall₂_eq_eq_eq, List.forall₂_map_left_iff, List.forall₂_map_right_iff]
    exact hout.imp fun _ _ h => h.solidPart_eq.symm
  have hreturn : solidPart (dropReturns cs) = solidPart cs := by
    rw [solidPart, dropReturns, List.filter_filter, solidPart]
    refine List.filter_congr fun c _ => ?_
    rcases eq_or_ne c '\r' with rfl | hne
    · rfl
    · rw [bne_iff_ne.mpr hne, Bool.and_true]
  calc solidPart (normalizeChars cs)
      = solidPart (joinLines (lines (normalizeChars cs))) := by rw [joinLines_lines]
    _ = solidPart (joinLines (lines (dropReturns cs))) := by
        rw [solidPart_joinLines, ← hlines, ← solidPart_joinLines]
    _ = solidPart cs := by rw [joinLines_lines, hreturn]

end Flowchart.Text

namespace Flowchart

/-- Normalizing twice is the same as normalizing once. -/
theorem Text.normalize_idem (s : String) : normalize (normalize s) = normalize s := by
  rw [normalize, normalize, String.toList_ofList]
  exact congrArg String.ofList
    (normalizeChars_eq_self (return_notMem_normalizeChars _) (normal_normalizeChars _))

namespace Parameters

/-- A text that the icon has is put into normal form. -/
theorem get?_text_complete {attributes : Attributes} {text : String}
    (h : attributes.get? "text" = some (.text text)) (anchorBase : String) :
    (complete attributes anchorBase).get? "text" = some (.text (Text.normalize text)) := by
  -- No other entry that is put in has this key.
  have hother : ∀ {key : String} (t : Attributes) (v : Value), key ≠ "text" →
      (t.put key v).get? "text" = t.get? "text" := by
    intro key t v hne
    rw [Table.get?_put, if_neg hne]
  have hfound : ∀ anchor : Value, Table.get? (Table.put (attributes.put "implicit" (.truth true))
      "anchor" anchor) "text" = some (.text text) := by
    intro anchor
    rw [hother _ _ (by decide), hother _ _ (by decide), h]
  rw [complete]
  simp only [hfound]
  split
  · rw [hother _ _ (by decide), Table.get?_put, if_pos rfl]
  · rw [Table.get?_put, if_pos rfl]

/-- The fallback is in normal form, too. -/
theorem normalize_orFallback (s : String) :
    Text.normalize (orFallback (Text.normalize s)) = orFallback (Text.normalize s) := by
  rw [orFallback]
  split
  · decide +kernel
  · exact Text.normalize_idem s

/-- The icon of a text has its label as its text. -/
theorem get?_text_ofText (text anchorBase : String) :
    (ofText text anchorBase).2.2.get? "text" = some (.text (ofText text anchorBase).2.1) := by
  rw [ofText, get?_text_complete rfl, normalize_orFallback]

end Parameters

/-- **Multi-line text is normalized once and for all.** Normalizing it once more changes nothing, and
its lines are in normal form unless it is empty. Only blanks are taken out of it, carriage returns
among them: the characters that are not blank stay, and all lines that are not blank move to the left
by the same number of blanks, so that they are indented against each other as they were. So a
parameters icon that is made of a text has a label and a `text` that are equal. -/
theorem normalize_holds (s : String) :
    Text.normalize (Text.normalize s) = Text.normalize s ∧
    '\r' ∉ (Text.normalize s).toList ∧
    (Text.normalize s = "" ∨ Text.Normal (Text.lines (Text.normalize s).toList)) ∧
    (Text.normalize s).toList.Sublist s.toList ∧
    Text.solidPart (Text.normalize s).toList = Text.solidPart s.toList ∧
    (∃ n, List.Forall₂ (Text.Outdented n)
      (Text.solidLines (Text.lines (Text.dropReturns s.toList)))
      (Text.solidLines (Text.lines (Text.normalize s).toList))) ∧
    ∀ anchorBase column, ∃ node,
      Parameters.node? (.text s) anchorBase column = some node ∧
        node.attributes.get? "text" = some (.text node.label) := by
  have hchars : (Text.normalize s).toList = Text.normalizeChars s.toList := by
    rw [Text.normalize, String.toList_ofList]
  refine ⟨Text.normalize_idem s, ?_, ?_, ?_, ?_, ?_, ?_⟩
  · rw [hchars]
    exact Text.return_notMem_normalizeChars _
  · rw [hchars]
    exact (Text.normal_normalizeChars s.toList).imp_left fun hnil => congrArg String.ofList hnil
  · rw [hchars]
    exact (Text.normalizeChars_sublist s.toList).trans List.filter_sublist
  · rw [hchars]
    exact Text.solidPart_normalizeChars _
  · rw [hchars]
    exact Text.forall₂_normalizeChars _
  · intro anchorBase column
    have htext := Parameters.get?_text_ofText s anchorBase
    simp only [Parameters.node?]
    generalize Parameters.ofText s anchorBase = parts at htext ⊢
    exact ⟨_, rfl, htext⟩

end Flowchart
