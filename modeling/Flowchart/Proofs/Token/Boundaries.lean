import Flowchart.Proofs.Token.Accounting

/-!
# Spans on character boundaries

A span fits a text when both its ends stand between characters of it, or before the first or behind
the last one. Such a span selects a piece of the text (`Span.Fits.exists_piece`), and the union of
spans that fit does so as well. Every lexeme and every problem of a scan has a span that fits.
-/

namespace Flowchart

/-- Both ends of a span are character boundaries of a text. -/
structure Span.Fits (source : String) (s : Span) : Prop where
  /-- It starts at a character. -/
  start : (String.Pos.Raw.mk s.start).IsValid source
  /-- It stops at a character, or at the end. -/
  stop : (String.Pos.Raw.mk s.stop).IsValid source

namespace Span

variable {source : String} {s t : Span}

/-- The span of what has no place fits every text. -/
theorem fits_nowhere (source : String) : nowhere.Fits source :=
  ⟨String.Pos.Raw.isValid_zero, String.Pos.Raw.isValid_zero⟩

/-- A union starts where one of the two spans does and stops where one of them does. -/
theorem Fits.union (hs : s.Fits source) (ht : t.Fits source) : (s.union t).Fits source := by
  have hstart : (s.union t).start = min s.start t.start := rfl
  have hstop : (s.union t).stop = max s.stop t.stop := rfl
  constructor
  · rw [hstart]
    rcases Nat.le_total s.start t.start with h | h
    · exact (Nat.min_eq_left h).symm ▸ hs.start
    · exact (Nat.min_eq_right h).symm ▸ ht.start
  · rw [hstop]
    rcases Nat.le_total s.stop t.stop with h | h
    · exact (Nat.max_eq_right h).symm ▸ ht.stop
    · exact (Nat.max_eq_left h).symm ▸ hs.stop

/-- A span that fits stops in the text. -/
theorem Fits.stop_le (h : s.Fits source) : s.stop ≤ source.utf8ByteSize := h.stop.le_rawEndPos

/-- Of two beginnings of a text, the one with fewer bytes is a beginning of the other one. -/
theorem exists_append_of_append_eq {a b x y : String} (h : a ++ x = b ++ y)
    (hle : a.utf8ByteSize ≤ b.utf8ByteSize) : ∃ c, a ++ c = b := by
  have hlist : a.toList ++ x.toList = b.toList ++ y.toList := by
    rw [← String.toList_append, h, String.toList_append]
  rcases List.append_eq_append_iff.mp hlist with ⟨cs, hb, -⟩ | ⟨cs, ha, -⟩
  · refine ⟨String.ofList cs, String.toList_injective ?_⟩
    rw [String.toList_append, String.toList_ofList, hb]
  · -- Here the second beginning is one of the first, so they have equally many bytes.
    have hba : b ++ String.ofList cs = a := String.toList_injective (by
      rw [String.toList_append, String.toList_ofList, ha])
    have hsize := congrArg String.utf8ByteSize hba
    rw [String.utf8ByteSize_append] at hsize
    have hempty : String.ofList cs = "" := String.utf8ByteSize_eq_zero_iff.mp (by omega)
    exact ⟨"", by rw [← hba, hempty, String.append_empty, String.append_empty]⟩

/-- A span that fits selects a piece of the text: behind as many bytes as its start says, and of as
many bytes as it is long. -/
theorem Fits.exists_piece (h : s.Fits source) :
    ∃ before piece after : String, source = before ++ piece ++ after ∧
      s.start = before.utf8ByteSize ∧ s.length = piece.utf8ByteSize := by
  obtain ⟨before, x, hx, hbefore⟩ := String.Pos.Raw.isValid_iff_exists_append.mp h.start
  obtain ⟨upto, after, hafter, hupto⟩ := String.Pos.Raw.isValid_iff_exists_append.mp h.stop
  have hstart : s.start = before.utf8ByteSize := congrArg String.Pos.Raw.byteIdx hbefore
  have hstop : s.stop = upto.utf8ByteSize := congrArg String.Pos.Raw.byteIdx hupto
  have hle : before.utf8ByteSize ≤ upto.utf8ByteSize := hstart ▸ hstop ▸ s.start_le_stop
  obtain ⟨piece, rfl⟩ := exists_append_of_append_eq (hx.symm.trans hafter) hle
  refine ⟨before, piece, after, hafter, hstart, ?_⟩
  rw [Span.length, hstart, hstop, String.utf8ByteSize_append, Nat.add_sub_cancel_left]

end Span

namespace Lexer

/-- The bytes of characters are those of the text that they make up. -/
theorem byteLength_eq (cs : List Char) : byteLength cs = (String.ofList cs).utf8ByteSize := by
  induction cs with
  | nil => rfl
  | cons c cs ih =>
    rw [byteLength, ih, String.ofList_cons, String.utf8ByteSize_append,
      String.utf8ByteSize_singleton]

/-- Behind any characters at the front of a text there is a boundary. -/
theorem isValid_byteLength {source : String} {before after : List Char}
    (h : source.toList = before ++ after) :
    (String.Pos.Raw.mk (byteLength before)).IsValid source := by
  refine String.Pos.Raw.isValid_iff_exists_append.mpr
    ⟨String.ofList before, String.ofList after, ?_, ?_⟩
  · rw [← String.ofList_append, ← h, String.ofList_toList]
  · rw [byteLength_eq]
    rfl

/-- The span of a part of a text fits it. -/
theorem Slice.fits {source : String} {s : Span} {part : List Char}
    (h : Slice source.toList s part) : s.Fits source := by
  obtain ⟨before, after, hsource, hstart, hstop⟩ := h
  constructor
  · rw [hstart]
    exact isValid_byteLength hsource
  · rw [hstop]
    exact isValid_byteLength (hsource.trans (List.append_assoc before part after).symm)

/-- The spans of all lexemes and all problems of a scan fit the source. -/
theorem scan_fits (source : String) :
    (∀ l ∈ (scan source).lexemes, l.span.Fits source) ∧
      ∀ p ∈ (scan source).problems, p.span.Fits source := by
  obtain ⟨marks, htiles, hscan⟩ := scanFrom_tiles {} source.toList
  have hmarks : ∀ m ∈ marks, m.span.Fits source := fun m hm => by
    have hzero : 0 = byteLength [] := rfl
    obtain ⟨part, _, -, hslice, -⟩ := htiles.exists_slice hzero m hm
    exact hslice.fits
  rw [scan, hscan]
  refine ⟨fun l hl => ?_, fun p hp => hmarks _ (mem_problems.mp hp)⟩
  rcases List.mem_append.mp hl with hl | hl
  · obtain ⟨m, hm, hml⟩ := List.mem_filterMap.mp hl
    cases m with
    | lexeme l' => exact Option.some.inj hml ▸ hmarks _ hm
    | problem p => cases hml
  · -- The end of the source stands behind all characters of it.
    rw [List.mem_singleton.mp hl]
    have hend : (String.Pos.Raw.mk (byteLength source.toList)).IsValid source :=
      isValid_byteLength (List.append_nil _).symm
    have hpoint : (({} : Place).after source.toList).offset = byteLength source.toList :=
      Nat.zero_add _
    rw [hpoint]
    exact ⟨hend, hend⟩

end Lexer

end Flowchart
