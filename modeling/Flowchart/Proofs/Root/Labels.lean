import Flowchart.Document
import Flowchart.Proofs.Draft.Pointing
import Flowchart.Proofs.Token.Boundaries

/-!
# Labels select pieces of the source

The spans of diagnostics come from three stages: from the marks of the scan, from the lexemes that
the reader looks at, and from the statements that the reader has put together. All of them fit the
source, so every label of every diagnostic of a document selects a piece of its source.
-/

namespace Flowchart

/-- The blocks of a root stand where those of its document do. -/
theorem standAt_root {P : Span → Prop} {document : List Statement} (h : ExpandAt P document)
    {root : Block} (hroot : rootBlock? document = some root) :
    StandAt P (Outline.allOf root.outline.children) := by
  have hmem : root.outline ∈ Outline.ofStatements document := by
    rw [outlines_eq]
    exact List.mem_map_of_mem (List.mem_of_find?_eq_some hroot)
  have hall := Draft.standAt_of_mem h.outlines hmem
  exact (all_mk (P := fun o => P o.block.span) hall).2.1

/-- Building a document finds problems at the spans of its blocks, or nowhere. -/
theorem build_points {P : Span → Prop} (hnowhere : P .nowhere) {document : List Statement}
    (h : ExpandAt P document) : ∀ p ∈ (Diagram.build document).2, ∀ l ∈ p.labels, P l.span := by
  intro p hp l hl
  have hspan := p.mem_spans_of_mem_labels hl
  unfold Diagram.build at hp
  cases hroot : rootBlock? document with
  | none =>
    rw [hroot] at hp
    obtain rfl := List.mem_singleton.mp hp
    exact List.mem_singleton.mp hspan ▸ hnowhere
  | some root =>
    rw [hroot] at hp
    dsimp only at hp
    have hpoints := Draft.ofRoot_pointsAt hnowhere (standAt_root h hroot)
    exact hpoints.problems p hp _ hspan

/-- Every label of every diagnostic of a document has a span that fits the source. -/
theorem fits_of_mem_labels (source : String) :
    ∀ d ∈ (Document.read source).diagnostics, ∀ l ∈ d.labels, l.span.Fits source := by
  have hnowhere : Span.nowhere.Fits source := Span.fits_nowhere source
  obtain ⟨hlexemes, hproblems⟩ := Lexer.scan_fits source
  obtain ⟨hstatements, hfound⟩ := Reader.document_places (P := Span.Fits source)
    Span.Fits.union hlexemes hnowhere
  intro d hd l hl
  rcases List.mem_append.mp hd with hd | hd
  · rcases List.mem_append.mp hd with hd | hd
    · obtain ⟨p, hp, rfl⟩ := List.mem_map.mp hd
      rw [List.mem_singleton.mp hl]
      exact hproblems p hp
    · obtain ⟨p, hp, rfl⟩ := List.mem_map.mp hd
      rw [List.mem_singleton.mp hl]
      exact hfound p hp
  · obtain ⟨p, hp, rfl⟩ := List.mem_map.mp hd
    exact build_points hnowhere hstatements p hp l hl

/-- **Diagnostics point into the source.** Both ends of the span of every label of every diagnostic
are character boundaries of the source, in order, and the label selects a piece of the source:
behind as many bytes as its offset says, and of as many bytes as it is long. -/
theorem labels_select (source : String) :
    ∀ d ∈ (Document.read source).diagnostics, ∀ l ∈ d.labels,
      l.span.start ≤ l.span.stop ∧ l.span.stop ≤ source.utf8ByteSize ∧
      (String.Pos.Raw.mk l.span.start).IsValid source ∧
      (String.Pos.Raw.mk l.span.stop).IsValid source ∧
      ∃ before piece after : String, source = before ++ piece ++ after ∧
        l.span.start = before.utf8ByteSize ∧ l.span.length = piece.utf8ByteSize := by
  intro d hd l hl
  have hfits := fits_of_mem_labels source d hd l hl
  exact ⟨l.span.start_le_stop, hfits.stop_le, hfits.start, hfits.stop, hfits.exists_piece⟩

/-- Two icons with one id that is not written in ASCII, in a diagram. -/
def umlautSource : String :=
  "drakon \"d\" \x7b action \"ä\" \x7b\x7d action \"ä\" \x7b\x7d \x7d"

/-- The second icon is a duplicate, and the second label of its problem selects the first icon. -/
theorem labels_select_first :
    ∃ d ∈ (Document.read umlautSource).diagnostics, ∃ l ∈ d.labels, l.primary = false ∧
      l.span.start = 13 ∧ l.span.length = 14 ∧
      ∃ before piece after : String, umlautSource = before ++ piece ++ after ∧
        l.span.start = before.utf8ByteSize ∧ l.span.length = piece.utf8ByteSize := by
  have hlabel : (Document.read umlautSource).diagnostics.any (fun d => d.labels.any fun l =>
      l.primary = false ∧ l.span.start = 13 ∧ l.span.length = 14) = true := by decide +kernel
  obtain ⟨d, hd, hlabel⟩ := List.any_eq_true.mp hlabel
  obtain ⟨l, hl, hlabel⟩ := List.any_eq_true.mp hlabel
  obtain ⟨hprimary, hstart, hlength⟩ := of_decide_eq_true hlabel
  obtain ⟨-, -, -, -, hpiece⟩ := labels_select umlautSource d hd l hl
  exact ⟨d, hd, l, hl, hprimary, hstart, hlength, hpiece⟩

end Flowchart
