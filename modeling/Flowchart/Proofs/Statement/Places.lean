import Flowchart.Proofs.Draft.Outlines
import Flowchart.Proofs.Statement.Moves

/-!
# Where statements stand

The span of a statement is the union of spans of lexemes, whatever has been left out on the way and
wherever reading had to stop. So what holds of the spans of lexemes and is kept by unions holds of
the spans of all blocks that a document can expand into (`document_places`).
-/

namespace Flowchart

/-- Spans that satisfy `P` have a union that does so. -/
def UnionClosed (P : Span → Prop) : Prop := ∀ {s t : Span}, P s → P t → P (s.union t)

/-- The blocks of some outlines stand at spans that satisfy `P`. -/
def StandAt (P : Span → Prop) (os : List Outline) : Prop := ∀ o ∈ os, P o.block.span

/-- The blocks that statements can expand into, as they are and under any key, stand at spans that
satisfy `P`. -/
structure ExpandAt (P : Span → Prop) (body : List Statement) : Prop where
  /-- The blocks of the statements and what they hold. -/
  outlines : StandAt P (Outline.allOf (Outline.ofStatements body))
  /-- The blocks of the branch under any key. -/
  branch : ∀ key found, StandAt P (Branch.allOf found) →
    StandAt P (Branch.allOf (Branch.under key found body))

section

variable {P : Span → Prop} {body : List Statement}

/-- No outlines stand at no span. -/
theorem standAt_nil : StandAt P [] := fun _ ho => absurd ho List.not_mem_nil

/-- Outlines stand at spans when those before and those behind do. -/
theorem StandAt.append {os os' : List Outline} (h : StandAt P os) (h' : StandAt P os') :
    StandAt P (os ++ os') := fun o ho => (List.mem_append.mp ho).elim (h o) (h' o)

/-- No statements expand into no blocks. -/
theorem expandAt_nil : ExpandAt P [] := by
  constructor
  · rw [Outline.ofStatements, Outline.allOf]
    exact standAt_nil
  · intro key found hfound
    rw [Branch.under]
    exact hfound

/-- An attribute in front of statements expands into what its value does. -/
theorem ExpandAt.attribute (h : ExpandAt P body) {v : Value}
    (hv : StandAt P (Branch.allOf (Branch.ofValue v))) (key : String) (span : Span) :
    ExpandAt P (.attribute key v span :: body) := by
  constructor
  · rw [Outline.ofStatements]
    exact h.outlines
  · intro key' found hfound
    rw [Branch.under]
    split
    · exact h.branch key' _ hv
    · exact h.branch key' found hfound

/-- A block in front of statements expands into itself and what its body does. -/
theorem ExpandAt.block (h : ExpandAt P body) {inner : List Statement} (hinner : ExpandAt P inner)
    {span : Span} (hspan : P span) (name : String) (labels : List String) :
    ExpandAt P (.block name labels inner span :: body) := by
  constructor
  · rw [Outline.ofStatements, Outline.allOf, Outline.all]
    refine StandAt.append (fun o ho => ?_) h.outlines
    rcases List.mem_cons.mp ho with rfl | ho
    · exact hspan
    · have hyes := hinner.branch Side.yes.key none standAt_nil
      have hno := hinner.branch Side.no.key none standAt_nil
      exact (hinner.outlines.append (hyes.append hno)) o ho
  · intro key found hfound
    rw [Branch.under]
    exact h.branch key found hfound

end

namespace Reader

variable {P : Span → Prop}

/-- A scalar expands into no block. -/
theorem standAt_scalar {tok : Token} {v : Value} (h : scalar? tok = some v) :
    StandAt P (Branch.allOf (Branch.ofValue v)) := by
  unfold scalar? at h
  split at h <;> cases h <;> exact standAt_nil

/-- A list expands into no block. -/
theorem standAt_list (vs : List Value) : StandAt P (Branch.allOf (Branch.ofValue (.list vs))) := by
  cases vs with
  | nil =>
    rw [Branch.ofValue, Branch.allOf, Outline.allOf]
    exact standAt_nil
  | cons v vs => exact standAt_nil

/-- A value in braces expands into what the statements in it do, or into no block. -/
theorem standAt_braced {body : List Statement} (h : ExpandAt P body) :
    StandAt P (Branch.allOf (Branch.ofValue (braced body))) := by
  unfold braced
  split
  · rw [Branch.ofValue, Branch.allOf]
    exact h.outlines
  · rw [Branch.ofValue, Branch.allOf, Outline.allOf]
    exact standAt_nil

/-- The lexemes that some moves take stand at spans that satisfy `P`. -/
def TakeAt (P : Span → Prop) (ms : List Move) : Prop :=
  ∀ l ∈ ms.filterMap Move.lexeme?, P l.span

/-- What some moves take, and then others. -/
theorem takeAt_append {ms ns : List Move} : TakeAt P (ms ++ ns) ↔ TakeAt P ms ∧ TakeAt P ns := by
  unfold TakeAt
  rw [List.filterMap_append, List.forall_mem_append]

/-- What a move takes, and then others. -/
theorem takeAt_take {role : Role} {l : Lexeme} {ms : List Move} :
    TakeAt P (.take role l :: ms) ↔ P l.span ∧ TakeAt P ms := List.forall_mem_cons

/-- A move and those behind it. -/
theorem takeAt_cons {m : Move} {ms : List Move} :
    TakeAt P (m :: ms) ↔ TakeAt P [m] ∧ TakeAt P ms := by
  rw [← List.singleton_append, takeAt_append]

/-- The bytes of the lexeme taken last are among those taken, and those known before. -/
theorem TakeAt.reach {ms : List Move} (hms : TakeAt P ms) {last : Span} (hlast : P last) :
    P (reach last ms) := by
  induction ms generalizing last with
  | nil => exact hlast
  | cons m ms ih =>
    cases m with
    | take role l => exact ih (takeAt_take.mp hms).2 (takeAt_take.mp hms).1
    | miss fault => exact ih hms hlast

mutual

/-- An item stands where its lexemes do, and so do the blocks in it. -/
theorem ItemMoves.expandAt (hunion : UnionClosed P) : ∀ {ms : List Move} {s : Statement},
    ItemMoves ms s → TakeAt P ms → ∀ {body : List Statement}, ExpandAt P body →
    ExpandAt P (s :: body)
  | _, _, .assign _ _ hv, hms, _, h =>
    have ⟨_, hvalue⟩ := takeAt_take.mp (takeAt_take.mp hms).2
    h.attribute (hv.standAt hunion hvalue) _ _
  | _, _, .block _ _ _ hbody _, hms, _, h => by
    obtain ⟨hspan, hmore⟩ := takeAt_take.mp hms
    obtain ⟨-, hbehind⟩ := takeAt_cons.mp (takeAt_append.mp hmore).2
    have hinner := hbody.expandAt hunion (takeAt_append.mp hbehind).1
    exact h.block hinner (hunion hspan (hmore.reach hspan)) _ _

/-- Items in a row stand where their lexemes do. -/
theorem ItemsMoves.expandAt (hunion : UnionClosed P) : ∀ {e : Enclosure} {ms : List Move}
    {body : List Statement}, ItemsMoves e ms body → TakeAt P ms → ExpandAt P body
  | _, _, _, .nil e, _ => expandAt_nil
  | _, _, _, .item hs hbody, hms =>
    have ⟨hitem, hmore⟩ := takeAt_append.mp hms
    hs.expandAt hunion hitem (hbody.expandAt hunion hmore)
  | _, _, _, .itemComma hs _ hbody, hms =>
    have ⟨hitem, hmore⟩ := takeAt_append.mp hms
    hs.expandAt hunion hitem (hbody.expandAt hunion (takeAt_take.mp hmore).2)
  | _, _, _, .stray _ hbody, hms => hbody.expandAt hunion (takeAt_take.mp hms).2

/-- The blocks in a value stand where its lexemes do. -/
theorem ValueMoves.standAt (hunion : UnionClosed P) : ∀ {ms : List Move} {v : Value},
    ValueMoves ms v → TakeAt P ms → StandAt P (Branch.allOf (Branch.ofValue v))
  | _, _, .scalar hl, _ => standAt_scalar hl
  | _, _, .array _ _ _, _ => standAt_list _
  | _, _, .braces _ hbody _, hms =>
    have ⟨hinner, _⟩ := takeAt_append.mp (takeAt_take.mp hms).2
    standAt_braced (hbody.expandAt hunion hinner)
  | _, _, .wrong _, _ => standAt_nil
  | _, _, .missing, _ => standAt_nil

end

/-- The blocks of a document stand where its lexemes do, and its problems are found there, or
nowhere when the lexemes have run out. -/
theorem document_places (hunion : UnionClosed P) {ls : List Lexeme} (hls : ∀ l ∈ ls, P l.span)
    (hnowhere : P .nowhere) :
    ExpandAt P (document ls).1 ∧ ∀ p ∈ (document ls).2, P p.span := by
  obtain ⟨ms, b, hms, run, -⟩ := document_moves .nowhere ls
  have htaken : ms.filterMap Move.lexeme? ++ b.ahead = ls := run.taken
  have htake : TakeAt P ms := fun l hl => hls l (htaken ▸ List.mem_append_left _ hl)
  refine ⟨hms.expandAt hunion htake, fun p hp => ?_⟩
  have hfound : ∀ l, p.found = some l → l ∈ ls := fun l hl => by
    obtain ⟨faults, hps⟩ := run.problems
    rw [← htaken, List.mem_append]
    rw [hps, List.mem_append] at hp
    rcases hp with hp | hp
    · obtain ⟨l', hl', heq⟩ := exists_taken_of_report hp
      exact .inl (Option.some.inj (hl.symm.trans heq) ▸ hl')
    · obtain ⟨fault, -, rfl⟩ := List.mem_map.mp hp
      exact .inr (List.mem_of_head? hl)
  rw [SyntaxProblem.span]
  cases hp' : p.found with
  | none => exact hnowhere
  | some l => exact hls l (hfound l hp')

end Reader

end Flowchart
