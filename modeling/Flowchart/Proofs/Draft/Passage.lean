import Flowchart.Proofs.Draft.Closed
import Mathlib.Data.List.Chain

/-!
# Passages

A passage is a sequence of drafts in which each one comes from the one before by an operation. What
every operation keeps holds throughout a passage that starts with it (`Passage.closed`), and what no
operation undoes lasts to its end (`Passage.extends`, `Passage.pairwise_extends`).
-/

namespace Flowchart.Draft

/-- Operations lead from `d` through the drafts of `trail` to `e`, which is the last of them. -/
inductive Passage : Draft → List Draft → Draft → Prop
  /-- No step is made. -/
  | done (d : Draft) : Passage d [] d
  /-- A step is made before the others. -/
  | step {d e f : Draft} {trail : List Draft} (first : d.Step e) (rest : Passage e trail f) :
      Passage d (e :: trail) f

/-- The drafts that a loop passes through, `trail` giving those of one turn. -/
def foldTrail {σ α : Type} (turn : σ → α → σ) (trail : σ → α → List Draft) : List α → σ → List Draft
  | [], _ => []
  | a :: as, s => trail s a ++ foldTrail turn trail as (turn s a)

/-- One operation. -/
theorem Step.passage {d e : Draft} (h : d.Step e) : Passage d [e] e := .step h (.done e)

/-- One passage after the other. -/
theorem Passage.append {d e f : Draft} {t u : List Draft} (h : Passage d t e) (k : Passage e u f) :
    Passage d (t ++ u) f := by
  induction h with
  | done d => exact k
  | step first _ ih => exact .step first (ih k)

/-- The end of a passage extends its start. -/
theorem Passage.extends {d e : Draft} {t : List Draft} (h : Passage d t e) : e.Extends d := by
  induction h with
  | done d => exact .refl d
  | step first _ ih => exact ih.trans first.extends

/-- Every draft of a passage extends its start. -/
theorem Passage.extends_of_mem {d e x : Draft} {t : List Draft} (h : Passage d t e) (hx : x ∈ t) :
    x.Extends d := by
  induction h with
  | done d => exact absurd hx List.not_mem_nil
  | step first _ ih =>
    rcases List.mem_cons.mp hx with rfl | hx
    · exact first.extends
    · exact (ih hx).trans first.extends

/-- Later drafts of a passage extend earlier ones. -/
theorem Passage.pairwise_extends {d e : Draft} {t : List Draft} (h : Passage d t e) :
    (d :: t).Pairwise fun earlier later => later.Extends earlier := by
  induction h with
  | done d => exact List.pairwise_singleton _ d
  | step first rest ih =>
    rw [List.pairwise_cons]
    exact ⟨fun x hx => (Passage.step first rest).extends_of_mem hx, ih⟩

/-- A passage ends with its last draft. -/
theorem Passage.getLast?_eq {d e : Draft} {t : List Draft} (h : Passage d t e) :
    (d :: t).getLast? = some e := by
  induction h with
  | done d => rfl
  | step first rest ih => rw [List.getLast?_cons_cons, ih]

/-- Each draft of a passage comes from the one before by an operation. -/
theorem Passage.isChain {d e : Draft} {t : List Draft} (h : Passage d t e) :
    (d :: t).IsChain Step := by
  induction h with
  | done d => exact List.isChain_singleton d
  | step first rest ih => exact List.isChain_cons_cons.mpr ⟨first, ih⟩

/-- A passage from a draft whose tables agree with its nodes ends with such a draft. -/
theorem Passage.registry {d e : Draft} {t : List Draft} (h : Passage d t e) (hd : d.Registry) :
    e.Registry := by
  induction h with
  | done d => exact hd
  | step first _ ih => exact ih (first.registry hd)

/-- Every draft of a passage from a closed one is closed. -/
theorem Passage.closed {d e : Draft} {t : List Draft} (h : Passage d t e) (hd : d.Closed) :
    ∀ x ∈ d :: t, x.Closed := by
  induction h with
  | done d =>
    intro x hx
    exact List.mem_singleton.mp hx ▸ hd
  | step first _ ih =>
    intro x hx
    rcases List.mem_cons.mp hx with rfl | hx
    · exact hd
    · exact ih (first.closed hd) x hx

/-- A passage from a closed draft ends with a closed one. -/
theorem Passage.closed_last {d e : Draft} {t : List Draft} (h : Passage d t e) (hd : d.Closed) :
    e.Closed :=
  h.closed hd e (List.mem_of_getLast? h.getLast?_eq)

/-- A loop is a passage when every turn is one, as long as the loop keeps what its turns need. -/
theorem foldl_passage {σ α : Type} (view : σ → Draft) {turn : σ → α → σ}
    {trail : σ → α → List Draft} {Inv : σ → Prop} (as : List α)
    (hturn : ∀ s, ∀ a ∈ as, Inv s →
      Passage (view s) (trail s a) (view (turn s a)) ∧ Inv (turn s a))
    (s : σ) (hs : Inv s) :
    Passage (view s) (foldTrail turn trail as s) (view (as.foldl turn s)) ∧
      Inv (as.foldl turn s) := by
  induction as generalizing s with
  | nil => exact ⟨.done _, hs⟩
  | cons a as ih =>
    obtain ⟨hp, hs'⟩ := hturn s a List.mem_cons_self hs
    obtain ⟨hq, he⟩ := ih (fun s b hb => hturn s b (List.mem_cons_of_mem a hb)) (turn s a) hs'
    exact ⟨hp.append hq, he⟩

/-- A loop whose turns need nothing but what operations keep. -/
theorem foldl_passage_of_kept {α : Type} {turn : Draft → α → Draft} {trail : Draft → α → List Draft}
    {Inv : Draft → Prop} (kept : ∀ {d e : Draft} {t : List Draft}, Passage d t e → Inv d → Inv e)
    (as : List α) (hturn : ∀ d, ∀ a ∈ as, Inv d → Passage d (trail d a) (turn d a))
    {d : Draft} (hd : Inv d) : Passage d (foldTrail turn trail as d) (as.foldl turn d) := by
  refine (foldl_passage id as (fun e a ha he => ?_) d hd).1
  have hp := hturn e a ha he
  exact ⟨hp, kept hp he⟩

end Flowchart.Draft
