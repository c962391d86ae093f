import Flowchart.Draft.Icons

/-!
# Outlines inside outlines

What is expanded when the blocks of a root are placed are the outlines below it, `Outline.allOf`:
the blocks in the bodies and those in the branches, at any depth. Each of them is read off its block
(`outline_block_of_mem_allOf`), so what is known of the block is known of the outline.
-/

namespace Flowchart

mutual

/-- An outline and those inside it. -/
def Outline.all : Outline → List Outline
  | .mk block children yes no =>
    .mk block children yes no :: (Outline.allOf children ++ (Branch.allOf yes ++ Branch.allOf no))
termination_by structural o => o

/-- Outlines and those inside them. -/
def Outline.allOf : List Outline → List Outline
  | [] => []
  | o :: os => o.all ++ Outline.allOf os
termination_by structural os => os

/-- The outlines in a branch and those inside them. -/
def Branch.allOf : Option Branch → List Outline
  | none => []
  | some (.mk _ _ icons) => Outline.allOf icons
termination_by structural b => b

end

/-- The branch that an answer leads to. -/
def Outline.branch : Outline → Side → Option Branch
  | .mk _ _ yes _, .yes => yes
  | .mk _ _ _ no, .no => no

/-- The column that a branch asks for: a whole number that is not too great. -/
def Attributes.askedColumn (a : Attributes) : Option Nat :=
  match ((a.get? "column").bind Value.number?).bind fun x => (Decimal.Binary.ofFloat x).whole? with
  | some column => if column ≤ greatestBranchColumn then some column else none
  | none => none

/-- The outlines inside an outline satisfy what all of them do. -/
theorem all_mk {P : Outline → Prop} {block : Block} {children : List Outline}
    {yes no : Option Branch} (h : ∀ o ∈ (Outline.mk block children yes no).all, P o) :
    P (.mk block children yes no) ∧ (∀ o ∈ Outline.allOf children, P o) ∧
      (∀ o ∈ Branch.allOf yes, P o) ∧ ∀ o ∈ Branch.allOf no, P o := by
  rw [Outline.all] at h
  refine ⟨h _ List.mem_cons_self, fun o ho => ?_, fun o ho => ?_, fun o ho => ?_⟩
  · exact h o (List.mem_cons_of_mem _ (List.mem_append_left _ ho))
  · exact h o (List.mem_cons_of_mem _ (List.mem_append_right _ (List.mem_append_left _ ho)))
  · exact h o (List.mem_cons_of_mem _ (List.mem_append_right _ (List.mem_append_right _ ho)))

/-- An outline is one of those in it. -/
theorem self_mem_all (o : Outline) : o ∈ o.all := by
  obtain ⟨block, children, yes, no⟩ := o
  rw [Outline.all]
  exact List.mem_cons_self

/-- The outlines of the blocks in a body satisfy what all inside its outline do. -/
theorem all_children {P : Outline → Prop} {o : Outline} (h : ∀ x ∈ o.all, P x) :
    ∀ x ∈ Outline.allOf o.children, P x := by
  obtain ⟨block, children, yes, no⟩ := o
  exact (all_mk h).2.1

/-- The outlines in a branch satisfy what all inside its outline do. -/
theorem all_branch {P : Outline → Prop} {o : Outline} (h : ∀ x ∈ o.all, P x) {side : Side}
    {b : Branch} (leads : o.branch side = some b) : ∀ x ∈ Branch.allOf (some b), P x := by
  obtain ⟨block, children, yes, no⟩ := o
  obtain ⟨-, -, hyes, hno⟩ := all_mk h
  rw [← leads]
  cases side with
  | yes => exact hyes
  | no => exact hno

/-- The outlines among several satisfy what all of them do. -/
theorem allOf_cons {P : Outline → Prop} {o : Outline} {os : List Outline}
    (h : ∀ x ∈ Outline.allOf (o :: os), P x) :
    (∀ x ∈ o.all, P x) ∧ ∀ x ∈ Outline.allOf os, P x := by
  rw [Outline.allOf] at h
  exact ⟨fun x hx => h x (List.mem_append_left _ hx), fun x hx => h x (List.mem_append_right _ hx)⟩

mutual

/-- The outlines below statements are those of their blocks. -/
theorem outline_block_of_mem_allOf : ∀ (body : List Statement),
    ∀ o ∈ Outline.allOf (Outline.ofStatements body), o.block.outline = o
  | [], o, ho => by
    rw [Outline.ofStatements, Outline.allOf] at ho
    exact absurd ho List.not_mem_nil
  | .attribute _ _ _ :: rest, o, ho => by
    rw [Outline.ofStatements] at ho
    exact outline_block_of_mem_allOf rest o ho
  | .block _ _ body _ :: rest, o, ho => by
    rw [Outline.ofStatements, Outline.allOf, Outline.all, List.cons_append, List.mem_cons,
      List.mem_append, List.mem_append, List.mem_append] at ho
    rcases ho with rfl | (ho | ho | ho) | ho
    · rfl
    · exact outline_block_of_mem_allOf body o ho
    · exact outline_block_of_mem_under _ body none (fun _ hm => absurd hm List.not_mem_nil) o ho
    · exact outline_block_of_mem_under _ body none (fun _ hm => absurd hm List.not_mem_nil) o ho
    · exact outline_block_of_mem_allOf rest o ho
termination_by structural body => body

/-- The outlines in a branch under a key are those of their blocks. -/
theorem outline_block_of_mem_under (key : String) : ∀ (body : List Statement)
    (found : Option Branch), (∀ o ∈ Branch.allOf found, o.block.outline = o) →
    ∀ o ∈ Branch.allOf (Branch.under key found body), o.block.outline = o
  | [], found, hfound, o, ho => by
    rw [Branch.under] at ho
    exact hfound o ho
  | .attribute k v _ :: rest, found, hfound, o, ho => by
    rw [Branch.under] at ho
    refine outline_block_of_mem_under key rest _ ?_ o ho
    split
    · exact outline_block_of_mem_ofValue v
    · exact hfound
  | .block _ _ _ _ :: rest, found, hfound, o, ho => by
    rw [Branch.under] at ho
    exact outline_block_of_mem_under key rest found hfound o ho
termination_by structural body => body

/-- The outlines in the branch that a value is are those of their blocks. -/
theorem outline_block_of_mem_ofValue : ∀ (v : Value),
    ∀ o ∈ Branch.allOf (Branch.ofValue v), o.block.outline = o
  | .nested body, o, ho => by
    rw [Branch.ofValue, Branch.allOf] at ho
    exact outline_block_of_mem_allOf body o ho
  | .object _, o, ho => by
    rw [Branch.ofValue, Branch.allOf, Outline.allOf] at ho
    exact absurd ho List.not_mem_nil
  | .list [], o, ho => by
    rw [Branch.ofValue, Branch.allOf, Outline.allOf] at ho
    exact absurd ho List.not_mem_nil
  | .list (_ :: _), o, ho => absurd ho List.not_mem_nil
  | .null, o, ho => absurd ho List.not_mem_nil
  | .text _, o, ho => absurd ho List.not_mem_nil
  | .number _, o, ho => absurd ho List.not_mem_nil
  | .truth _, o, ho => absurd ho List.not_mem_nil
termination_by structural v => v

end

end Flowchart
