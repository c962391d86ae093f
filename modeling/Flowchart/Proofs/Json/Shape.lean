import Flowchart.Statement.Json
import Mathlib.Data.List.Basic

/-!
# The shape of a value's text

The items of a list, the entries of an object and the statements in braces are written alike: their
texts with commas between them (`jsonItems_eq`, `jsonEntries_eq`, `jsonBody_eq`). What is proved of
all values is proved along what a text shows of them (`Value.induction`): the attributes that stand
in braces, and nothing of the blocks but their names.
-/

namespace Flowchart

namespace Value

/-! ## Induction -/

/-- What holds of a value if it holds of the values that are written in it holds of all values. -/
@[elab_as_elim]
theorem induction {P : Value → Prop} (null : P .null) (text : ∀ s, P (.text s))
    (number : ∀ x, P (.number x)) (truth : ∀ b, P (.truth b))
    (list : ∀ items, (∀ v ∈ items, P v) → P (.list items))
    (object : ∀ entries, (∀ e ∈ entries, P e.2) → P (.object entries))
    (nested : ∀ body, (∀ key v span, Statement.attribute key v span ∈ body → P v) →
      P (.nested body)) (v : Value) : P v :=
  match v with
  | .null => null
  | .text s => text s
  | .number x => number x
  | .truth b => truth b
  | .list items => list items fun v _ =>
    induction null text number truth list object nested v
  | .object entries => object entries fun e _ =>
    induction null text number truth list object nested e.2
  | .nested body => nested body fun _ v _ _ =>
    induction null text number truth list object nested v
termination_by sizeOf v
decreasing_by
  · rename_i hv
    have hlt := List.sizeOf_lt_of_mem hv
    simp only [Value.list.sizeOf_spec]
    omega
  · rename_i he
    have hlt := List.sizeOf_lt_of_mem he
    have hpair : sizeOf e = 1 + sizeOf e.1 + sizeOf e.2 := rfl
    simp only [Value.object.sizeOf_spec]
    omega
  · rename_i hs
    have hlt := List.sizeOf_lt_of_mem hs
    simp only [Statement.attribute.sizeOf_spec] at hlt
    simp only [Value.nested.sizeOf_spec]
    omega

/-! ## Texts with commas between them -/

/-- An entry of an object. -/
def jsonEntry (e : String × Value) : List Char := jsonString e.1 ++ ':' :: e.2.jsonChars

/-- The items of a list are written with commas between them. -/
theorem jsonItems_eq : ∀ items : List Value,
    jsonItems items = [','].intercalate (items.map jsonChars)
  | [] => rfl
  | [v] => by rw [jsonItems, List.map_singleton, List.intercalate_singleton]
  | v :: w :: items => by
    rw [jsonItems, jsonItems_eq (w :: items)]
    exact (List.append_cons ..).trans (List.intercalate_cons_cons ..).symm

/-- The entries of an object are written with commas between them. -/
theorem jsonEntries_eq : ∀ entries : List (String × Value),
    jsonEntries entries = [','].intercalate (entries.map jsonEntry)
  | [] => rfl
  | [e] => by rw [jsonEntries, List.map_singleton, List.intercalate_singleton, jsonEntry]
  | e :: f :: entries => by
    rw [jsonEntries, jsonEntries_eq (f :: entries)]
    exact (List.append_cons ..).trans (List.intercalate_cons_cons ..).symm

/-- Statements are written with commas between them. -/
theorem jsonBody_eq : ∀ body : List Statement,
    jsonBody body = [','].intercalate (body.map jsonStatement)
  | [] => rfl
  | [s] => by rw [jsonBody, List.map_singleton, List.intercalate_singleton]
  | s :: t :: body => by
    rw [jsonBody, jsonBody_eq (t :: body)]
    exact (List.append_cons ..).trans (List.intercalate_cons_cons ..).symm

end Value

end Flowchart
