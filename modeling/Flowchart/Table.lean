/-!
# Tables that keep their order

A table is a list of keys with their entries. A key keeps the place of its first insertion and the
entry of its last one.
-/

namespace Flowchart

/-- Keys with their entries, in the order in which the keys were first put in. -/
abbrev Table (κ : Type) (α : Type) := List (κ × α)

namespace Table

variable {κ α : Type} [DecidableEq κ]

/-- The entry under a key. -/
def get? : Table κ α → κ → Option α
  | [], _ => none
  | (k, a) :: t, key => if k = key then some a else get? t key

/-- Whether there is an entry under a key. -/
def has (t : Table κ α) (key : κ) : Bool := (get? t key).isSome

/-- Sets the entry under a key; a new key goes to the end. -/
def put : Table κ α → κ → α → Table κ α
  | [], key, entry => [(key, entry)]
  | (k, a) :: t, key, entry => if k = key then (k, entry) :: t else (k, a) :: put t key entry

/-- Takes a key and its entry out. -/
def remove : Table κ α → κ → Table κ α
  | [], _ => []
  | (k, a) :: t, key => if k = key then t else (k, a) :: remove t key

/-- Changes the entry under a key, if there is one. -/
def update (t : Table κ α) (key : κ) (f : α → α) : Table κ α :=
  t.map fun (k, a) => if k = key then (k, f a) else (k, a)

/-- Puts pairs in one after the other. -/
def putAll (t : Table κ α) (pairs : List (κ × α)) : Table κ α :=
  pairs.foldl (fun t (k, a) => put t k a) t

/-- The table of a list of pairs. -/
def ofPairs (pairs : List (κ × α)) : Table κ α := putAll [] pairs

end Table

end Flowchart
