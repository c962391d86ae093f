import Flowchart.Settings.PlainValue

/-!
# Settings documents

Settings are written in the part of TOML that has headers, bare or quoted keys, and plain values on
one line. A header opens a group, and the entries below it belong to that group; a key with points
in it opens groups of its own.

Nothing is written twice: a value or a header that is there already is refused, and so are a header
for a group that a key with points has opened and such a key for a group that has a header.
-/

namespace Flowchart.Settings

/-! ## Lines -/

/-- The text after its leading spaces and tabs. -/
def skipSpace (cs : List Char) : List Char := cs.dropWhile fun c => c == ' ' || c == '\t'

/-- Whether nothing but a comment is left of a line. -/
def isRestBlank (cs : List Char) : Bool :=
  match skipSpace cs with
  | [] => true
  | c :: comment => c == '#' && comment.all isWritable

/-- One key, and what follows it. -/
def key? (cs : List Char) : Option (String × List Char) :=
  match quoted? cs with
  | some quoted => some quoted
  | none =>
    let key := cs.takeWhile isBareKey
    if key.isEmpty then none else some (String.ofList key, cs.drop key.length)

/-- Keys with points between them, and what follows them; `count` bounds their number. -/
def keys? : Nat → List Char → Option (List String × List Char)
  | 0, _ => none
  | count + 1, cs => do
    let (key, rest) ← key? (skipSpace cs)
    match skipSpace rest with
    | '.' :: rest => (keys? count rest).map fun (keys, rest) => (key :: keys, rest)
    | rest => some ([key], rest)

/-- A line of a document. -/
inductive Line where
  /-- Nothing, or a comment. -/
  | blank
  /-- The header of a group. -/
  | header (path : List String)
  /-- A value under a key. -/
  | entry (path : List String) (value : Setting)

/-- Reads a line. -/
def line? (cs : List Char) : Option Line :=
  if isRestBlank cs then some .blank
  else
    match skipSpace cs with
    | '[' :: rest => do
      match ← keys? rest.length rest with
      | (path, ']' :: rest) => if isRestBlank rest then some (.header path) else none
      | _ => none
    | rest => do
      match ← keys? rest.length rest with
      | (path, '=' :: rest) =>
        let (value, rest) ← plainValue? (skipSpace rest)
        if isRestBlank rest then some (.entry path value) else none
      | _ => none

/-- The lines of a document without the byte order mark in front of it. A carriage return belongs to
the newline behind it; the last line has none. -/
def linesOf (cs : List Char) : List (List Char) :=
  let lines := Text.lines (if cs.head? = some (Char.ofNat 0xFEFF) then cs.tail else cs)
  lines.dropLast.map Text.dropReturn ++ lines.getLast?.toList

/-! ## Groups -/

/-- What opened a group: a header of its own, the header of a group below it, or a key with
points. -/
inductive Origin where
  /-- A header of its own. -/
  | header
  /-- The header of a group below it. -/
  | lowerHeader
  /-- A key with points. -/
  | key
  deriving DecidableEq

/-- What has been read of a document. -/
structure Gathered where
  /-- The values that have been read, in their groups. -/
  entries : Table String Setting := []
  /-- Every group, by its path. -/
  groups : Table (List String) Origin := []
  /-- The group that entries belong to. -/
  current : List String := []

/-- Changes what stands at a path, opening groups on the way; there is no way through a value. -/
def changeAt? (change : Option Setting → Option Setting) (key : String) :
    List String → Table String Setting → Option (Table String Setting)
  | [], entries => (change (entries.get? key)).map (entries.put key)
  | next :: path, entries => do
    let inner ← match entries.get? key with
      | none => some []
      | some (.group inner) => some inner
      | some _ => none
    pure (entries.put key (.group (← changeAt? change next path inner)))

/-- The groups between a group and what stands at a path below it. -/
def between (group : List String) : List String → List (List String)
  | key :: next :: path => (group ++ [key]) :: between (group ++ [key]) (next :: path)
  | _ => []

namespace Gathered

/-- Changes what stands at a path from the root, if that is possible. -/
def change? (g : Gathered) (change : Option Setting → Option Setting) (path : List String) :
    Option (Table String Setting) :=
  match path with
  | [] => none
  | key :: path => changeAt? change key path g.entries

/-- Notes what opened some groups, those apart that are open already. -/
def openGroups (g : Gathered) (origin : Origin) (paths : List (List String)) :
    Table (List String) Origin :=
  paths.foldl (fun groups path => if groups.has path then groups else groups.put path origin)
    g.groups

/-- An empty group where nothing stands, and any group as it is. -/
def groupAt : Option Setting → Option Setting
  | none => some (.group [])
  | some (.group entries) => some (.group entries)
  | some _ => none

/-- Takes in a header. -/
def takeHeader (g : Gathered) (path : List String) : Option Gathered := do
  let entries ← g.change? groupAt path
  if g.groups.get? path = some .header || g.groups.get? path = some .key then none
  else
    pure
      { entries
        groups := (g.openGroups .lowerHeader (between [] path)).put path .header
        current := path }

/-- Takes in an entry of the current group. -/
def takeEntry (g : Gathered) (path : List String) (value : Setting) : Option Gathered := do
  let opened := between g.current path
  if opened.all fun group => (g.groups.get? group).all (· = .key) then
    let new : Option Setting → Option Setting
      | none => some value
      | some _ => none
    pure
      { g with
        entries := ← g.change? new (g.current ++ path)
        groups := g.openGroups .key opened }
  else none

/-- Takes in a line. -/
def take (g : Gathered) : Line → Option Gathered
  | .blank => some g
  | .header path => g.takeHeader path
  | .entry path value => g.takeEntry path value

end Gathered

/-- The group that a document is. -/
def document? (text : String) : Option Setting := do
  let lines ← (linesOf text.toList).mapM line?
  let gathered ← lines.foldlM Gathered.take {}
  pure (.group gathered.entries)

end Flowchart.Settings
