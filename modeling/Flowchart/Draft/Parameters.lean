import Flowchart.Draft.Basic
import Flowchart.Text.Indent

/-!
# The parameters icon

The root attribute `parameters` may be a text, a list of lines or an object. An object's label is
its `text`, its `lines`, its `title` or its `caption`; without any of them, every other entry gives
a line `key = value`.
-/

namespace Flowchart.Parameters

/-- The text in an icon that has nothing else to show. -/
def fallbackLabel : String := "Parameters"

/-- The id of the icon unless another one is written. -/
def fallbackId : String := "parameters"

/-- Keys that describe the icon and give no line of their own. -/
def descriptiveKeys : List String :=
  ["anchor", "tags", "data", "text", "lines", "title", "caption"]

mutual

/-- An entry in a line `key = value`. -/
def entryChars : Value → List Char
  | .null => []
  | .list items => '[' :: itemChars items ++ [']']
  | v => v.displayChars
termination_by structural v => v

/-- The items of a list in such a line. -/
def itemChars : List Value → List Char
  | [] => []
  | [v] => entryChars v
  | v :: w :: vs => entryChars v ++ ',' :: ' ' :: itemChars (w :: vs)
termination_by structural vs => vs

end

/-- A list whose items have become texts. -/
def textList (items : List Value) : Value := .list (items.map fun v => .text v.display)

/-- A label, or the fallback in place of an empty one. -/
def orFallback (label : String) : String := if label.isEmpty then fallbackLabel else label

/-- The attributes of the icon: they count as implicit, name an anchor, and hold their text and
their lines in normal form. -/
def complete (attributes : Attributes) (anchorBase : String) : Attributes :=
  let attributes : Attributes := attributes.put "implicit" (.truth true)
  let anchor := (attributes.trimmed? "anchor").getD (anchorBase ++ "@parameters")
  let attributes := attributes.put "anchor" (.text anchor)
  let attributes := match attributes.get? "text" with
    | some (.text text) => attributes.put "text" (.text (Text.normalize text))
    | _ => attributes
  match attributes.get? "lines" with
  | some (.list items) => attributes.put "lines" (textList items)
  | _ => attributes

/-- An entry of an object: descriptions are normalized and items of lists become texts. -/
def normalizeEntry (key : String) (entry : Value) : Value :=
  match entry with
  | .text text =>
    if ["text", "title", "caption"].contains key then .text (Text.normalize text) else entry
  | .list items => textList items
  | _ => entry

/-- The lines `key = value` of the entries that do not describe the icon. -/
def informativeLines (config : Attributes) : List String :=
  (config.filter fun (key, _) => !descriptiveKeys.contains key).map fun (key, entry) =>
    key ++ " = " ++ String.ofList (entryChars entry)

/-- The label of an object. -/
def objectLabel (config : Attributes) : String :=
  let text := (config.text? "text").filter (! ·.isEmpty)
  let lines := ((config.get? "lines").bind Value.list?).filter (! ·.isEmpty)
  -- The first of the four that says something is shown.
  match text, lines, config.trimmed? "title", config.trimmed? "caption" with
  | some text, _, _, _ => text
  | none, some lines, _, _ => "\n".intercalate (lines.map Value.display)
  | none, none, some title, _ => title
  | none, none, none, some caption => caption
  | none, none, none, none =>
    match informativeLines config with
    | [] => fallbackLabel
    | lines => "\n".intercalate lines

/-- The icon of a text; the label is the text in normal form. -/
def ofText (text anchorBase : String) : String × String × Attributes :=
  let label := orFallback (Text.normalize text)
  (fallbackId, label, complete [("text", .text label)] anchorBase)

/-- The icon of a list of lines. -/
def ofLines (items : List Value) (anchorBase : String) : String × String × Attributes :=
  let label := orFallback ("\n".intercalate (items.map Value.display))
  (fallbackId, label, complete [("lines", textList items)] anchorBase)

/-- The icon of an object. -/
def ofObject (source : Attributes) (anchorBase : String) : String × String × Attributes :=
  let config : Attributes := source.map fun (key, entry) => (key, normalizeEntry key entry)
  let id := (config.trimmed? "id").getD fallbackId
  let config := config.remove "id"
  let label := objectLabel config
  let attributes := complete config anchorBase
  let attributes :=
    if attributes.has "text" then attributes else attributes.put "text" (.text label)
  (id, label, attributes)

/-- The icon of a value, in a column; nothing is shown for a value that could not be read. -/
def node? (value : Value) (anchorBase : String) (column : Nat) : Option Node :=
  let ofParts : String × String × Attributes → Node := fun (id, label, attributes) =>
    { id, kind := .parameters, column, label, attributes, block := .synthetic "parameters" id }
  match value with
  | .null => none
  | .text text => some (ofParts (ofText text anchorBase))
  | .list items => some (ofParts (ofLines items anchorBase))
  | .object entries => some (ofParts (ofObject entries anchorBase))
  | other => some (ofParts (ofText other.display anchorBase))

end Flowchart.Parameters
