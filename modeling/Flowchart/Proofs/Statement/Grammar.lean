import Flowchart.Statement
import Flowchart.Token

/-!
# The grammar of documents

The derivations of the grammar

    document  = item*
    item      = NAME '=' value | NAME TEXT* '{' item* '}'
    value     = TEXT | NUMBER | NAME | '[' (value ',')* value? ']' | '{' (item ','?)* '}'

as trees. A tree has the tokens that it derives (`ItemTree.tokens`, `ValueTree.tokens`) and a
meaning (`ItemTree.meaning`, `ValueTree.meaning`): the statement or value it stands for, without
places in a source.
-/

namespace Flowchart

/-! ## Statements without places -/

mutual

/-- A value without the places of the statements in it. -/
def Value.unplaced : Value → Value
  | .list items => .list (unplacedItems items)
  | .object entries => .object (unplacedEntries entries)
  | .nested body => .nested (unplacedBody body)
  | v => v
termination_by structural v => v

/-- Values without places. -/
def unplacedItems : List Value → List Value
  | [] => []
  | v :: vs => v.unplaced :: unplacedItems vs
termination_by structural vs => vs

/-- Entries without places. -/
def unplacedEntries : List (String × Value) → List (String × Value)
  | [] => []
  | (k, v) :: es => (k, v.unplaced) :: unplacedEntries es
termination_by structural es => es

/-- A statement without places. -/
def Statement.unplaced : Statement → Statement
  | .attribute key value _ => .attribute key value.unplaced .nowhere
  | .block name labels body _ => .block name labels (unplacedBody body) .nowhere
termination_by structural s => s

/-- Statements without places. -/
def unplacedBody : List Statement → List Statement
  | [] => []
  | s :: ss => s.unplaced :: unplacedBody ss
termination_by structural ss => ss

end

/-! ## Derivations -/

mutual

/-- A derivation of an item. -/
inductive ItemTree where
  /-- A name, an equals sign and a value. -/
  | assign (key : String) (value : ValueTree)
  /-- A name, labels, and items in braces. -/
  | block (name : String) (labels : List String) (body : List ItemTree)

/-- A derivation of a value. -/
inductive ValueTree where
  /-- A text. -/
  | text (s : String)
  /-- A number. -/
  | number (x : Float)
  /-- A bare word. -/
  | name (s : String)
  /-- Values that a comma follows each, and perhaps one more. -/
  | array (init : List ValueTree) (last : Option ValueTree)
  /-- Items, each with whether a comma follows it. -/
  | braces (fields : List (ItemTree × Bool))

end

mutual

/-- The tokens of an item. -/
def ItemTree.tokens : ItemTree → List Token
  | .assign key value => .name key :: .equals :: value.tokens
  | .block name labels body =>
    .name name :: labels.map .text ++ .openBrace :: itemTokens body ++ [.closeBrace]
termination_by structural t => t

/-- The tokens of a value. -/
def ValueTree.tokens : ValueTree → List Token
  | .text s => [.text s]
  | .number x => [.number x]
  | .name s => [.name s]
  | .array init last => .openBracket :: initTokens init ++ lastTokens last ++ [.closeBracket]
  | .braces fields => .openBrace :: fieldTokens fields ++ [.closeBrace]
termination_by structural t => t

/-- The tokens of items. -/
def itemTokens : List ItemTree → List Token
  | [] => []
  | t :: ts => t.tokens ++ itemTokens ts
termination_by structural ts => ts

/-- The tokens of values with a comma behind each. -/
def initTokens : List ValueTree → List Token
  | [] => []
  | t :: ts => t.tokens ++ .comma :: initTokens ts
termination_by structural ts => ts

/-- The tokens of a value that may be missing. -/
def lastTokens : Option ValueTree → List Token
  | none => []
  | some t => t.tokens
termination_by structural t => t

/-- The tokens of items that a comma may follow. -/
def fieldTokens : List (ItemTree × Bool) → List Token
  | [] => []
  | (t, comma) :: fs => t.tokens ++ (if comma then [.comma] else []) ++ fieldTokens fs
termination_by structural fs => fs

end

/-- A property of items and one of values that hold of whatever a production makes up of parts that
they hold of. -/
structure Productions (P : ItemTree → Prop) (Q : ValueTree → Prop) : Prop where
  /-- An attribute is made up of its value. -/
  assign : ∀ key value, Q value → P (.assign key value)
  /-- A block is made up of its items. -/
  block : ∀ name labels body, (∀ t ∈ body, P t) → P (.block name labels body)
  /-- A text is made up of nothing. -/
  text : ∀ s, Q (.text s)
  /-- A number is made up of nothing. -/
  number : ∀ x, Q (.number x)
  /-- A bare word is made up of nothing. -/
  name : ∀ s, Q (.name s)
  /-- A list is made up of its values. -/
  array : ∀ init last, (∀ t ∈ init, Q t) → (∀ t ∈ last, Q t) → Q (.array init last)
  /-- A value in braces is made up of its items. -/
  braces : ∀ fields, (∀ f ∈ fields, P f.1) → Q (.braces fields)

mutual

/-- Such a property holds of every item. -/
theorem Productions.item {P : ItemTree → Prop} {Q : ValueTree → Prop} (h : Productions P Q) :
    ∀ t, P t
  | .assign key value => h.assign key value (h.value value)
  | .block name labels body => h.block name labels body (h.items body)
termination_by structural t => t

/-- Such a property holds of every value. -/
theorem Productions.value {P : ItemTree → Prop} {Q : ValueTree → Prop} (h : Productions P Q) :
    ∀ t, Q t
  | .text s => h.text s
  | .number x => h.number x
  | .name s => h.name s
  | .array init last => h.array init last (h.init init) (h.last last)
  | .braces fields => h.braces fields (h.fields fields)
termination_by structural t => t

/-- Such a property holds of all items of a list. -/
theorem Productions.items {P : ItemTree → Prop} {Q : ValueTree → Prop} (h : Productions P Q) :
    ∀ ts : List ItemTree, ∀ t ∈ ts, P t
  | [], _, hm => absurd hm List.not_mem_nil
  | t :: ts, t', hm =>
    (List.mem_cons.mp hm).elim (fun he => he ▸ h.item t) fun hm => h.items ts t' hm
termination_by structural ts => ts

/-- Such a property holds of all values of a list. -/
theorem Productions.init {P : ItemTree → Prop} {Q : ValueTree → Prop} (h : Productions P Q) :
    ∀ ts : List ValueTree, ∀ t ∈ ts, Q t
  | [], _, hm => absurd hm List.not_mem_nil
  | t :: ts, t', hm =>
    (List.mem_cons.mp hm).elim (fun he => he ▸ h.value t) fun hm => h.init ts t' hm
termination_by structural ts => ts

/-- Such a property holds of a value that may be missing. -/
theorem Productions.last {P : ItemTree → Prop} {Q : ValueTree → Prop} (h : Productions P Q) :
    ∀ t : Option ValueTree, ∀ t' ∈ t, Q t'
  | none, _, hm => nomatch hm
  | some t, _, hm => Option.mem_some_iff.mp hm ▸ h.value t
termination_by structural t => t

/-- Such a property holds of all items in braces. -/
theorem Productions.fields {P : ItemTree → Prop} {Q : ValueTree → Prop} (h : Productions P Q) :
    ∀ fs : List (ItemTree × Bool), ∀ f ∈ fs, P f.1
  | [], _, hm => absurd hm List.not_mem_nil
  | (t, _) :: fs, f, hm =>
    (List.mem_cons.mp hm).elim (fun he => he ▸ h.item t) fun hm => h.fields fs f hm
termination_by structural fs => fs

end

/-! ## Meanings -/

/-- The pairs that are left when a key keeps its first place and takes its last entry. -/
def lastEntries (pairs : List (String × Value)) : List (String × Value) :=
  (pairs.map Prod.fst).eraseDups.filterMap fun key => pairs.reverse.find? (·.1 = key)

/-- The value of statements in braces: an object if all of them are attributes, else the statements
themselves. -/
def bracesValue (body : List Statement) : Value :=
  match body.mapM Statement.attribute? with
  | some pairs => .object (lastEntries pairs)
  | none => .nested body

mutual

/-- The statement that an item stands for. -/
def ItemTree.meaning : ItemTree → Statement
  | .assign key value => .attribute key value.meaning .nowhere
  | .block name labels body => .block name labels (itemMeanings body) .nowhere
termination_by structural t => t

/-- The value that a value stands for. -/
def ValueTree.meaning : ValueTree → Value
  | .text s => .text s
  | .number x => .number x
  | .name s => if s = "true" then .truth true else if s = "false" then .truth false else .text s
  | .array init last => .list (initMeanings init ++ lastMeanings last)
  | .braces fields => bracesValue (fieldMeanings fields)
termination_by structural t => t

/-- The statements that items stand for. -/
def itemMeanings : List ItemTree → List Statement
  | [] => []
  | t :: ts => t.meaning :: itemMeanings ts
termination_by structural ts => ts

/-- The values that values stand for. -/
def initMeanings : List ValueTree → List Value
  | [] => []
  | t :: ts => t.meaning :: initMeanings ts
termination_by structural ts => ts

/-- The value that a value stands for, if it is there. -/
def lastMeanings : Option ValueTree → List Value
  | none => []
  | some t => [t.meaning]
termination_by structural t => t

/-- The statements that items in braces stand for. -/
def fieldMeanings : List (ItemTree × Bool) → List Statement
  | [] => []
  | (t, _) :: fs => t.meaning :: fieldMeanings fs
termination_by structural fs => fs

end

end Flowchart
