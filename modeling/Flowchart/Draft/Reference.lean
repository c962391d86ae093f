import Flowchart.Draft.Basic

/-!
# References to nodes

A reference is a name that some node has claimed, the id of a node, or one of these with an anchor
behind an `@`. A name that was claimed as a whole goes first, so ids that hold an `@` themselves can
be referred to.
-/

namespace Flowchart

/-- A node that was referred to, and the reference with the node's id in place of the name. -/
structure Reference where
  /-- The reference with its anchor. -/
  full : String
  /-- The node that it leads to. -/
  node : String
  deriving DecidableEq

/-- The reference to a node as a whole. -/
def Reference.toNode (id : String) : Reference := ⟨id, id⟩

namespace Draft

/-- The node that a value refers to. A value that is no text or blank is a problem, and so is a name
that no node has. -/
def resolve (d : Draft) (value : Option Value) (referrer : Referrer) (span : Span) :
    Draft × Option Reference :=
  match value.bind Value.trimmed? with
  | none => (d.report (.invalidReference referrer) span, none)
  | some name =>
    -- A name may hold an `@` itself, so the whole of it is looked up first.
    match d.aliases.get? name with
    | some id =>
      if d.hasNode id then (d, some (.toNode id))
      else (d.report (.unknownReference referrer name) span, none)
    | none =>
      match Text.splitOnce '@' name.toList with
      | none =>
        if d.hasNode name then (d.claim name name, some (.toNode name))
        else (d.report (.unknownReference referrer name) span, none)
      -- All behind the first `@` is the anchor, and what it says is not looked into.
      | some (head, anchor) =>
        let head := String.ofList (Text.trimChars head)
        let id := (d.aliases.get? head).getD head
        if d.hasNode id then (d, some ⟨id ++ "@" ++ String.ofList anchor, id⟩)
        else (d.report (.unknownReference referrer head) span, none)

end Draft

end Flowchart
