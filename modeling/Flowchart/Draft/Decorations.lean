import Flowchart.Draft.Reference

/-!
# Attachments and notes

Both are written at the root of the diagram. An attachment needs a target; a note may stand alone.
-/

namespace Flowchart.Draft

/-- Attaches a decoration to the node it names. Its kind is the first label of its block and its id
the second one; without a second label the id counts the attachments. -/
def attach (d : Draft) (b : Block) : Draft :=
  let (d, target) := d.resolve (b.attributes.get? "target") .attachmentTarget b.span
  match target with
  | none => d
  | some target =>
    let kind := b.label?.getD "attachment"
    let attachment : Attachment :=
      { kind
        id := b.labels[1]?.getD (kind ++ "_" ++ toString (d.diagram.attachments.length + 1))
        target := target.full
        attributes := b.attributes.put "target" (.text target.full) }
    { d with
      diagram := { d.diagram with attachments := d.diagram.attachments ++ [attachment] } }

/-- Looks up the node that a note is pinned to. Only a text counts. -/
def notePin (d : Draft) (b : Block) : Draft × Option Reference :=
  match b.attributes.get? "attaches_to" with
  | some (.text name) => d.resolve (some (.text name)) .noteTarget b.span
  | _ => (d, none)

/-- Adds a note. When no node has the name it is pinned to, the note is added without it. -/
def addNote (d : Draft) (b : Block) : Draft :=
  let (d, pin) := d.notePin b
  let note : Note :=
    { text := b.attributes.label "Note"
      placement := (b.attributes.text? "placement").getD "right"
      attachesTo := pin.map Reference.full }
  { d with diagram := { d.diagram with notes := d.diagram.notes ++ [note] } }

end Flowchart.Draft
