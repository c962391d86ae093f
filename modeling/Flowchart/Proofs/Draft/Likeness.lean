import Flowchart.Proofs.Draft.Ledger
import Flowchart.Proofs.Flow.Questions

/-!
# Drafts that look alike

Once a node has been entered, later steps read of it no more than its face: the id, the kind, the
column and the label. Whether it is a question or an action decides only whether edges of its own
leave it, and no edges are kept for a question that was refused its branches. Problems, attachments,
notes and the metadata are read by no step at all.

So two drafts that differ in nothing else (`Alike`) are still alike after the same operation on
both. One of them may have refused a question its branches, up to `n` times: each time it has
reported the problem, and its icon is a question where that of the other one is an action
(`Refusal.Explains`).
-/

namespace Flowchart

/-- The second list has `ys` in `n` places where the first one has `xs`. -/
inductive Replaces {α : Type} (xs ys : List α) : Nat → List α → List α → Prop
  /-- Nothing is left. -/
  | nil : Replaces xs ys 0 [] []
  /-- The first member is in both. -/
  | same {n : Nat} {as bs : List α} (a : α) (rest : Replaces xs ys n as bs) :
      Replaces xs ys n (a :: as) (a :: bs)
  /-- The lists start with what is replaced. -/
  | here {n : Nat} {as bs : List α} (rest : Replaces xs ys n as bs) :
      Replaces xs ys (n + 1) (xs ++ as) (ys ++ bs)

namespace Replaces

variable {α : Type} {xs ys as bs : List α} {n : Nat}

/-- Nothing is replaced. -/
theorem refl (as : List α) : Replaces xs ys 0 as as := by
  induction as with
  | nil => exact .nil
  | cons a as ih => exact .same a ih

/-- The same members are added at the end. -/
theorem append (h : Replaces xs ys n as bs) (cs : List α) :
    Replaces xs ys n (as ++ cs) (bs ++ cs) := by
  induction h with
  | nil => exact .refl cs
  | same a _ ih => exact .same a ih
  | here _ ih =>
    rw [List.append_assoc, List.append_assoc]
    exact .here ih

/-- One more is replaced at the end. -/
theorem concat (h : Replaces xs ys n as bs) : Replaces xs ys (n + 1) (as ++ xs) (bs ++ ys) := by
  induction h with
  | nil =>
    have hone : Replaces xs ys 1 (xs ++ []) (ys ++ []) := .here .nil
    rwa [List.append_nil, List.append_nil] at hone
  | same a _ ih => exact .same a ih
  | here _ ih =>
    rw [List.append_assoc, List.append_assoc]
    exact .here ih

/-- When none is replaced, the lists are the same. -/
theorem eq_of_zero (h : Replaces xs ys 0 as bs) : as = bs := by
  generalize hn : 0 = n at h
  induction h with
  | nil => rfl
  | same a _ ih => rw [ih hn]
  | here => exact absurd hn (Nat.succ_ne_zero _).symm

/-- When one is replaced, the lists are the same before it and behind it. -/
theorem split_of_one (h : Replaces xs ys 1 as bs) :
    ∃ before after, as = before ++ (xs ++ after) ∧ bs = before ++ (ys ++ after) := by
  generalize hn : 1 = n at h
  induction h with
  | nil => exact absurd hn Nat.one_ne_zero
  | same a _ ih =>
    obtain ⟨before, after, rfl, rfl⟩ := ih hn
    exact ⟨a :: before, after, rfl, rfl⟩
  | here rest =>
    obtain rfl := Nat.succ.inj hn
    exact ⟨[], _, rfl, congrArg (ys ++ ·) rest.eq_of_zero.symm⟩

end Replaces

/-! ## Faces -/

/-- A kind, where a question counts as an action. -/
def NodeKind.unasked : NodeKind → NodeKind
  | .question => .action
  | kind => kind

/-- What later steps read of a node. -/
structure Face where
  /-- The id. -/
  id : String
  /-- The kind, where a question counts as an action. -/
  kind : NodeKind
  /-- The column. -/
  column : Nat
  /-- The label. -/
  label : String

/-- What later steps read of a node. -/
def Node.face (n : Node) : Face := ⟨n.id, n.kind.unasked, n.column, n.label⟩

/-- The id of a node with its kind. -/
def Node.idAndKind (n : Node) : String × NodeKind := (n.id, n.kind)

/-! ## Refusals -/

/-- A question that is refused its branches. -/
structure Refusal where
  /-- The id of the question. -/
  id : String
  /-- The bytes of the question. -/
  span : Span

/-- The problem that is reported. -/
def Refusal.problem (r : Refusal) : BuildProblem := ⟨.twoBranches r.id, r.span⟩

/-- The second problems and nodes are the first ones, but up to `n` times the first ones have the
problem and, each time, the question in the place of an action. -/
def Refusal.Explains (r : Refusal) (n : Nat) (ps qs : List BuildProblem)
    (nodes others : List (String × NodeKind)) : Prop :=
  ∃ times ≤ n, Replaces [r.problem] [] times ps qs ∧
    Replaces [(r.id, .question)] [(r.id, .action)] times nodes others

namespace Refusal.Explains

variable {r : Refusal} {m n : Nat} {ps qs : List BuildProblem}
  {nodes others : List (String × NodeKind)}

/-- Nothing is different. -/
theorem refl (ps : List BuildProblem) (nodes : List (String × NodeKind)) :
    r.Explains n ps ps nodes nodes := ⟨0, Nat.zero_le n, .refl ps, .refl nodes⟩

/-- More refusals may be allowed for than there are. -/
theorem mono (h : r.Explains m ps qs nodes others) (hmn : m ≤ n) :
    r.Explains n ps qs nodes others := by
  obtain ⟨times, hle, hproblems, hkinds⟩ := h
  exact ⟨times, hle.trans hmn, hproblems, hkinds⟩

/-- The same problems are noted behind those. -/
theorem append (h : r.Explains n ps qs nodes others) (more : List BuildProblem) :
    r.Explains n (ps ++ more) (qs ++ more) nodes others := by
  obtain ⟨times, hle, hproblems, hkinds⟩ := h
  exact ⟨times, hle, hproblems.append more, hkinds⟩

/-- Nodes of the same kind are added at the same end. -/
theorem add (h : r.Explains n ps qs nodes others) (p : Placement) (node : String × NodeKind) :
    r.Explains n ps qs (p.add node nodes) (p.add node others) := by
  obtain ⟨times, hle, hproblems, hkinds⟩ := h
  cases p with
  | back => exact ⟨times, hle, hproblems, hkinds.append [node]⟩
  | front => exact ⟨times, hle, hproblems, .same node hkinds⟩

/-- One more refusal: the problem is noted, and the question is added where an action is. -/
theorem refuse (h : r.Explains n ps qs nodes others) :
    r.Explains (n + 1) (ps ++ [r.problem]) qs (nodes ++ [(r.id, .question)])
      (others ++ [(r.id, .action)]) := by
  obtain ⟨times, hle, hproblems, hkinds⟩ := h
  refine ⟨times + 1, Nat.succ_le_succ hle, ?_, hkinds.concat⟩
  have hmore := hproblems.concat
  rwa [List.append_nil] at hmore

end Refusal.Explains

namespace Draft

/-- What two drafts that are alike may differ in. -/
structure Guise where
  /-- The nodes, which have the same faces. -/
  nodes : List Node
  /-- The attributes of the root. -/
  metadata : Attributes
  /-- The decorations. -/
  attachments : List Attachment
  /-- The texts beside the flow. -/
  notes : List Note
  /-- The problems. -/
  problems : List BuildProblem

/-- A draft in another guise. -/
def disguise (d : Draft) (g : Guise) : Draft :=
  { d with
    diagram :=
      { d.diagram with
        nodes := g.nodes
        metadata := g.metadata
        attachments := g.attachments
        notes := g.notes }
    problems := g.problems }

/-- Two drafts whose nodes have the same faces and that are the same otherwise, metadata,
attachments and notes aside. The first one may have refused a question up to `n` times. -/
def Alike (refusal : Refusal) (n : Nat) (d e : Draft) : Prop :=
  ∃ g : Guise, e = d.disguise g ∧ g.nodes.map Node.face = d.diagram.nodes.map Node.face ∧
    refusal.Explains n d.problems g.problems (d.diagram.nodes.map Node.idAndKind)
      (g.nodes.map Node.idAndKind)

namespace Alike

variable {refusal : Refusal} {m n : Nat} {d e : Draft}

/-- More refusals may be allowed for than there are. -/
theorem mono (h : Alike refusal m d e) (hmn : m ≤ n) : Alike refusal n d e := by
  obtain ⟨g, he, hnodes, hexplains⟩ := h
  exact ⟨g, he, hnodes, hexplains.mono hmn⟩

/-- Nodes of drafts that are alike have the same faces, in the same order. -/
theorem faces (h : Alike refusal n d e) :
    e.diagram.nodes.map Node.face = d.diagram.nodes.map Node.face := by
  obtain ⟨g, rfl, hnodes, -⟩ := h
  exact hnodes

/-- The problems and the kinds of the nodes differ in what has been refused. -/
theorem explains (h : Alike refusal n d e) : refusal.Explains n d.problems e.problems
    (d.diagram.nodes.map Node.idAndKind) (e.diagram.nodes.map Node.idAndKind) := by
  obtain ⟨g, rfl, -, hexplains⟩ := h
  exact hexplains

/-- The same ids are in use. -/
theorem hasNode (h : Alike refusal n d e) : e.hasNode = d.hasNode := by
  obtain ⟨g, rfl, -⟩ := h
  rfl

/-- The same nodes stand in every column. -/
theorem columnIds (h : Alike refusal n d e) : e.columnIds = d.columnIds := by
  obtain ⟨g, rfl, -⟩ := h
  rfl

/-- The edges are the same. -/
theorem edges (h : Alike refusal n d e) : e.diagram.edges = d.diagram.edges := by
  obtain ⟨g, rfl, -⟩ := h
  rfl

/-! ## Single operations -/

/-- A problem is noted in both. -/
theorem report (h : Alike refusal n d e) (fault : BuildFault) (span : Span) :
    Alike refusal n (d.report fault span) (e.report fault span) := by
  obtain ⟨g, rfl, hnodes, hexplains⟩ := h
  exact ⟨{ g with problems := g.problems ++ [⟨fault, span⟩] }, rfl, hnodes, hexplains.append _⟩

/-- A column is opened in both. -/
theorem useColumn (h : Alike refusal n d e) (column : Nat) :
    Alike refusal n (d.useColumn column) (e.useColumn column) := by
  obtain ⟨g, rfl, hnodes, hexplains⟩ := h
  exact ⟨g, rfl, hnodes, hexplains⟩

/-- The next column is the same in both, and they are alike when it is open. -/
theorem openColumn (h : Alike refusal n d e) : e.openColumn.1 = d.openColumn.1 ∧
    Alike refusal n d.openColumn.2 e.openColumn.2 := by
  obtain ⟨g, rfl, hnodes, hexplains⟩ := h
  exact ⟨rfl, g, rfl, hnodes, hexplains⟩

/-- A lane gets the same column in both. -/
theorem laneColumn (h : Alike refusal n d e) (lane : String) :
    (e.laneColumn lane).1 = (d.laneColumn lane).1 ∧
      Alike refusal n (d.laneColumn lane).2 (e.laneColumn lane).2 := by
  obtain ⟨g, rfl, hnodes, hexplains⟩ := h
  have hlanes : (d.disguise g).lanes = d.lanes := rfl
  unfold Draft.laneColumn
  rw [hlanes]
  cases d.lanes.get? lane with
  | some column => exact ⟨rfl, g, rfl, hnodes, hexplains⟩
  | none =>
    cases d.lanes.isEmpty with
    | true => exact ⟨rfl, g, rfl, hnodes, hexplains⟩
    | false => exact ⟨rfl, g, rfl, hnodes, hexplains⟩

/-- A name is claimed in both or in neither. -/
theorem claim (h : Alike refusal n d e) (name id : String) :
    Alike refusal n (d.claim name id) (e.claim name id) := by
  obtain ⟨g, rfl, hnodes, hexplains⟩ := h
  have haliases : (d.disguise g).aliases = d.aliases := rfl
  unfold Draft.claim
  cases Text.trimmed? name with
  | none => exact ⟨g, rfl, hnodes, hexplains⟩
  | some name =>
    dsimp only
    rw [haliases]
    split <;> exact ⟨g, rfl, hnodes, hexplains⟩

/-- Several names are claimed in both. -/
theorem claimAll (h : Alike refusal n d e) (names : List String) (id : String) :
    Alike refusal n (d.claimAll names id) (e.claimAll names id) := by
  unfold Draft.claimAll
  induction names generalizing d e with
  | nil => exact h
  | cons name names ih =>
    rw [List.foldl_cons, List.foldl_cons]
    exact ih (h.claim name id)

/-- Nodes with the same face and the same names are entered: the drafts are alike behind it if what
has been refused explains their problems and nodes. -/
theorem of_enter {g : Guise} (hnodes : g.nodes.map Node.face = d.diagram.nodes.map Node.face)
    {x y : Node} (face : y.face = x.face) (span : y.block.span = x.block.span)
    (names : namesOf y = namesOf x) (p : Placement)
    (explains : refusal.Explains n d.problems g.problems
      (p.add x.idAndKind (d.diagram.nodes.map Node.idAndKind))
      (p.add y.idAndKind (g.nodes.map Node.idAndKind))) :
    Alike refusal n (d.enter x p) ((d.disguise g).enter y p) := by
  have hid : y.id = x.id := congrArg Face.id face
  have hcolumn : y.column = x.column := congrArg Face.column face
  have hadd : (p.add y g.nodes).map Node.face = (p.add x d.diagram.nodes).map Node.face := by
    rw [p.map_add, p.map_add, hnodes, face]
  rw [← p.map_add, ← p.map_add] at explains
  unfold Draft.enter
  rw [hid, hcolumn, span, names]
  cases p with
  | back =>
    refine claimAll ?_ _ _
    exact ⟨{ g with nodes := g.nodes ++ [y] }, rfl, hadd, explains⟩
  | front =>
    refine claimAll ?_ _ _
    exact ⟨{ g with nodes := y :: g.nodes }, rfl, hadd, explains⟩

/-- Nodes of one kind with the same face and the same names are entered. -/
theorem enter (h : Alike refusal n d e) {x y : Node} (face : y.face = x.face)
    (kind : y.kind = x.kind) (span : y.block.span = x.block.span) (names : namesOf y = namesOf x)
    (p : Placement) : Alike refusal n (d.enter x p) (e.enter y p) := by
  obtain ⟨g, rfl, hnodes, hexplains⟩ := h
  have hsame : y.idAndKind = x.idAndKind := Prod.ext (congrArg Face.id face) kind
  exact of_enter hnodes face span names p (hsame ▸ hexplains.add p x.idAndKind)

/-- The question that is refused is entered, and an action with the same face and the same names. -/
theorem enter_refused (h : Alike refusal n d e) {x y : Node} (face : y.face = x.face)
    (question : x.idAndKind = (refusal.id, .question))
    (action : y.idAndKind = (refusal.id, .action)) (span : y.block.span = x.block.span)
    (names : namesOf y = namesOf x) :
    Alike refusal (n + 1) ((d.enter x .back).report (.twoBranches refusal.id) refusal.span)
      (e.enter y .back) := by
  obtain ⟨g, rfl, hnodes, hexplains⟩ := h
  have hmore := hexplains.refuse
  rw [← question, ← action] at hmore
  -- The problem may as well be noted before the question is entered.
  rw [← enter_report]
  exact of_enter (d := d.report (.twoBranches refusal.id) refusal.span) hnodes face span names .back
    hmore

/-- Whether a node is taken in or refused depends on its id. -/
theorem ids (h : Alike refusal n d e) : e.ids = d.ids := by
  obtain ⟨g, rfl, -⟩ := h
  rfl

/-- Nodes of one kind with the same face and the same names are taken in or refused. -/
theorem register (h : Alike refusal n d e) {x y : Node} (face : y.face = x.face)
    (kind : y.kind = x.kind) (span : y.block.span = x.block.span) (names : namesOf y = namesOf x)
    (p : Placement) :
    Alike refusal n (d.register x p).1 (e.register y p).1 ∧
      (e.register y p).2 = (d.register x p).2 := by
  have hid : y.id = x.id := congrArg Face.id face
  have henter := h.enter face kind span names p
  have hreport := fun first => h.report (.duplicateNode x.id first) x.block.span
  unfold Draft.register
  rw [h.ids, hid, span]
  generalize d.enter x p = entered at henter ⊢
  cases d.ids.get? x.id with
  | some first =>
    dsimp only
    exact ⟨hreport first, rfl⟩
  | none =>
    dsimp only
    exact ⟨henter, rfl⟩

/-- Nodes of one kind with the same face and the same names are taken in both, or refused in
both. -/
theorem exists_register (h : Alike refusal n d e) {x y : Node} (face : y.face = x.face)
    (kind : y.kind = x.kind) (span : y.block.span = x.block.span) (names : namesOf y = namesOf x)
    (p : Placement) : ∃ d' e' isNew, d.register x p = (d', isNew) ∧ e.register y p = (e', isNew) ∧
      Alike refusal n d' e' := by
  obtain ⟨halike, hnew⟩ := h.register face kind span names p
  exact ⟨_, _, _, rfl, Prod.ext rfl hnew, halike⟩

/-- The question that is refused is taken in where the action is, and then it reports the problem. If
both are refused for their id, the reports are the same. -/
theorem exists_register_refused (h : Alike refusal n d e) {x y : Node} (face : y.face = x.face)
    (question : x.idAndKind = (refusal.id, .question))
    (action : y.idAndKind = (refusal.id, .action)) (span : y.block.span = x.block.span)
    (names : namesOf y = namesOf x) :
    ∃ d' e' isNew, d.register x .back = (d', isNew) ∧ e.register y .back = (e', isNew) ∧
      Alike refusal (n + 1)
        (if isNew then d'.report (.twoBranches refusal.id) refusal.span else d') e' := by
  have hid : y.id = x.id := congrArg Face.id face
  unfold Draft.register
  rw [h.ids, hid, span]
  cases d.ids.get? x.id with
  | some first =>
    have hreported := (h.report (.duplicateNode x.id first) x.block.span).mono (Nat.le_succ n)
    exact ⟨_, _, false, rfl, rfl, hreported⟩
  | none => exact ⟨_, _, true, rfl, rfl, h.enter_refused face question action span names⟩

/-- Attributes of a node are not read later, so different values may be set. -/
theorem setAttribute (h : Alike refusal n d e) (id key : String) (value other : Value) :
    Alike refusal n (d.setAttribute id key value) (e.setAttribute id key other) := by
  obtain ⟨g, rfl, hnodes, hexplains⟩ := h
  -- Neither the faces nor the kinds show the attributes of a node.
  have hseen : ∀ {α : Type} (see : Node → α),
      (∀ n value, see { n with attributes := n.attributes.put key value } = see n) →
      ∀ value nodes, (changeFirst (fun n => n.id = id)
        (fun n => { n with attributes := n.attributes.put key value }) nodes).map see =
        nodes.map see :=
    fun see same value nodes => map_changeFirst (same · value) nodes
  have hface := hseen Node.face fun _ _ => rfl
  have hkind := hseen Node.idAndKind fun _ _ => rfl
  refine ⟨{ g with nodes := _ }, rfl, ?_, ?_⟩
  · exact (hface other g.nodes).trans (hnodes.trans (hface value d.diagram.nodes).symm)
  · rw [← hkind value d.diagram.nodes, ← hkind other g.nodes] at hexplains
    exact hexplains

/-- An edge is drawn in both. -/
theorem connect (h : Alike refusal n d e) (edge : Edge) (source target : String) :
    Alike refusal n (d.connect edge source target) (e.connect edge source target) := by
  obtain ⟨g, rfl, hnodes, hexplains⟩ := h
  exact ⟨g, rfl, hnodes, hexplains⟩

/-- An edge between nodes that are already linked is drawn in neither. -/
theorem link (h : Alike refusal n d e) (edge : Edge) (source target : String) :
    Alike refusal n (d.link edge source target) (e.link edge source target) := by
  obtain ⟨g, rfl, hnodes, hexplains⟩ := h
  have hlinked : (d.disguise g).linked = d.linked := rfl
  unfold Draft.link
  rw [hlinked]
  split <;> exact ⟨g, rfl, hnodes, hexplains⟩

/-! ## Placing -/

/-- The node that closes a loop gets the same id in both. -/
theorem loopEndId (h : Alike refusal n d e) (loop : String) :
    e.loopEndId loop = d.loopEndId loop := by
  obtain ⟨g, rfl, -⟩ := h
  have hfree : ∀ (stem : String) (tries n : Nat),
      (d.disguise g).freeId stem n tries = d.freeId stem n tries := by
    intro stem tries
    induction tries with
    | zero => exact fun _ => rfl
    | succ tries ih =>
      intro n
      rw [freeId, freeId, ih]
      rfl
  rw [Draft.loopEndId, Draft.loopEndId, hfree]
  rfl

/-- A loop is closed in both. -/
theorem closeLoop (h : Alike refusal n d e) (loop : String) (column : Nat) :
    Alike refusal n (d.closeLoop loop column) (e.closeLoop loop column) := by
  have hnode : e.loopEndNode loop column = d.loopEndNode loop column := by
    rw [loopEndNode, loopEndNode, h.loopEndId]
  unfold Draft.closeLoop
  dsimp only
  rw [hnode]
  exact (h.register rfl rfl rfl rfl .back).1.setAttribute _ _ _ _

/-- A question is kept in both. -/
theorem keepFork (h : Alike refusal n d e) (a : Answer) (branchEnd : Option String)
    (summary : List (String × Value)) :
    Alike refusal n (d.keepFork a branchEnd summary) (e.keepFork a branchEnd summary) := by
  have hput : Alike refusal n (d.putFork a branchEnd) (e.putFork a branchEnd) := by
    obtain ⟨g, rfl, hnodes, hexplains⟩ := h
    exact ⟨g, rfl, hnodes, hexplains⟩
  exact hput.setAttribute _ _ _ _

/-- Finding the column of a branch, when both branches ask for the same. -/
theorem branchColumn (h : Alike refusal n d e) (a : Answer) {attributes others : Attributes}
    (column : (others.get? "column").bind Value.number? =
      (attributes.get? "column").bind Value.number?) :
    (e.branchColumn a others).1 = (d.branchColumn a attributes).1 ∧
      Alike refusal n (d.branchColumn a attributes).2 (e.branchColumn a others).2 := by
  unfold Draft.branchColumn
  rw [column]
  split
  · exact h.openColumn
  · split
    · exact h.openColumn
    · split
      · exact ⟨rfl, h.useColumn _⟩
      · exact (h.report _ _).openColumn

/-- A branch is closed in both; it is empty in both or in neither. -/
theorem closeBranch (h : Alike refusal n d e) (a : Answer) (column before : Nat) :
    Alike refusal n (d.closeBranch a column before) (e.closeBranch a column before) := by
  have hlinkBranch : ∀ first,
      Alike refusal n (d.linkBranch a first) (e.linkBranch a first) := fun first => by
    unfold linkBranch hasEdge
    rw [h.edges]
    split
    · exact h
    · exact h.connect _ _ _
  unfold Draft.closeBranch
  rw [h.columnIds]
  split
  · exact h.report _ _
  · exact (hlinkBranch _).keepFork a _ _

/-- The target of a choice is kept in both. -/
theorem keepChoiceNext (h : Alike refusal n d e) (choice : String) (next : Option String)
    (span : Span) :
    Alike refusal n (d.keepChoiceNext choice next span) (e.keepChoiceNext choice next span) := by
  obtain ⟨g, rfl, hnodes, hexplains⟩ := h
  unfold Draft.keepChoiceNext
  split <;> exact ⟨g, rfl, hnodes, hexplains⟩

/-- Arms are kept in both. -/
theorem keepArms (h : Alike refusal n d e) (arms : List Arm) :
    Alike refusal n { d with arms := d.arms ++ arms } { e with arms := e.arms ++ arms } := by
  obtain ⟨g, rfl, hnodes, hexplains⟩ := h
  exact ⟨g, rfl, hnodes, hexplains⟩

end Alike

end Draft

end Flowchart
