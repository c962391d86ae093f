import Flowchart.Proofs.Draft.Implicit
import Flowchart.Proofs.Draft.Strokes

/-!
# Where the edges of a diagram come from

Once the icons of a root are placed, nothing changes any more of what edges are drawn from: the
icons, the names and what is kept of questions and arms (`Agrees`). So the strokes of a draft are the
same before they are drawn and after (`Agrees.strokes`), and the edges of the diagram are, in this
order, those of the placed draft, the edge to the parameters, the lines, and the strokes that remain
when the nodes of all these but the first are linked (`ofRoot_ledger`).
-/

namespace Flowchart

/-- The two nodes of an edge. -/
def Edge.ends (e : Edge) : String × String := (e.leaves, e.enters)

/-- The edge has its two nodes noted. -/
def Edge.IsSettled (e : Edge) : Prop := e.settle e.leaves e.enters = e

/-- An edge that has just been settled is settled. -/
theorem Edge.isSettled_settle (e : Edge) (source target : String) :
    (e.settle source target).IsSettled := rfl

namespace Draft

open Stroke

/-! ## What drawing edges leaves alone -/

/-- Two drafts have the same icons and names, and keep the same of questions and arms. -/
structure Agrees (d e : Draft) : Prop where
  /-- They have the same nodes. -/
  nodes : e.diagram.nodes = d.diagram.nodes
  /-- The same ids are in use. -/
  ids : e.ids = d.ids
  /-- The same nodes stand in every column. -/
  columns : e.columns = d.columns
  /-- The next column is the same. -/
  nextColumn : e.nextColumn = d.nextColumn
  /-- The same names are claimed. -/
  aliases : e.aliases = d.aliases
  /-- The same questions are kept. -/
  forks : e.forks = d.forks
  /-- The same arms are kept. -/
  arms : e.arms = d.arms
  /-- The same targets of choices are kept. -/
  choiceNexts : e.choiceNexts = d.choiceNexts

/-- A draft agrees with itself. -/
theorem Agrees.refl (d : Draft) : Agrees d d := ⟨rfl, rfl, rfl, rfl, rfl, rfl, rfl, rfl⟩

/-- What agrees with a draft in between agrees with the first one. -/
theorem Agrees.trans {d e f : Draft} (h : Agrees d e) (k : Agrees e f) : Agrees d f :=
  ⟨k.nodes.trans h.nodes, k.ids.trans h.ids, k.columns.trans h.columns,
    k.nextColumn.trans h.nextColumn, k.aliases.trans h.aliases, k.forks.trans h.forks,
    k.arms.trans h.arms, k.choiceNexts.trans h.choiceNexts⟩

/-- Drafts agree with each other. -/
theorem Agrees.symm {d e : Draft} (h : Agrees d e) : Agrees e d :=
  ⟨h.nodes.symm, h.ids.symm, h.columns.symm, h.nextColumn.symm, h.aliases.symm, h.forks.symm,
    h.arms.symm, h.choiceNexts.symm⟩

/-- The tables agree with the nodes in both drafts or in none. -/
theorem Agrees.registry {d e : Draft} (h : Agrees d e) (hd : d.Registry) : e.Registry := by
  refine hd.of_places ?_ h.ids h.columns h.aliases h.nextColumn
  rw [Diagram.places, h.nodes]
  rfl

/-- Drafts that agree have their nodes in the same places. -/
theorem Agrees.posts {d e : Draft} (h : Agrees d e) : e.diagram.posts = d.diagram.posts := by
  rw [Diagram.posts, h.nodes]
  rfl

/-- The kind of a node does not change while edges are drawn. -/
theorem Agrees.hasKind_iff {d e : Draft} (h : Agrees d e) {id : String} {kind : NodeKind} :
    e.HasKind id kind ↔ d.HasKind id kind := by
  rw [HasKind, HasKind, h.posts]

/-- More edges and links do not matter to what drafts agree in. -/
theorem agrees_extend (d : Draft) (edges : List Edge) (pairs : List (String × String)) :
    Agrees d (d.extend edges pairs) := ⟨rfl, rfl, rfl, rfl, rfl, rfl, rfl, rfl⟩

/-! ## Looking names up -/

/-- Looking a name up notes problems and nothing else, for the ids of all nodes are claimed. The
problems say that the reference is none or that nothing has its name, and there is one if nothing is
found. -/
theorem resolve_notes {d : Draft} (hd : d.Registry) (value : Option Value) (referrer : Referrer)
    (span : Span) : ∃ own : List BuildProblem,
      (d.resolve value referrer span).1 = { d with problems := d.problems ++ own } ∧
      ((d.resolve value referrer span).2 = none → own ≠ []) ∧
      ∀ p ∈ own, p.span = span ∧ p.fault.code ∈ [Code.unknownReference, .invalidReference] := by
  -- A name that is the id of a node is claimed already.
  have hclaim : ∀ name, d.hasNode name → d.claim name name = d := by
    intro name hname
    unfold claim
    split
    · rfl
    · rename_i trimmed htrimmed
      rw [if_pos (hd.named name hname trimmed htrimmed)]
  -- There are two outcomes: a reference and no problem, or a problem and no reference.
  have hfound : ∀ reference : Reference, ∃ own : List BuildProblem,
      d = { d with problems := d.problems ++ own } ∧ (some reference = none → own ≠ []) ∧
      ∀ p ∈ own, p.span = span ∧ p.fault.code ∈ [Code.unknownReference, .invalidReference] := by
    intro reference
    refine ⟨[], ?_, (nomatch ·), fun p hp => absurd hp List.not_mem_nil⟩
    rw [List.append_nil]
  have hmissed : ∀ fault : BuildFault, fault.code ∈ [Code.unknownReference, .invalidReference] →
      ∃ own : List BuildProblem, d.report fault span = { d with problems := d.problems ++ own } ∧
      ((none : Option Reference) = none → own ≠ []) ∧
      ∀ p ∈ own, p.span = span ∧ p.fault.code ∈ [Code.unknownReference, .invalidReference] := by
    intro fault hcode
    refine ⟨[⟨fault, span⟩], rfl, fun _ => List.cons_ne_nil _ _, fun p hp => ?_⟩
    rw [List.mem_singleton.mp hp]
    exact ⟨rfl, hcode⟩
  unfold resolve
  split
  · exact hmissed _ (by simp [BuildFault.code])
  · split
    · split
      · exact hfound _
      · exact hmissed _ (by simp [BuildFault.code])
    · split
      · split
        · rename_i hname
          dsimp only
          rw [hclaim _ hname]
          exact hfound _
        · exact hmissed _ (by simp [BuildFault.code])
      · dsimp only
        split
        · exact hfound _
        · exact hmissed _ (by simp [BuildFault.code])

/-- Looking a name up changes problems only. -/
theorem resolve_eq {d : Draft} (hd : d.Registry) (value : Option Value) (referrer : Referrer)
    (span : Span) : ∃ problems, (d.resolve value referrer span).1 = { d with problems } := by
  obtain ⟨own, he, -⟩ := resolve_notes hd value referrer span
  exact ⟨_, he⟩

/-- A draft agrees with itself after a name was looked up. -/
theorem resolve_agrees {d : Draft} (hd : d.Registry) (value : Option Value) (referrer : Referrer)
    (span : Span) : Agrees d (d.resolve value referrer span).1 := by
  obtain ⟨problems, he⟩ := resolve_eq hd value referrer span
  rw [he]
  exact ⟨rfl, rfl, rfl, rfl, rfl, rfl, rfl, rfl⟩

/-- What is found depends on the names and the ids in use. -/
theorem Agrees.resolve {d e : Draft} (h : Agrees d e) (value : Option Value) (referrer : Referrer)
    (span : Span) : (e.resolve value referrer span).2 = (d.resolve value referrer span).2 := by
  unfold Draft.resolve hasNode
  rw [h.aliases, h.ids]
  split
  · rfl
  · split
    · split <;> rfl
    · split
      · split <;> rfl
      · dsimp only
        split <;> rfl

/-- The default target depends on the names and the nodes. -/
theorem Agrees.defaultTarget {d e : Draft} (h : Agrees d e) : e.defaultTarget = d.defaultTarget := by
  rw [Draft.defaultTarget, h.aliases, h.nodes]
  rfl

/-- Drafts that are related keep the same of questions and arms, and looking a name up in both of
them finds the same node and leads to drafts that are related. -/
structure ResolvesSame (R : Draft → Draft → Prop) : Prop where
  /-- The same questions are kept. -/
  forks : ∀ {d e : Draft}, R d e → e.forks = d.forks
  /-- The same targets of choices are kept. -/
  choiceNexts : ∀ {d e : Draft}, R d e → e.choiceNexts = d.choiceNexts
  /-- The same arms are kept. -/
  arms : ∀ {d e : Draft}, R d e → e.arms = d.arms
  /-- A name leads to the same node, and the drafts behind are related. -/
  resolve : ∀ {d e : Draft}, R d e → ∀ (name : String) (referrer : Referrer) (span : Span),
    R (d.resolve (some (.text name)) referrer span).1
        (e.resolve (some (.text name)) referrer span).1 ∧
      (e.resolve (some (.text name)) referrer span).2 =
        (d.resolve (some (.text name)) referrer span).2

/-- Two look-ups have come to the same targets, in drafts that are related. -/
structure SameLookup (R : Draft → Draft → Prop) (a b : Lookup) : Prop where
  /-- The drafts are related. -/
  related : R a.1 b.1
  /-- The targets are the same. -/
  targets : b.2 = a.2

section

variable {R : Draft → Draft → Prop}

/-- Looking up one target. -/
theorem SameLookup.resolveNext (hR : ResolvesSame R) {a b : Lookup} (h : SameLookup R a b)
    (referrer : String → Referrer) (id next : String) (span : Span) :
    SameLookup R (resolveNext referrer a id next span) (resolveNext referrer b id next span) := by
  obtain ⟨hrelated, hfound⟩ := hR.resolve h.related next (referrer id) span
  unfold Draft.resolveNext
  dsimp only
  generalize a.1.resolve (some (.text next)) (referrer id) span = x at hrelated hfound ⊢
  generalize b.1.resolve (some (.text next)) (referrer id) span = y at hrelated hfound ⊢
  exact ⟨hrelated, by rw [hfound, h.targets]⟩

/-- Looking up several targets. -/
theorem SameLookup.foldl {α : Type} {turn : Lookup → α → Lookup}
    (hturn : ∀ a b x, SameLookup R a b → SameLookup R (turn a x) (turn b x)) (xs : List α)
    {a b : Lookup} (h : SameLookup R a b) : SameLookup R (xs.foldl turn a) (xs.foldl turn b) := by
  induction xs generalizing a b with
  | nil => exact h
  | cons x xs ih => exact ih (hturn a b x h)

/-- Looking up the target of a question finds the same in related drafts. -/
theorem SameLookup.resolveFork (hR : ResolvesSame R) (a b : Lookup) (p : String × Fork)
    (h : SameLookup R a b) : SameLookup R (resolveFork a p) (resolveFork b p) := by
  unfold Draft.resolveFork
  split
  split
  · exact h.resolveNext hR _ _ _ _
  · exact h

/-- Looking up the target of a choice finds the same in related drafts. -/
theorem SameLookup.resolveChoice (hR : ResolvesSame R) (a b : Lookup) (written : ChoiceNext)
    (h : SameLookup R a b) : SameLookup R (resolveChoice a written) (resolveChoice b written) := by
  unfold Draft.resolveChoice
  exact h.resolveNext hR _ _ _ _

/-- Looking up the target of an arm finds the same in related drafts. -/
theorem SameLookup.resolveArm (hR : ResolvesSame R) (a b : Lookup) (arm : Arm)
    (h : SameLookup R a b) : SameLookup R (resolveArm a arm) (resolveArm b arm) := by
  unfold Draft.resolveArm
  split
  · exact h.resolveNext hR _ _ _ _
  · exact h

/-- Looking up all targets. -/
theorem ResolvesSame.resolveTargets (hR : ResolvesSame R) {d e : Draft} (h : R d e) :
    R d.resolveTargets.1 e.resolveTargets.1 ∧ e.resolveTargets.2 = d.resolveTargets.2 := by
  have hforks : SameLookup R (d.forks.foldl Draft.resolveFork (d, []))
      (e.forks.foldl Draft.resolveFork (e, [])) := by
    rw [hR.forks h]
    exact SameLookup.foldl (.resolveFork hR) _ ⟨h, rfl⟩
  unfold Draft.resolveTargets
  generalize d.forks.foldl Draft.resolveFork (d, []) = a at hforks
  generalize e.forks.foldl Draft.resolveFork (e, []) = b at hforks
  obtain ⟨d₁, questions⟩ := a
  obtain ⟨e₁, others⟩ := b
  obtain ⟨h₁, rfl⟩ := hforks
  -- Each round starts from the drafts that the one before has left.
  have hchoices : SameLookup R (d₁.choiceNexts.foldl Draft.resolveChoice (d₁, []))
      (e₁.choiceNexts.foldl Draft.resolveChoice (e₁, [])) := by
    rw [hR.choiceNexts h₁]
    exact SameLookup.foldl (.resolveChoice hR) _ ⟨h₁, rfl⟩
  dsimp only
  generalize d₁.choiceNexts.foldl Draft.resolveChoice (d₁, []) = a at hchoices
  generalize e₁.choiceNexts.foldl Draft.resolveChoice (e₁, []) = b at hchoices
  obtain ⟨d₂, choices⟩ := a
  obtain ⟨e₂, others⟩ := b
  obtain ⟨h₂, rfl⟩ := hchoices
  have harms : SameLookup R (d₂.arms.foldl Draft.resolveArm (d₂, []))
      (e₂.arms.foldl Draft.resolveArm (e₂, [])) := by
    rw [hR.arms h₂]
    exact SameLookup.foldl (.resolveArm hR) _ ⟨h₂, rfl⟩
  dsimp only
  exact ⟨harms.related, by rw [harms.targets]⟩

end

/-- Names are looked up alike in drafts that agree. -/
theorem resolvesSame_agrees : ResolvesSame fun d e => d.Registry ∧ Agrees d e where
  forks h := h.2.forks
  choiceNexts h := h.2.choiceNexts
  arms h := h.2.arms
  resolve {d e} h name referrer span := by
    have hd := resolve_agrees h.1 (some (.text name)) referrer span
    have he := resolve_agrees (h.2.registry h.1) (some (.text name)) referrer span
    exact ⟨⟨hd.registry h.1, hd.symm.trans (h.2.trans he)⟩, h.2.resolve _ _ _⟩

/-- The targets depend on what drafts agree about. -/
theorem Agrees.targets {d e : Draft} (h : Agrees d e) (hd : d.Registry) :
    e.resolveTargets.2 = d.resolveTargets.2 := (resolvesSame_agrees.resolveTargets ⟨hd, h⟩).2

/-! ## The strokes of a draft -/

/-- What a question goes on with: what is written on it, else the default. -/
def forkTarget (d : Draft) (question : String) : Option Reference :=
  d.resolveTargets.2.ofFork d.defaultTarget question

/-- What an arm goes on with: what is written on it, else on its choice, else the default. -/
def armTarget (d : Draft) (arm : Arm) : Option Reference :=
  d.resolveTargets.2.ofArm d.defaultTarget arm

/-- The strokes of the columns, then of the questions, then of the arms. -/
def strokes (d : Draft) : List Stroke :=
  d.columnPairs.filterMap d.columnStroke ++
    (d.forks.flatMap fun p => forkStrokes (d.forkTarget p.1) p) ++
    (groupedArms d.arms).flatMap fun arm => armStrokes (d.armTarget arm) arm

/-- Drafts that agree have the same strokes down their columns. -/
theorem Agrees.columnStroke {d e : Draft} (h : Agrees d e) : e.columnStroke = d.columnStroke := by
  funext p
  rw [Draft.columnStroke, isBranching_congr h.nodes h.forks h.arms]
  rfl

/-- The strokes depend on what drafts agree about. -/
theorem Agrees.strokes {d e : Draft} (h : Agrees d e) (hd : d.Registry) : e.strokes = d.strokes := by
  simp only [Draft.strokes, columnPairs, forkTarget, armTarget, h.columnStroke, h.targets hd,
    h.defaultTarget, h.columns, h.forks, h.arms]

/-- What asks for a stroke. -/
inductive Asks (d : Draft) : Stroke → Prop
  /-- Down a column, from a node that does not branch. -/
  | sequence {source target : String} (pair : (source, target) ∈ d.columnPairs)
      (plain : d.isBranching source = false) : Asks d (sequenceStroke source target)
  /-- From a question down the main flow. -/
  | main {question : String} {fork : Fork} (kept : (question, fork) ∈ d.forks)
      {target : Reference} (leads : d.forkTarget question = some target) :
      Asks d (mainStroke question fork target)
  /-- From a question without a branch, straight to its target. -/
  | direct {question : String} {fork : Fork} (kept : (question, fork) ∈ d.forks)
      (none : fork.branchEnd = none) {target : Reference}
      (leads : d.forkTarget question = some target) : Asks d (directStroke question fork target)
  /-- From the end of a branch to the target of its question. -/
  | rejoin {question : String} {fork : Fork} (kept : (question, fork) ∈ d.forks) {last : String}
      (ends : fork.branchEnd = some last) {target : Reference}
      (leads : d.forkTarget question = some target) (moves : last ≠ target.node) :
      Asks d (returnStroke last fork.side.key target)
  /-- From a choice to the head of an arm. -/
  | head {arm : Arm} (kept : arm ∈ d.arms) : Asks d (headStroke arm)
  /-- From an arm without blocks to its target. -/
  | emptyArm {arm : Arm} (kept : arm ∈ d.arms) (none : arm.armEnd = none) {target : Reference}
      (leads : d.armTarget arm = some target) : Asks d (emptyArmStroke arm target)
  /-- From the end of an arm to its target. -/
  | armRejoin {arm : Arm} (kept : arm ∈ d.arms) {last : String} (ends : arm.armEnd = some last)
      {target : Reference} (leads : d.armTarget arm = some target) (moves : last ≠ target.node) :
      Asks d (returnStroke last arm.kind.name target)

/-- The way back of a branch is a stroke unless the branch ends at the target. -/
theorem rejoinStroke_eq_some {last branch : String} {target : Reference} {s : Stroke} :
    rejoinStroke last branch target = some s ↔
      last ≠ target.node ∧ s = returnStroke last branch target := by
  unfold rejoinStroke
  split <;> rename_i h <;> simp [h, eq_comm]

/-- Grouping arms loses none. -/
theorem mem_groupedArms {arms : List Arm} {arm : Arm} : arm ∈ groupedArms arms ↔ arm ∈ arms := by
  refine ⟨mem_of_mem_groupedArms, fun hm => List.mem_flatMap.mpr ⟨arm.choice, ?_, ?_⟩⟩
  · exact List.mem_eraseDups.mpr (List.mem_map_of_mem hm)
  · exact List.mem_filter.mpr ⟨hm, decide_eq_true rfl⟩

/-- The strokes of a question. -/
theorem mem_forkStrokes {target : Option Reference} {question : String} {fork : Fork} {s : Stroke} :
    s ∈ forkStrokes target (question, fork) ↔ ∃ reference, target = some reference ∧
      (s = mainStroke question fork reference ∨
        (fork.branchEnd = none ∧ s = directStroke question fork reference) ∨
        ∃ last, fork.branchEnd = some last ∧ last ≠ reference.node ∧
          s = returnStroke last fork.side.key reference) := by
  unfold forkStrokes branchStrokes
  cases target with
  | none => simp
  | some reference => cases fork.branchEnd <;> simp [rejoinStroke_eq_some]

/-- The strokes of an arm. -/
theorem mem_armStrokes {target : Option Reference} {arm : Arm} {s : Stroke} :
    s ∈ armStrokes target arm ↔ s = headStroke arm ∨ ∃ reference, target = some reference ∧
      ((arm.armEnd = none ∧ s = emptyArmStroke arm reference) ∨
        ∃ last, arm.armEnd = some last ∧ last ≠ reference.node ∧
          s = returnStroke last arm.kind.name reference) := by
  unfold armStrokes
  cases target with
  | none => simp
  | some reference => cases arm.armEnd <;> simp [rejoinStroke_eq_some]

/-- A stroke of a draft is one that something asks for. -/
theorem mem_strokes {d : Draft} {s : Stroke} : s ∈ d.strokes ↔ d.Asks s := by
  unfold strokes
  rw [List.mem_append, List.mem_append, List.mem_filterMap, List.mem_flatMap, List.mem_flatMap]
  constructor
  · rintro ((⟨⟨source, target⟩, hp, hs⟩ | ⟨⟨question, fork⟩, hm, hs⟩) | ⟨arm, hm, hs⟩)
    · rw [columnStroke] at hs
      split at hs
      · cases hs
      · rename_i hplain
        rw [← Option.some.inj hs]
        exact .sequence hp (Bool.eq_false_iff.mpr hplain)
    · -- A question asks for its main edge, and one from its branch or in the place of one.
      obtain ⟨target, ht, rfl | ⟨hend, rfl⟩ | ⟨last, hend, hne, rfl⟩⟩ := mem_forkStrokes.mp hs
      · exact .main hm ht
      · exact .direct hm hend ht
      · exact .rejoin hm hend ht hne
    · -- A choice asks for the edges of its arms.
      have hm' := mem_groupedArms.mp hm
      rcases mem_armStrokes.mp hs with rfl | ⟨target, ht, ⟨hend, rfl⟩ | ⟨last, hend, hne, rfl⟩⟩
      · exact .head hm'
      · exact .emptyArm hm' hend ht
      · exact .armRejoin hm' hend ht hne
  · rintro (⟨hp, hplain⟩ | ⟨hm, ht⟩ | ⟨hm, hend, ht⟩ | ⟨hm, hend, ht, hne⟩ | hm | ⟨hm, hend, ht⟩ |
      ⟨hm, hend, ht, hne⟩)
    · exact .inl (.inl ⟨_, hp, by rw [columnStroke, hplain]; rfl⟩)
    · exact .inl (.inr ⟨_, hm, mem_forkStrokes.mpr ⟨_, ht, .inl rfl⟩⟩)
    · exact .inl (.inr ⟨_, hm, mem_forkStrokes.mpr ⟨_, ht, .inr (.inl ⟨hend, rfl⟩)⟩⟩)
    · exact .inl (.inr ⟨_, hm, mem_forkStrokes.mpr ⟨_, ht, .inr (.inr ⟨_, hend, hne, rfl⟩)⟩⟩)
    · exact .inr ⟨_, mem_groupedArms.mpr hm, mem_armStrokes.mpr (.inl rfl)⟩
    · exact .inr ⟨_, mem_groupedArms.mpr hm, mem_armStrokes.mpr (.inr ⟨_, ht, .inl ⟨hend, rfl⟩⟩)⟩
    · exact .inr ⟨_, mem_groupedArms.mpr hm,
        mem_armStrokes.mpr (.inr ⟨_, ht, .inr ⟨_, hend, hne, rfl⟩⟩)⟩

/-! ## Decorations, the parameters and lines -/

/-- Edges are drawn behind those of a draft, and their nodes are linked. -/
structure Draws (d e : Draft) (new : List Edge) : Prop where
  /-- Nothing else has changed. -/
  agrees : Agrees d e
  /-- The new edges stand behind those that were there. -/
  edges : e.diagram.edges = d.diagram.edges ++ new
  /-- So do the pairs that they link. -/
  linked : e.linked = d.linked ++ new.map Edge.ends

/-- The edges of two steps are drawn one after the other. -/
theorem Draws.trans {d e f : Draft} {edges more : List Edge} (h : Draws d e edges)
    (k : Draws e f more) : Draws d f (edges ++ more) :=
  ⟨h.agrees.trans k.agrees, by rw [k.edges, h.edges, List.append_assoc],
    by rw [k.linked, h.linked, List.append_assoc, List.map_append]⟩

/-- No edge is drawn. -/
theorem draws_nil {d e : Draft} (agrees : Agrees d e) (edges : e.diagram.edges = d.diagram.edges)
    (linked : e.linked = d.linked) : Draws d e [] :=
  ⟨agrees, edges.trans (List.append_nil _).symm, linked.trans (List.append_nil _).symm⟩

/-- Looking a name up draws no edge. -/
theorem resolve_draws {d : Draft} (hd : d.Registry) (value : Option Value) (referrer : Referrer)
    (span : Span) : Draws d (d.resolve value referrer span).1 [] := by
  have hagrees := resolve_agrees hd value referrer span
  obtain ⟨problems, he⟩ := resolve_eq hd value referrer span
  rw [he] at hagrees ⊢
  exact draws_nil hagrees rfl rfl

/-- Attaching a decoration draws no edge. -/
theorem attach_draws {d : Draft} (hd : d.Registry) (b : Block) : Draws d (d.attach b) [] := by
  obtain ⟨problems, he⟩ :=
    resolve_eq hd (b.attributes.get? "target") .attachmentTarget b.span
  unfold attach
  dsimp only
  rw [he]
  split <;> exact draws_nil ⟨rfl, rfl, rfl, rfl, rfl, rfl, rfl, rfl⟩ rfl rfl

/-- Adding a note draws no edge. -/
theorem addNote_draws {d : Draft} (hd : d.Registry) (b : Block) : Draws d (d.addNote b) [] := by
  have hpin : ∃ problems, (d.notePin b).1 = { d with problems } := by
    unfold notePin
    split
    · exact resolve_eq hd _ _ _
    · exact ⟨_, rfl⟩
  obtain ⟨problems, he⟩ := hpin
  unfold addNote
  dsimp only
  rw [he]
  exact draws_nil ⟨rfl, rfl, rfl, rfl, rfl, rfl, rfl, rfl⟩ rfl rfl

/-- A line is written, and has its two nodes noted. -/
structure IsLine (e : Edge) : Prop where
  /-- An author wrote it. -/
  written : e.isWritten = true
  /-- Both ends are noted. -/
  settled : e.IsSettled

/-- The edge that a line leaves in the diagram, unless one of its ends is unknown. -/
def lineOf? (d : Draft) (b : Block) : Option Edge :=
  match (d.resolve (b.attributes.get? "from") .lineSource b.span).2,
      (d.resolve (b.attributes.get? "to") .lineTarget b.span).2 with
  | some source, some target =>
    some ((lineEdge b.attributes source target).settle source.node target.node)
  | _, _ => none

/-- A line has the nodes that its two ends were found to be. -/
theorem lineOf?_eq_some {d : Draft} {b : Block} {e : Edge} :
    d.lineOf? b = some e ↔ ∃ source target,
      (d.resolve (b.attributes.get? "from") .lineSource b.span).2 = some source ∧
      (d.resolve (b.attributes.get? "to") .lineTarget b.span).2 = some target ∧
      e = (lineEdge b.attributes source target).settle source.node target.node := by
  unfold lineOf?
  cases (d.resolve (b.attributes.get? "from") .lineSource b.span).2 <;>
    cases (d.resolve (b.attributes.get? "to") .lineTarget b.span).2 <;> simp [eq_comm]

/-- A line leaves no edge if one of its ends is unknown. -/
theorem lineOf?_eq_none {d : Draft} {b : Block} : d.lineOf? b = none ↔
    (d.resolve (b.attributes.get? "from") .lineSource b.span).2 = none ∨
      (d.resolve (b.attributes.get? "to") .lineTarget b.span).2 = none := by
  unfold lineOf?
  cases (d.resolve (b.attributes.get? "from") .lineSource b.span).2 <;>
    cases (d.resolve (b.attributes.get? "to") .lineTarget b.span).2 <;> simp

/-- What a line becomes depends on the names and the ids in use. -/
theorem Agrees.lineOf? {d e : Draft} (h : Agrees d e) : e.lineOf? = d.lineOf? := by
  funext b
  rw [Draft.lineOf?, h.resolve, h.resolve]
  rfl

/-- The edge of a line is a line. -/
theorem isLine_of_lineOf? {d : Draft} {b : Block} {e : Edge} (h : d.lineOf? b = some e) :
    IsLine e := by
  obtain ⟨source, target, -, -, rfl⟩ := lineOf?_eq_some.mp h
  refine ⟨Table.has_iff.mpr (Table.mem_keys_put.mpr (.inr (Table.mem_keys_put.mpr (.inl rfl)))), ?_⟩
  exact Edge.isSettled_settle _ _ _

/-- Drawing a line draws its edge. -/
theorem drawLine_draws {d : Draft} (hd : d.Registry) (b : Block) :
    Draws d (d.drawLine b) (d.lineOf? b).toList := by
  have hsource := resolve_draws hd (b.attributes.get? "from") .lineSource b.span
  have htarget := resolve_draws (hsource.agrees.registry hd) (b.attributes.get? "to") .lineTarget
    b.span
  have hboth := hsource.trans htarget
  -- The second name is looked up after the first one, which makes no difference.
  have hfound := hsource.agrees.resolve (b.attributes.get? "to") .lineTarget b.span
  unfold drawLine lineOf?
  dsimp only
  rw [hfound]
  cases (d.resolve (b.attributes.get? "from") .lineSource b.span).2 with
  | none => exact hboth
  | some source =>
    cases (d.resolve (b.attributes.get? "to") .lineTarget b.span).2 with
    | none => exact hboth
    | some target => exact hboth.trans ⟨⟨rfl, rfl, rfl, rfl, rfl, rfl, rfl, rfl⟩, rfl, rfl⟩

/-- Drawing lines draws their edges. -/
theorem foldl_drawLine_draws (bs : List Block) {d : Draft} (hd : d.Registry) :
    Draws d (bs.foldl drawLine d) (bs.filterMap d.lineOf?) := by
  induction bs generalizing d with
  | nil => exact draws_nil (.refl d) rfl rfl
  | cons b bs ih =>
    have hb := drawLine_draws hd b
    have hbs := hb.trans (ih (hb.agrees.registry hd))
    rw [hb.agrees.lineOf?] at hbs
    rw [List.foldl_cons, List.filterMap_cons]
    cases hline : d.lineOf? b with
    | none => rwa [hline] at hbs
    | some e => rwa [hline] at hbs

/-- A loop whose turns draw nothing draws nothing. -/
theorem foldl_draws_nil {σ α : Type} (view : σ → Draft) {turn : σ → α → σ} (xs : List α)
    (hturn : ∀ s x, (view s).Registry → Draws (view s) (view (turn s x)) []) {s : σ}
    (hs : (view s).Registry) : Draws (view s) (view (xs.foldl turn s)) [] := by
  induction xs generalizing s with
  | nil => exact draws_nil (.refl _) rfl rfl
  | cons x xs ih =>
    have hx := hturn s x hs
    exact hx.trans (ih (hx.agrees.registry hs))

/-- The edge to the parameters, with its nodes noted. -/
def openingEdges (edge : Option Edge) : List Edge :=
  edge.toList.map fun x => x.settle x.leaves x.enters

/-- The edge to the parameters is drawn when no nodes are linked yet. -/
theorem linkParameters_draws {d : Draft} (hlinked : d.linked = []) (edge : Option Edge) :
    Draws d (d.linkParameters edge) (openingEdges edge) := by
  cases edge with
  | none => exact draws_nil (.refl d) rfl rfl
  | some edge =>
    have hnot : d.linked.contains (edge.leaves, edge.enters) = false := by
      rw [hlinked]
      rfl
    unfold linkParameters link
    dsimp only
    rw [hnot, if_neg Bool.false_ne_true]
    exact ⟨⟨rfl, rfl, rfl, rfl, rfl, rfl, rfl, rfl⟩, rfl, rfl⟩

/-- The draft with the attachments, the notes, the edge to the parameters and the lines. -/
def decorated (d : Draft) (root : Block) (parametersEdge : Option Edge) : Draft :=
  let d := (root.blocksCalled "attach").foldl attach d
  let d := (root.blocksCalled "note").foldl addNote d
  let d := d.linkParameters parametersEdge
  (root.blocksCalled "line").foldl drawLine d

/-- The edges of the lines of a root. -/
def linesOf (d : Draft) (root : Block) : List Edge :=
  (root.blocksCalled "line").filterMap d.lineOf?

/-- Drafts that agree have the same lines to draw. -/
theorem Agrees.linesOf {d e : Draft} (h : Agrees d e) (root : Block) :
    e.linesOf root = d.linesOf root := by
  rw [Draft.linesOf, h.lineOf?]
  rfl

/-- The edges of the lines of a root are lines. -/
theorem isLine_of_mem_linesOf {d : Draft} {root : Block} {e : Edge} (h : e ∈ d.linesOf root) :
    IsLine e := by
  obtain ⟨b, -, hline⟩ := List.mem_filterMap.mp h
  exact isLine_of_lineOf? hline

/-- Attachments and notes draw no edge, and the edge to the parameters comes first. -/
theorem furnished_draws {d : Draft} (hd : d.Planned) (attachments notes : List Block)
    (edge : Option Edge) :
    Draws d ((notes.foldl addNote (attachments.foldl attach d)).linkParameters edge)
      (openingEdges edge) := by
  have hattached : Draws d (attachments.foldl attach d) [] :=
    foldl_draws_nil id _ (fun _ b h => attach_draws h b) hd.closed.registry
  have hnoted : Draws d (notes.foldl addNote (attachments.foldl attach d)) [] :=
    hattached.trans (foldl_draws_nil id _ (fun _ b h => addNote_draws h b)
      (hattached.agrees.registry hd.closed.registry))
  have hlinked : (notes.foldl addNote (attachments.foldl attach d)).linked = [] := by
    rw [hnoted.linked, hd.linked]
    rfl
  exact hnoted.trans (linkParameters_draws hlinked edge)

/-- Before the edges of the flow come the edge to the parameters and the lines. -/
theorem decorated_draws {d : Draft} (hd : d.Planned) (root : Block) (edge : Option Edge) :
    Draws d (d.decorated root edge) (openingEdges edge ++ d.linesOf root) := by
  have hopened := furnished_draws hd (root.blocksCalled "attach") (root.blocksCalled "note") edge
  have hlines := hopened.trans (foldl_drawLine_draws (root.blocksCalled "line")
    (hopened.agrees.registry hd.closed.registry))
  -- What the lines become is what it would have been before the decorations.
  rw [hopened.agrees.lineOf?] at hlines
  exact hlines

/-! ## The edges of the flow -/

/-- Looking up one target draws no edge. -/
theorem resolveNext_draws {looked : Lookup} (h : looked.1.Registry) (referrer : String → Referrer)
    (id next : String) (span : Span) :
    Draws looked.1 (resolveNext referrer looked id next span).1 [] := by
  have hdraws := resolve_draws h (some (.text next)) (referrer id) span
  unfold resolveNext
  dsimp only
  exact hdraws

/-- Looking up the target of a question draws no edge. -/
theorem resolveFork_draws (looked : Lookup) (p : String × Fork) (h : looked.1.Registry) :
    Draws looked.1 (resolveFork looked p).1 [] := by
  unfold resolveFork
  split
  split
  · exact resolveNext_draws h _ _ _ _
  · exact draws_nil (.refl _) rfl rfl

/-- Looking up the target of a choice draws no edge. -/
theorem resolveChoice_draws (looked : Lookup) (written : ChoiceNext) (h : looked.1.Registry) :
    Draws looked.1 (resolveChoice looked written).1 [] := by
  unfold resolveChoice
  exact resolveNext_draws h _ _ _ _

/-- Looking up the target of an arm draws no edge. -/
theorem resolveArm_draws (looked : Lookup) (arm : Arm) (h : looked.1.Registry) :
    Draws looked.1 (resolveArm looked arm).1 [] := by
  unfold resolveArm
  split
  · exact resolveNext_draws h _ _ _ _
  · exact draws_nil (.refl _) rfl rfl

/-- Looking up all targets draws no edge. -/
theorem resolveTargets_draws {d : Draft} (hd : d.Registry) : Draws d d.resolveTargets.1 [] := by
  have hforks : Draws d (d.forks.foldl resolveFork (d, [])).1 [] :=
    foldl_draws_nil Prod.fst _ resolveFork_draws (s := (d, [])) hd
  have hforked := hforks.agrees.registry hd
  unfold resolveTargets
  dsimp only
  generalize (d.forks.foldl resolveFork (d, [])).1 = forked at hforks hforked
  have hchoices : Draws forked (forked.choiceNexts.foldl resolveChoice (forked, [])).1 [] :=
    foldl_draws_nil Prod.fst _ resolveChoice_draws (s := (forked, [])) hforked
  have hchosen := hchoices.agrees.registry hforked
  generalize (forked.choiceNexts.foldl resolveChoice (forked, [])).1 = chosen at hchoices hchosen
  have harms : Draws chosen (chosen.arms.foldl resolveArm (chosen, [])).1 [] :=
    foldl_draws_nil Prod.fst _ resolveArm_draws (s := (chosen, [])) hchosen
  exact (hforks.trans hchoices).trans harms

/-- The draft with the edges of columns, questions and choices. -/
def flowed (d : Draft) : Draft :=
  let (d, targets) := d.resolveTargets
  let d := d.linkColumns
  let default := d.defaultTarget
  (d.linkForks targets default).linkArms targets default

/-- The edges of the flow are the strokes of the draft. -/
theorem flowed_eq {d : Draft} (hd : d.Registry) :
    d.flowed = d.resolveTargets.1.extend ((drawn d.linked d.strokes).map settled)
      (keyed (drawn d.linked d.strokes)) := by
  have hr := resolveTargets_draws hd
  have hlinked : d.resolveTargets.1.linked = d.linked := hr.linked.trans (List.append_nil _)
  -- Drawing the strokes of columns and questions changes neither the default target nor the arms.
  have hextend : ∀ ss : List Stroke, Agrees d (ss.foldl draw d.resolveTargets.1) := fun ss => by
    rw [foldl_draw]
    exact hr.agrees.trans (agrees_extend _ _ _)
  unfold flowed
  dsimp only
  rw [linkColumns_eq, linkForks_eq, linkArms_eq, (hextend _).defaultTarget, (hextend _).forks]
  simp only [← List.foldl_append]
  rw [(hextend _).arms, foldl_draw, hlinked, columnPairs, hr.agrees.columns,
    hr.agrees.columnStroke]
  rfl

/-! ## The whole diagram -/

/-- The last check of a draft whose edges have their nodes noted changes problems only. -/
theorem settleEdges_of_isSettled {d : Draft} (h : ∀ e ∈ d.diagram.edges, e.IsSettled) :
    Agrees d d.settleEdges ∧ d.settleEdges.diagram.edges = d.diagram.edges ∧
      d.settleEdges.linked = d.linked := by
  have hedges : d.diagram.edges.map (fun e => e.settle e.leaves e.enters) = d.diagram.edges :=
    (List.map_congr_left h).trans (List.map_id _)
  rw [settleEdges_eq]
  exact ⟨⟨rfl, rfl, rfl, rfl, rfl, rfl, rfl, rfl⟩, hedges, rfl⟩

/-- The edges of a diagram in the order in which they are drawn, and the pairs of nodes that are
linked in the end. -/
structure Ledger (placed d : Draft) (opening lines : List Edge) : Prop where
  /-- The icons are those that were placed. -/
  agrees : Agrees placed d
  /-- The edges are those of the branches, the opening ones, the lines, and the strokes that are
  left to draw. -/
  edges : d.diagram.edges = placed.diagram.edges ++ opening ++ lines ++
    (drawn ((opening ++ lines).map Edge.ends) d.strokes).map settled
  /-- The pairs that are linked are those of the edges behind the branches. -/
  linked : d.linked = (opening ++ lines).map Edge.ends ++
    keyed (drawn ((opening ++ lines).map Edge.ends) d.strokes)
  /-- The lines were written, and both ends are noted. -/
  lines : ∀ line ∈ lines, IsLine line

/-- The edges of a diagram come from the branches of questions, the parameters, the lines and the
strokes. -/
theorem ofRoot_ledger (root : Block) :
    Ledger (placeRoot root).1 (ofRoot root) (openingEdges (placeRoot root).2)
      ((ofRoot root).linesOf root) := by
  have hplaced := placed_planned root
  have hdraws := decorated_draws hplaced root (placeRoot root).2
  have hlines : ∀ line ∈ (placeRoot root).1.linesOf root, IsLine line := fun _ hl =>
    isLine_of_mem_linesOf hl
  generalize hlinesOf : (placeRoot root).1.linesOf root = lines at hdraws hlines
  generalize hopening : openingEdges (placeRoot root).2 = opening at hdraws ⊢
  generalize hdecorated : (placeRoot root).1.decorated root (placeRoot root).2 = d at hdraws
  have hd := hdraws.agrees.registry hplaced.closed.registry
  have hr := resolveTargets_draws hd
  have hflowed := flowed_eq hd
  have hlinked : d.linked = (opening ++ lines).map Edge.ends := by
    rw [hdraws.linked, hplaced.linked, List.nil_append]
  have hedges : d.flowed.diagram.edges = (placeRoot root).1.diagram.edges ++ opening ++ lines ++
      (drawn ((opening ++ lines).map Edge.ends) d.strokes).map settled := by
    rw [hflowed, edges_extend, hr.edges, List.append_nil, ← hlinked, List.append_assoc _ opening,
      ← hdraws.edges]
  -- All edges have their nodes noted.
  have hsettled : ∀ e ∈ d.flowed.diagram.edges, e.IsSettled := by
    intro e he
    rw [hedges, List.mem_append, List.mem_append, List.mem_append] at he
    rcases he with ((he | he) | he) | he
    · exact (hplaced.closed.edges e he).settle_eq
    · rw [← hopening] at he
      obtain ⟨x, -, rfl⟩ := List.mem_map.mp he
      exact x.isSettled_settle _ _
    · exact (hlines e he).settled
    · obtain ⟨s, -, rfl⟩ := List.mem_map.mp he
      exact s.edge.isSettled_settle _ _
  obtain ⟨hlast, hkept, hpairs⟩ := settleEdges_of_isSettled hsettled
  have hroot : ofRoot root = d.flowed.settleEdges := by
    rw [← hdecorated]
    rfl
  have hagrees : Agrees d d.flowed.settleEdges := by
    refine Agrees.trans ?_ hlast
    rw [hflowed]
    exact hr.agrees.trans (agrees_extend _ _ _)
  have hstrokes := hagrees.strokes hd
  have hplacedAgrees : Agrees (placeRoot root).1 (ofRoot root) :=
    hroot ▸ hdraws.agrees.trans hagrees
  rw [hplacedAgrees.linesOf, hlinesOf]
  refine ⟨hplacedAgrees, ?_, ?_, hlines⟩
  · rw [hroot, hkept, hstrokes, hedges]
  · rw [hroot, hpairs, hstrokes, hflowed, linked_extend, hr.linked, List.map_nil, List.append_nil,
      ← hlinked]

end Draft

end Flowchart
