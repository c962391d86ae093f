import Flowchart.Proofs.Draft.Frame
import Flowchart.Proofs.Draft.Keeping

/-!
# Names belong to the first node that claims them

A node is taken in with its names: its id, the labels of its block and its anchor, and the name that
the builder has for it. Put together in the order in which the nodes are taken in, these are the
claims of a root (`claims`), and the names that a draft with all icons of the root knows are exactly
those, each with the node that claimed it first (`placed_claims`).

The proof goes along the drafts on the way: in each of them the known names are those claimed by the
nodes that have been taken in so far (`Records`).
-/

namespace Flowchart

namespace Table

variable {κ α : Type} [DecidableEq κ]

/-- The entry under a key in two tables, one behind the other. -/
theorem get?_append (t u : Table κ α) (key : κ) :
    get? (t ++ u) key = (t.get? key).or (u.get? key) := by
  induction t with
  | nil => rfl
  | cons p t ih =>
    rw [List.cons_append, get?, get?]
    split
    · rfl
    · exact ih

end Table

namespace Draft

/-! ## What is claimed -/

/-- The name that the builder has for a node of some kind. -/
def builderName? : NodeKind → Option String
  | .start => some "start"
  | .parameters => some "parameters"
  | .finish => some "end"
  | _ => none

/-- The names of a node without their blank ends, as far as they are not blank: its id, the labels
of its block, its anchor and the name that the builder has for it. -/
def callNames (n : Node) : List String :=
  (namesOf n ++ (builderName? n.kind).toList).filterMap Text.trimmed?

/-- The names of nodes, in the order of the nodes, each with the id of its node. -/
def claimsOf (nodes : List Node) : Table String String :=
  nodes.flatMap fun n => (callNames n).map (·, n.id)

/-- The nodes of a draft that an earlier one does not have. -/
def newNodes (d e : Draft) : List Node := e.diagram.nodes.filter fun n => !d.hasNode n.id

/-- The nodes that drafts take in one after the other, each as it was when it came. -/
def entrances : Draft → List Draft → List Node
  | _, [] => []
  | d, e :: t => d.newNodes e ++ entrances e t

/-- The names that nodes claim while the icons of a root are placed, the first claim first. -/
def claims (root : Block) : Table String String :=
  claimsOf (entrances (initial root) (placeTrail root))

/-- The names that `e` knows are those that `d` knows and then those that nodes taken in on the way
have claimed; of several claims on a name the first one counts. -/
def Records (d : Draft) (t : List Draft) (e : Draft) : Prop :=
  ∀ name, e.aliases.get? name = (d.aliases.get? name).or ((claimsOf (entrances d t)).get? name)

/-! ## Claiming names -/

/-- A name that is claimed belongs to the node unless another one has claimed it. -/
theorem get?_claim (d : Draft) (text id name : String) :
    (d.claim text id).aliases.get? name = (d.aliases.get? name).or
      (Table.get? ((Text.trimmed? text).toList.map (·, id)) name) := by
  unfold claim
  cases htrimmed : Text.trimmed? text with
  | none => exact (Option.or_none).symm
  | some trimmed =>
    have hsingle : Table.get? ((some trimmed).toList.map (·, id)) name =
        if trimmed = name then some id else none := rfl
    dsimp only
    rw [hsingle]
    by_cases hname : trimmed = name
    · subst hname
      rw [if_pos rfl]
      cases hget : d.aliases.get? trimmed with
      | some other =>
        rw [if_pos (by rw [Table.has, hget]; rfl), hget]
        rfl
      | none =>
        rw [if_neg (by rw [Table.has, hget]; exact Bool.false_ne_true)]
        exact (Table.get?_put ..).trans (if_pos rfl)
    · rw [if_neg hname, Option.or_none]
      split
      · rfl
      · exact (Table.get?_put ..).trans (if_neg hname)

/-- Names that are claimed for a node belong to it unless others have claimed them. -/
theorem get?_claimAll (names : List String) (id : String) (d : Draft) (name : String) :
    (d.claimAll names id).aliases.get? name = (d.aliases.get? name).or
      (Table.get? ((names.filterMap Text.trimmed?).map (·, id)) name) := by
  induction names generalizing d with
  | nil => exact (Option.or_none).symm
  | cons text names ih =>
    have hfold : d.claimAll (text :: names) id = (d.claim text id).claimAll names id := rfl
    have hlist : ((text :: names).filterMap Text.trimmed?).map (·, id) =
        (Text.trimmed? text).toList.map (·, id) ++ (names.filterMap Text.trimmed?).map (·, id) := by
      rw [List.filterMap_cons]
      cases Text.trimmed? text <;> rfl
    rw [hfold, ih, get?_claim, Option.or_assoc, hlist, Table.get?_append]

/-- A node is taken in with its names. -/
theorem get?_enter (d : Draft) (node : Node) (p : Placement) (name : String) :
    (d.enter node p).aliases.get? name = (d.aliases.get? name).or
      (Table.get? (((namesOf node).filterMap Text.trimmed?).map (·, node.id)) name) := by
  cases p with
  | back => exact get?_claimAll ..
  | front => exact get?_claimAll ..

/-! ## Drafts on the way -/

section

variable {d e f : Draft} {t u : List Draft}

/-- The claims of some nodes and then of others. -/
theorem claimsOf_append (ns ms : List Node) : claimsOf (ns ++ ms) = claimsOf ns ++ claimsOf ms :=
  List.flatMap_append

/-- The nodes taken in on one way and then on another. -/
theorem entrances_append (h : Passage d t e) (u : List Draft) :
    entrances d (t ++ u) = entrances d t ++ entrances e u := by
  induction h with
  | done d => rfl
  | step _ _ ih => rw [List.cons_append, entrances, entrances, ih, List.append_assoc]

/-- One draft first. -/
theorem Records.step (h : Records d [e] e) (k : Records e u f) : Records d (e :: u) f :=
  fun name => by
    have hone : entrances d [e] = d.newNodes e := List.append_nil _
    rw [k name, h name, hone, entrances, claimsOf_append, Table.get?_append, Option.or_assoc]

/-- One way behind the other. -/
theorem Records.append (h : Records d t e) (k : Records e u f) (hp : Passage d t e) :
    Records d (t ++ u) f := fun name => by
  rw [k name, h name, entrances_append hp, claimsOf_append, Table.get?_append, Option.or_assoc]

/-- Where all ids are in use before, no node is new. -/
theorem newNodes_of_hasNode (h : ∀ n ∈ e.diagram.nodes, d.hasNode n.id) : d.newNodes e = [] :=
  List.filter_eq_nil_iff.mpr fun n hn => by simp [h n hn]

/-- No node is new in a draft with the same ids of nodes. -/
theorem newNodes_of_ids (hd : d.Registry)
    (h : e.diagram.nodes.map Node.id = d.diagram.nodes.map Node.id) : d.newNodes e = [] :=
  newNodes_of_hasNode fun _ hn => hd.hasNode_iff_mem.mpr (h ▸ List.mem_map_of_mem hn)

/-- A node that is taken in is the only new one. -/
theorem newNodes_enter (hd : d.Registry) {node : Node} (free : d.hasNode node.id = false)
    (p : Placement) : d.newNodes (d.enter node p) = [node] := by
  obtain ⟨aliases, -, he⟩ := enter_eq d node p
  have hold : d.diagram.nodes.filter (fun n => !d.hasNode n.id) = [] :=
    List.filter_eq_nil_iff.mpr fun n hn => by simp [hd.hasNode_of_mem hn]
  rw [newNodes, he, Placement.filter_add, hold, free]
  cases p <;> rfl

/-- A draft in which nothing about nodes and names changes. -/
theorem records_of_same (hd : d.Registry)
    (ids : e.diagram.nodes.map Node.id = d.diagram.nodes.map Node.id)
    (aliases : e.aliases = d.aliases) : Records d [e] e := fun name => by
  rw [aliases, entrances, newNodes_of_ids hd ids]
  exact (Option.or_none).symm

/-- A node for which the builder has no name is taken in. -/
theorem records_enter (hd : d.Registry) {node : Node} (free : d.hasNode node.id = false)
    (p : Placement) (unnamed : builderName? node.kind = none) :
    Records d [d.enter node p] (d.enter node p) := fun name => by
  rw [get?_enter, entrances, newNodes_enter hd free, entrances, List.append_nil, claimsOf,
    List.flatMap_singleton, callNames, unnamed]
  rw [Option.toList_none, List.append_nil]

/-- Claiming a name leaves the diagram as it is. -/
theorem diagram_claim (d : Draft) (name id : String) : (d.claim name id).diagram = d.diagram := by
  obtain ⟨aliases, -, he⟩ := claim_eq d name id
  rw [he]

/-- A node that is taken in can claim a further name. -/
theorem enter_claim_passage {node : Node} (free : d.hasNode node.id = false) (p : Placement)
    (name : String) : Passage d [d.enter node p, (d.enter node p).claim name node.id]
      ((d.enter node p).claim name node.id) := by
  have hnode : (d.enter node p).hasNode node.id := by
    obtain ⟨aliases, -, he⟩ := enter_eq d node p
    rw [he, hasNode_iff]
    exact Table.mem_keys_put.mpr (.inl rfl)
  exact .step (.enter node p free) (Step.claim name node.id hnode).passage

/-- A node is taken in and claims the name that the builder has for it. -/
theorem records_enter_claim (hd : d.Registry) {node : Node} (free : d.hasNode node.id = false)
    (p : Placement) {own : String} (named : builderName? node.kind = some own) :
    Records d [d.enter node p, (d.enter node p).claim own node.id]
      ((d.enter node p).claim own node.id) := fun name => by
  have hentered : (d.enter node p).Registry := (Step.enter node p free).registry hd
  have hclaimed : (d.enter node p).newNodes ((d.enter node p).claim own node.id) = [] :=
    newNodes_of_ids hentered (by rw [diagram_claim])
  rw [get?_claim, get?_enter, entrances, newNodes_enter hd free, entrances, hclaimed, entrances,
    List.append_nil, List.append_nil, claimsOf, List.flatMap_singleton, callNames, named,
    List.filterMap_append, List.map_append, Table.get?_append, Option.or_assoc]
  rw [Option.toList_some, List.filterMap_cons]
  cases Text.trimmed? own <;> rfl

/-! ## The icons of a root -/

/-- The builder has no name for an icon that is written or closes a loop. -/
theorem Made.builderName?_eq_none {P : Outline → Prop} {node : Node} (h : Made P d node) :
    builderName? node.kind = none := by
  cases h with
  | @icon o own allowed column =>
    have hreserved : ∀ kind, builderName? kind ≠ none → isReserved kind.name = true := by
      rintro (_ | _ | _ | _ | _ | _ | _ | _ | _ | _ | _) hk <;> first | rfl | exact absurd rfl hk
    by_contra hk
    have := hreserved _ hk
    rw [show (o.block.node (.ofName o.block.name) _ column).kind = .ofName o.block.name from rfl,
      name_ofName, allowed] at this
    exact Bool.noConfusion this
  | @arm o own kind named choice count column => cases kind <;> rfl
  | loopEnd loop column => rfl

/-- Icons are made one after the other, and claim their names. -/
theorem Leads.records {P : Outline → Prop} (h : Leads (Makes P) d t e)
    (hreg : ∀ x ∈ d :: t, x.Registry) : Records d t e := by
  obtain ⟨hchain, hlast⟩ := h
  induction t generalizing d with
  | nil =>
    obtain rfl : d = e := Option.some.inj hlast
    exact fun name => (Option.or_none).symm
  | cons x t ih =>
    obtain ⟨hmake, hchain⟩ := List.isChain_cons_cons.mp hchain
    have hd := hreg d List.mem_cons_self
    have hrest := ih (fun y hy => hreg y (List.mem_cons_of_mem d hy)) hchain hlast
    refine Records.step ?_ hrest
    cases hmake with
    | enter made free => exact records_enter hd free .back made.builderName?_eq_none
    | other same =>
      have hids : ∀ d : Diagram, d.nodes.map Node.id = d.origins.map (·.id) := fun d => by
        rw [Diagram.origins, List.map_map]
        rfl
      exact records_of_same hd (by rw [hids, hids, same.origins]) same.aliases

/-- The names of a root's blocks and lanes are recorded. -/
theorem written_records (root : Block) :
    Records (initial root) (writtenTrail root) (written root) :=
  (written_expands root).leads.records fun _ => registry_of_mem_writtenTrail

/-- None of the icons has a kind. -/
def Lacks (d : Draft) (kind : NodeKind) : Prop := ∀ post ∈ d.diagram.posts, post.kind ≠ kind

/-- The builder has no name for the kind of any icon that is written. -/
theorem written_lacks (root : Block) {kind : NodeKind} (hkind : builderName? kind ≠ none) :
    (written root).Lacks kind := by
  have hinitial : (initial root).Lacks kind := fun _ hm => absurd hm List.not_mem_nil
  have hleads := (written_expands root).leads
  refine hleads.keeps (motive := (Lacks · kind)) (fun x y hm hx => ?_) hinitial _ hleads.last_mem
  cases hm with
  | enter made free =>
    intro post hpost
    rcases mem_posts_enter.mp hpost with rfl | hpost
    · exact fun h => hkind (h ▸ made.builderName?_eq_none)
    · exact hx post hpost
  | other same =>
    unfold Lacks
    rw [Diagram.posts_eq_origins, same.origins, ← Diagram.posts_eq_origins]
    exact hx

/-- A draft after an icon was registered that claims a further name if it is new. -/
def registered (d : Draft) (node : Node) (p : Placement) (name : String) : Draft :=
  if (d.register node p).2 then (d.register node p).1.claim name node.id else (d.register node p).1

/-- An icon is registered with its names and with the one that the builder has for it. -/
theorem register_records (hd : d.Registry) (node : Node) (p : Placement) {own : String}
    (named : builderName? node.kind = some own) :
    Records d [(d.register node p).1, d.registered node p own] (d.registered node p own) := by
  unfold registered
  rcases register_cases d node p with ⟨first, he, -⟩ | ⟨free, he⟩
  · rw [he]
    simp only [Bool.false_eq_true, if_false]
    have hreported := (Step.report (.duplicateNode node.id first) node.block.span).registry hd
    exact .step (records_of_same hd rfl rfl) (records_of_same hreported rfl rfl)
  · rw [he]
    simp only [if_true]
    exact records_enter_claim hd free p named

/-- An icon that is registered keeps out the kinds other than its own. -/
theorem lacks_registered {kind : NodeKind} (h : d.Lacks kind) (node : Node) (p : Placement)
    (hnode : node.kind ≠ kind) (name : String) : (d.registered node p name).Lacks kind := by
  unfold registered
  rcases register_cases d node p with ⟨first, he, -⟩ | ⟨free, he⟩
  · rw [he]
    simp only [Bool.false_eq_true, if_false]
    exact h
  · rw [he]
    simp only [if_true]
    intro post hpost
    rw [diagram_claim] at hpost
    rcases mem_posts_enter.mp hpost with rfl | hpost
    · exact hnode
    · exact h post hpost

/-- Where there is no icon of its kind, the start icon is added with its names. -/
theorem addStart_records (hd : d.Registry) (hnone : d.Lacks .start) :
    Records d d.startTrail d.addStart ∧ (d.Lacks .finish → d.addStart.Lacks .finish) := by
  have hrecords := register_records hd d.startNode .front
    (show builderName? d.startNode.kind = some "start" from rfl)
  have hlacks := fun h : d.Lacks .finish =>
    lacks_registered h d.startNode .front NodeKind.noConfusion "start"
  unfold registered at hrecords hlacks
  unfold startTrail addStart
  rw [ofKind_eq_nil hnone]
  dsimp only [List.head?_nil]
  rcases register_cases d d.startNode .front with ⟨first, he, -⟩ | ⟨free, he⟩
  · rw [he]
    simp only [Bool.false_eq_true, if_false]
    exact ⟨records_of_same hd rfl rfl, id⟩
  · have hp := enter_claim_passage free .front "start"
    rw [he] at hrecords hlacks ⊢
    simp only [if_true] at hrecords hlacks ⊢
    generalize d.enter d.startNode .front = entered at hp hrecords hlacks ⊢
    generalize d.startNode.id = id at hp hrecords hlacks ⊢
    unfold setStartTrail setStart
    exact ⟨hrecords.append (records_of_same (hp.registry hd) rfl rfl) hp, hlacks⟩

/-- The parameters icon of a value is added with its names. -/
theorem enterParameters_records (hd : d.Registry) (value : Value) (start : String) :
    Records d (d.enterParametersTrail value start) (d.enterParameters value start).1 ∧
      (d.Lacks .finish → (d.enterParameters value start).1.Lacks .finish) := by
  have hopened : d.openColumn.2.Registry := (Step.useColumn _).registry hd
  have hopen : Records d [d.openColumn.2] d.openColumn.2 := records_of_same hd rfl rfl
  have hlacks : d.Lacks .finish → d.openColumn.2.Lacks .finish := id
  unfold enterParametersTrail enterParameters
  generalize d.openColumn = o at hopened hopen hlacks
  obtain ⟨column, opened⟩ := o
  dsimp only at hopened hopen hlacks ⊢
  cases hnode : Parameters.node? value opened.anchorBase column with
  | none => exact ⟨hopen, hlacks⟩
  | some node =>
    -- The icon is one of those that nobody writes, and it is not the end.
    obtain ⟨hkind, -, -⟩ := parameters_node hnode
    have hown : builderName? node.kind = some "parameters" := by
      rw [hkind]
      rfl
    have hother : node.kind ≠ .finish := by
      rw [hkind]
      exact NodeKind.noConfusion
    have hrecords := register_records hopened node .back hown
    have hfinish := fun h => lacks_registered (hlacks h) node .back hother "parameters"
    unfold registered at hrecords hfinish
    dsimp only
    cases hnew : (opened.register node .back).2 with
    | true =>
      simp only [hnew, if_true] at hrecords hfinish ⊢
      exact ⟨hopen.step hrecords, hfinish⟩
    | false =>
      simp only [hnew, Bool.false_eq_true, if_false] at hrecords hfinish ⊢
      exact ⟨hopen.step hrecords, hfinish⟩

/-- The parameters icon that a root asks for is added with its names. -/
theorem placeParameters_records (hd : d.Registry) (root : Block) :
    Records d (d.rootParametersTrail root) (d.placeParameters root).1 ∧
      (d.Lacks .finish → (d.placeParameters root).1.Lacks .finish) := by
  have hstay : Records d [] d ∧ (d.Lacks .finish → d.Lacks .finish) :=
    ⟨fun _ => Option.or_none.symm, id⟩
  unfold rootParametersTrail placeParameters
  cases root.attributes.get? "parameters" with
  | none => exact hstay
  | some value =>
    dsimp only
    unfold parametersTrail addParameters
    cases d.start with
    | none => cases value <;> exact hstay
    | some start =>
      cases value with
      | null => exact hstay
      | _ => exact enterParameters_records hd _ start

/-- Where there is no icon of its kind, the end icon is added with its names. -/
theorem addEnd_records (hd : d.Registry) (hnone : d.Lacks .finish) :
    Records d d.endTrail d.addEnd := by
  have hrecords := register_records hd d.endNode .back
    (show builderName? d.endNode.kind = some "end" from rfl)
  unfold registered at hrecords
  unfold endTrail addEnd
  rw [ofKind_eq_nil hnone]
  exact hrecords

end

/-- **Names belong to the first node that claims them:** a draft with all icons of a root knows the
names that its nodes have claimed, each with the first node that has claimed it. -/
theorem placed_claims (root : Block) (name : String) :
    (placeRoot root).1.aliases.get? name = (claims root).get? name := by
  have hclosed := closed_initial root
  have hwritten := (written_expands root).passage hclosed.registry
  have hstart := hwritten.append (addStart_passage (hwritten.registry hclosed.registry))
  have hparameters := hstart.append
    (placeParameters_passage (hstart.closed_last hclosed) root).1
  obtain ⟨started, hfinish⟩ := addStart_records (hwritten.registry hclosed.registry)
    (written_lacks root (show builderName? .start ≠ none from nofun))
  obtain ⟨added, hfinish'⟩ := placeParameters_records (hstart.registry hclosed.registry) root
  have ended := addEnd_records (hparameters.registry hclosed.registry)
    (hfinish' (hfinish (written_lacks root nofun)))
  have hall := (((written_records root).append started hwritten).append added hstart).append ended
    hparameters
  exact (hall name).trans (Option.none_or ..)

end Draft

end Flowchart
