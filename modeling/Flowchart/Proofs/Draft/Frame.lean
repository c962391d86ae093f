import Flowchart.Proofs.Draft.Implicit
import Flowchart.Proofs.Draft.MadeIds
import Mathlib.Data.List.DropRight
import Mathlib.Data.List.TakeWhile

/-!
# The icons around the written ones

Of the icons that nobody wrote, the start icon stands in front of the written ones, the parameters
and the end icon stand behind them (`placeRoot_framed`). Unless a label or an anchor is the name
`end`, a node of this name is one of those behind, and so is the node where the flow goes on by
default (`Framed.defaultTarget`).

That is because nothing that is made up trims to this name: an id without a label holds an
underscore, the id of the start icon an `@`, and trimming leaves both alone.
-/

namespace Flowchart

namespace Text

/-- Dropping blank characters leaves the others. -/
theorem mem_dropWhile {cs : List Char} {c : Char} (hc : c ∈ cs) (hb : isBlank c = false) :
    c ∈ cs.dropWhile isBlank := by
  rw [← List.takeWhile_append_dropWhile (p := isBlank) (l := cs), List.mem_append] at hc
  refine hc.resolve_left fun hblank => ?_
  rw [List.mem_takeWhile_imp hblank] at hb
  exact Bool.noConfusion hb

/-- What is left of a text is its characters between the blank ends. -/
theorem trimmed?_eq_some {s t : String} (h : trimmed? s = some t) :
    t.toList = trimChars s.toList := by
  unfold trimmed? trim at h
  dsimp only at h
  split at h
  · exact nomatch h
  · rw [← Option.some.inj h, String.toList_ofList]

/-- Trimming leaves the characters that are not blank. -/
theorem mem_of_trimmed? {s t : String} (h : trimmed? s = some t) {c : Char} (hc : c ∈ s.toList)
    (hb : isBlank c = false) : c ∈ t.toList := by
  rw [trimmed?_eq_some h, trimChars, trimRight, List.mem_reverse]
  exact mem_dropWhile (List.mem_reverse.mpr (mem_dropWhile hc hb)) hb

/-- There is nothing to trim of a text that has been trimmed. -/
theorem trimChars_trimChars (cs : List Char) : trimChars (trimChars cs) = trimChars cs := by
  have hright : ∀ cs : List Char, trimRight cs = cs.rdropWhile isBlank := fun _ => rfl
  -- The first character of what is left is the first one that is not blank.
  have hleft : trimLeft (trimRight (trimLeft cs)) = trimRight (trimLeft cs) := by
    refine List.dropWhile_eq_self_iff.mpr fun hl => ?_
    have hstarts : trimRight (trimLeft cs) <+: trimLeft cs := List.rdropWhile_prefix isBlank _
    rw [hstarts.getElem hl]
    exact List.dropWhile_get_zero_not isBlank cs (hl.trans_le hstarts.length_le)
  rw [trimChars, trimChars, hleft, hright, hright, List.rdropWhile_idempotent]

/-- A text that has been trimmed is what is left of it. -/
theorem trimmed?_of_trimmed? {s t : String} (h : trimmed? s = some t) : trimmed? t = some t := by
  have hchars := trimmed?_eq_some h
  have htrim : trim t = t := by
    rw [trim, hchars, trimChars_trimChars, ← hchars, String.ofList_toList]
  unfold trimmed? at h ⊢
  dsimp only at h ⊢
  split at h
  · exact nomatch h
  · rename_i hne
    rw [htrim, if_neg]
    rwa [← Option.some.inj h]

end Text

/-- Neither a label of a block nor its anchor is the name `end`. -/
structure Block.SparesEnd (b : Block) : Prop where
  /-- No label is the name. -/
  labels : ∀ label ∈ b.labels, Text.trimmed? label ≠ some "end"
  /-- The anchor is not the name. -/
  anchor : b.attributes.trimmed? "anchor" ≠ some "end"

/-- Whether a block spares the name can be read off its label and anchor. -/
instance (b : Block) : Decidable b.SparesEnd :=
  decidable_of_iff ((∀ label ∈ b.labels, Text.trimmed? label ≠ some "end") ∧
    b.attributes.trimmed? "anchor" ≠ some "end") ⟨fun h => ⟨h.1, h.2⟩, fun h => ⟨h.1, h.2⟩⟩

namespace Draft

/-! ## What is written -/

/-- A text that holds another character than those of `end` is not this name. -/
theorem trimmed?_ne_end {s : String} {c : Char} (hc : c ∈ s.toList)
    (hb : Text.isBlank c = false) (hother : c ∉ "end".toList) : Text.trimmed? s ≠ some "end" :=
  fun h => hother (Text.mem_of_trimmed? h hc hb)

/-- The name `start` is not the name `end`. -/
theorem trimmed?_start_ne_end : Text.trimmed? "start" ≠ some "end" :=
  trimmed?_ne_end (c := 's') (by decide) (by decide) (by decide)

/-- An id with an underscore is not the name `end`. -/
theorem trimmed?_ne_end_of_underscore {s : String} (hs : '_' ∈ s.toList) :
    Text.trimmed? s ≠ some "end" :=
  trimmed?_ne_end hs (by decide) (by decide)

/-- A label that a block spares, or else a text with an underscore, is not the name `end`. -/
theorem trimmed?_label_ne_end {b : Block} (h : b.SparesEnd) {otherwise : String}
    (ho : '_' ∈ otherwise.toList) : Text.trimmed? (b.label?.getD otherwise) ≠ some "end" := by
  cases hlabel : b.label? with
  | none => exact trimmed?_ne_end_of_underscore ho
  | some label => exact h.labels label (List.mem_of_head? hlabel)

/-- The id for the icon that closes a loop holds an underscore. -/
theorem underscore_mem_loopEndId (d : Draft) (loop : String) :
    '_' ∈ (d.loopEndId loop).toList := by
  have hfree : ∀ (stem : String) (tries n : Nat), '_' ∈ (d.freeId stem n tries).toList := by
    intro stem tries
    induction tries with
    | zero => intro n; simp [freeId]
    | succ tries ih =>
      intro n
      rw [freeId]
      split
      · exact ih (n + 1)
      · simp
  unfold loopEndId
  dsimp only
  split
  · exact hfree _ _ _
  · simp

/-- The names of a node are its id, its labels and its anchor. -/
theorem trimmed?_namesOf_ne_end {node : Node} (id : Text.trimmed? node.id ≠ some "end")
    (labels : ∀ label ∈ node.block.labels, Text.trimmed? label ≠ some "end")
    (anchor : node.attributes.trimmed? "anchor" ≠ some "end") :
    ∀ name ∈ namesOf node, Text.trimmed? name ≠ some "end" := by
  intro name hname
  rw [namesOf, List.cons_append, List.mem_cons, List.mem_append, Option.mem_toList] at hname
  rcases hname with rfl | hname | hname
  · exact id
  · exact labels name hname
  · -- An anchor has been trimmed already.
    obtain ⟨value, -, hvalue⟩ := Option.bind_eq_some_iff.mp hname
    obtain ⟨text, -, htext⟩ := Option.bind_eq_some_iff.mp hvalue
    rw [Text.trimmed?_of_trimmed? htext]
    rintro ⟨rfl⟩
    exact anchor hname

/-- An icon that is made of a block that spares the name `end`, or closes a loop, spares it. -/
theorem Made.sparesEnd {P : Outline → Prop} {d : Draft} {node : Node} (h : Made P d node)
    (hP : ∀ o, P o → o.block.SparesEnd) :
    ∀ name ∈ namesOf node, Text.trimmed? name ≠ some "end" := by
  cases h with
  | @icon o own allowed column =>
    refine trimmed?_namesOf_ne_end ?_ (hP o own).labels (hP o own).anchor
    exact trimmed?_label_ne_end (hP o own) (by simp)
  | @arm o own kind named choice count column =>
    refine trimmed?_namesOf_ne_end ?_ (hP o own).labels (hP o own).anchor
    exact trimmed?_label_ne_end (hP o own) (by simp)
  | loopEnd loop column =>
    have hid := trimmed?_ne_end_of_underscore (underscore_mem_loopEndId d loop)
    refine trimmed?_namesOf_ne_end hid (fun label hlabel => ?_) ?_
    · rw [List.mem_singleton.mp hlabel]
      exact hid
    · intro hanchor
      exact nomatch hanchor

/-- The name of the kind with a given name. -/
theorem name_ofName (name : String) : (NodeKind.ofName name).name = name := by
  unfold NodeKind.ofName
  split <;> rfl

/-- An icon that is made is neither a start nor an end icon. -/
theorem Made.kind_name {P : Outline → Prop} {d : Draft} {node : Node} (h : Made P d node) :
    node.kind.name ≠ "start" ∧ node.kind.name ≠ "end" := by
  cases h with
  | @icon o own allowed column =>
    have hname : ∀ name, isReserved name = true →
        (NodeKind.ofName o.block.name).name ≠ name := by
      rintro name hreserved rfl
      rw [name_ofName, allowed] at hreserved
      exact Bool.noConfusion hreserved
    exact ⟨hname "start" (by decide), hname "end" (by decide)⟩
  | @arm o own kind named choice count column =>
    have hkind : ∀ kind : ArmKind, kind.nodeKind.name ≠ "start" ∧ kind.nodeKind.name ≠ "end" := by
      rintro (_ | _) <;> decide
    exact hkind kind
  | loopEnd loop column =>
    have hkind : NodeKind.loopEnd.name ≠ "start" ∧ NodeKind.loopEnd.name ≠ "end" := by decide
    exact hkind

/-- There is neither a start nor an end icon. -/
def Bare (d : Draft) : Prop :=
  ∀ post ∈ d.diagram.posts, post.kind.name ≠ "start" ∧ post.kind.name ≠ "end"

/-- Making icons of outlines leaves a draft bare. -/
theorem Makes.bare {P : Outline → Prop} {d e : Draft} (h : Makes P d e) (hd : d.Bare) :
    e.Bare := by
  intro post hpost
  cases h with
  | @enter node made free =>
    rcases mem_posts_enter.mp hpost with rfl | hpost
    · exact made.kind_name
    · exact hd post hpost
  | other same =>
    rw [Diagram.posts_eq_origins, same.origins, ← Diagram.posts_eq_origins] at hpost
    exact hd post hpost

/-- There is neither a start nor an end icon, and no node is called `end`. -/
structure Endless (d : Draft) : Prop where
  /-- No node has claimed the name. -/
  unnamed : "end" ∉ d.aliases.keys
  /-- No node is a start or an end. -/
  kinds : ∀ post ∈ d.diagram.posts, post.kind.name ≠ "start" ∧ post.kind.name ≠ "end"

/-- Entering a node that spares the name leaves it unclaimed. -/
theorem unnamed_enter {d : Draft} (h : "end" ∉ d.aliases.keys) {node : Node} (p : Placement)
    (spares : ∀ name ∈ namesOf node, Text.trimmed? name ≠ some "end") :
    "end" ∉ (d.enter node p).aliases.keys := by
  obtain ⟨a, ha, he⟩ := enter_eq d node p
  rw [he]
  intro hm
  rcases ha.given "end" hm with hm | ⟨name, hname, htrimmed⟩
  · exact h hm
  · exact spares name hname htrimmed

/-- Making icons of blocks that spare the name `end`. -/
theorem Makes.endless {P : Outline → Prop} {d e : Draft} (h : Makes P d e)
    (hP : ∀ o, P o → o.block.SparesEnd) (hd : d.Endless) : e.Endless := by
  refine ⟨?_, h.bare hd.kinds⟩
  cases h with
  | @enter node made free => exact unnamed_enter hd.unnamed .back (made.sparesEnd hP)
  | other same => exact same.aliases ▸ hd.unnamed

/-- Blocks that spare the name `end` leave it unclaimed. -/
theorem written_endless {root : Block}
    (h : ∀ o ∈ Outline.allOf root.outline.children, o.block.SparesEnd) :
    (written root).Endless := by
  have hinitial : (initial root).Endless :=
    ⟨List.not_mem_nil, fun _ hm => absurd hm List.not_mem_nil⟩
  have hleads := (written_expands root).leads
  exact hleads.keeps (motive := Endless) (fun _ _ hm => hm.endless h) hinitial _ hleads.last_mem

/-! ## What is added -/

/-- Icons stand in front of those of a draft and behind them. Those in front are start icons in the
primary column, and a node that is called `end` is one of those behind. -/
structure Framed (d e : Draft) (front back : List Post) : Prop where
  /-- New nodes stand before those that were there or behind them. -/
  posts : e.diagram.posts = front ++ d.diagram.posts ++ back
  /-- The nodes before them are starts in the primary column. -/
  front : ∀ post ∈ front, post.kind = .start ∧ post.column = primaryColumn
  /-- A node that has claimed the name stands behind them. -/
  named : ∀ id, e.aliases.get? "end" = some id → id ∈ back.map Post.id

/-- A name that leads to a node has been claimed for it, or led to it before. -/
theorem ClaimedFor.get?_eq_some {names : List String} {id : String}
    {before after : Table String String} (h : ClaimedFor names id before after)
    {name other : String}
    (hn : after.get? name = some other) : before.get? name = some other ∨ other = id := by
  cases hb : before.get? name with
  | some old => exact .inl ((h.kept name old hb).symm.trans hn)
  | none =>
    refine .inr ((h.new name other (Table.mem_of_get? hn)).resolve_left fun hm => ?_)
    exact Table.get?_eq_none_iff.mp hb (List.mem_map_of_mem hm)

section

variable {d e f : Draft} {front back : List Post}

/-- A draft with the same nodes and names. -/
theorem Framed.of_same (h : Framed d e front back) (posts : f.diagram.posts = e.diagram.posts)
    (aliases : f.aliases = e.aliases) : Framed d f front back :=
  ⟨posts.trans h.posts, h.front, aliases ▸ h.named⟩

/-- A node is entered behind the others. -/
theorem Framed.enter (h : Framed d e front back) (node : Node) :
    Framed d (e.enter node .back) front (back ++ [node.post]) := by
  refine ⟨?_, h.front, fun id hid => ?_⟩
  · rw [posts_enter, h.posts, List.append_assoc]
  · obtain ⟨a, ha, he⟩ := enter_eq e node .back
    rw [he] at hid
    rw [List.map_append, List.mem_append]
    rcases ha.get?_eq_some hid with hid | rfl
    · exact .inl (h.named id hid)
    · exact .inr List.mem_cons_self

/-- A name is claimed for a node that stands behind. -/
theorem Framed.claim (h : Framed d e front back) (name : String) {id : String}
    (hid : id ∈ back.map Post.id) : Framed d (e.claim name id) front back := by
  obtain ⟨a, ha, he⟩ := claim_eq e name id
  rw [he]
  refine ⟨h.posts, h.front, fun other hother => ?_⟩
  rcases ha.get?_eq_some hother with hother | rfl
  · exact h.named other hother
  · exact hid

end

/-- The start icon is not called `end`. -/
theorem startNode_sparesEnd (d : Draft) :
    ∀ name ∈ namesOf d.startNode, Text.trimmed? name ≠ some "end" := by
  have hid : Text.trimmed? d.startNode.id ≠ some "end" :=
    trimmed?_ne_end (c := '@') (by simp [startNode]) (by decide) (by decide)
  have hanchor : d.startNode.attributes.get? "anchor" = some (.text d.startNode.id) := rfl
  refine trimmed?_namesOf_ne_end hid (fun label hlabel => ?_) ?_
  · rw [List.mem_singleton.mp hlabel]
    exact trimmed?_start_ne_end
  · rw [Attributes.trimmed?, hanchor, Option.bind_some, Value.trimmed?, Value.text?,
      Option.bind_some]
    exact hid

/-- No icon is of a kind if none has a kind of this name. -/
theorem ofKind_eq_nil {d : Draft} {kind : NodeKind}
    (h : ∀ post ∈ d.diagram.posts, post.kind ≠ kind) : d.diagram.ofKind kind = [] := by
  refine List.filter_eq_nil_iff.mpr fun n hn => ?_
  rw [decide_eq_true_eq]
  exact h n.post (List.mem_map_of_mem hn)

/-- Adding the start icon. -/
theorem addStart_framed {d : Draft} (hd : d.Planned) (h : d.Endless) :
    ∃ front, Framed d d.addStart front [] ∧ ∀ id ∈ d.addStart.start, id ∈ front.map Post.id := by
  have hnone : d.diagram.ofKind .start = [] := ofKind_eq_nil fun post hpost hkind =>
    (h.kinds post hpost).1 (congrArg NodeKind.name hkind)
  have hunnamed : ∀ {e : Draft}, "end" ∉ e.aliases.keys → ∀ id, e.aliases.get? "end" = some id →
      id ∈ ([] : List Post).map Post.id := fun hnot id hid =>
    absurd (Table.mem_keys_of_get? hid) hnot
  unfold addStart
  rw [hnone]
  dsimp only [List.head?_nil]
  rcases register_cases d d.startNode .front with ⟨first, he, -⟩ | ⟨free, he⟩
  · -- No icon of the kind is there, so there is no start.
    rw [he]
    refine ⟨[], ⟨(List.append_nil _).symm, fun _ hm => absurd hm List.not_mem_nil,
      hunnamed h.unnamed⟩, fun id hid => ?_⟩
    obtain ⟨post, hpost, -, hkind⟩ := hd.start id hid
    exact absurd (congrArg NodeKind.name hkind) (h.kinds post hpost).1
  · rw [he]
    simp only [if_true]
    -- Neither the start icon nor its anchor takes the name of the end.
    have hentered := unnamed_enter h.unnamed .front (startNode_sparesEnd d)
    have hposts : (d.enter d.startNode .front).diagram.posts =
        d.startNode.post :: d.diagram.posts := by
      rw [Diagram.posts_eq_origins, origins_enter, Diagram.posts_eq_origins]
      rfl
    generalize d.enter d.startNode .front = entered at hentered hposts ⊢
    obtain ⟨a, ha, hclaim⟩ := claim_eq entered "start" d.startNode.id
    unfold setStart
    rw [hclaim]
    refine ⟨[d.startNode.post], ⟨?_, fun post hpost => ?_, hunnamed fun hm => ?_⟩, fun id hid => ?_⟩
    · rw [List.append_nil]
      exact hposts
    · rw [List.mem_singleton.mp hpost]
      exact ⟨rfl, rfl⟩
    · rcases ha.given "end" hm with hm | ⟨name, hname, htrimmed⟩
      · exact hentered hm
      · rw [List.mem_singleton.mp hname] at htrimmed
        exact trimmed?_start_ne_end htrimmed
    · rw [← Option.mem_some_iff.mp hid]
      exact List.mem_singleton_self _

/-- Adding the parameters icon. -/
theorem AddsParameters.framed {base d e : Draft} {edge : Option Edge}
    (adds : d.AddsParameters (e, edge)) {front : List Post} (h : Framed base d front [])
    (start : ∀ id ∈ d.start, id ∈ front.map Post.id) :
    ∃ back, Framed base e front back ∧ (∀ post ∈ back, post.kind = .parameters) ∧
      ∀ x ∈ edge, x.leaves ∈ front.map Post.id ∧ x.enters ∈ back.map Post.id := by
  cases adds with
  | nothing diagram aliases =>
    exact ⟨[], h.of_same (congrArg Diagram.posts diagram) aliases,
      fun _ hm => absurd hm List.not_mem_nil, fun _ hx => nomatch hx⟩
  | @icon id started node free kind column block =>
    have hopened : Framed base (d.useColumn d.nextColumn) front [] := h.of_same rfl rfl
    have hback : node.id ∈ [node.post].map Post.id := List.mem_singleton_self _
    refine ⟨[node.post], (hopened.enter node).claim "parameters" hback, fun post hpost => ?_,
      fun x hx => ?_⟩
    · rw [List.mem_singleton.mp hpost]
      exact kind
    · rw [← Option.mem_some_iff.mp hx]
      exact ⟨start id started, hback⟩

/-- Adding the end icon. -/
theorem Framed.addEnd {base d : Draft} {front back : List Post} (h : Framed base d front back)
    (hbase : base.Endless) (hback : ∀ post ∈ back, post.kind = .parameters) :
    ∃ more, Framed base d.addEnd front (back ++ more) := by
  have hnone : d.diagram.ofKind .finish = [] := ofKind_eq_nil fun post hpost hkind => by
    rw [h.posts, List.mem_append, List.mem_append] at hpost
    rcases hpost with (hpost | hpost) | hpost
    · exact absurd (hkind.symm.trans (h.front post hpost).1) (by decide)
    · exact (hbase.kinds post hpost).2 (congrArg NodeKind.name hkind)
    · exact absurd (hkind.symm.trans (hback post hpost)) (by decide)
  unfold Draft.addEnd
  rw [hnone]
  dsimp only [List.map_nil]
  generalize d.endNode = node
  rcases register_cases d node .back with ⟨first, he, -⟩ | ⟨free, he⟩
  · rw [he]
    simp only [Bool.false_eq_true, if_false]
    refine ⟨[], ?_⟩
    rw [List.append_nil]
    exact h.of_same rfl rfl
  · rw [he]
    simp only [if_true]
    refine ⟨[node.post], (h.enter node).claim "end" ?_⟩
    rw [List.map_append]
    exact List.mem_append_right _ (List.mem_singleton_self _)

/-- The written icons stand between those that nobody wrote, and the edge to the parameters leads
from the ones in front to those behind. -/
theorem placeRoot_framed {root : Block} (h : (written root).Endless) :
    ∃ front back, Framed (written root) (placeRoot root).1 front back ∧
      ∀ edge ∈ (placeRoot root).2, edge.leaves ∈ front.map Post.id ∧
        edge.enters ∈ back.map Post.id := by
  obtain ⟨front, hstarted, hstart⟩ := addStart_framed (written_planned root) h
  have hadds := placeParameters_adds (written root).addStart root
  unfold placeRoot
  change ∃ front back, Framed (written root)
    ((written root).addStart.placeParameters root).1.addEnd front back ∧
      ∀ edge ∈ ((written root).addStart.placeParameters root).2, edge.leaves ∈ front.map Post.id ∧
        edge.enters ∈ back.map Post.id
  generalize (written root).addStart.placeParameters root = r at hadds ⊢
  obtain ⟨e, edge⟩ := r
  obtain ⟨back, hframed, hkinds, hedge⟩ := hadds.framed hstarted hstart
  obtain ⟨more, hended⟩ := hframed.addEnd h hkinds
  refine ⟨front, back ++ more, hended, fun x hx => ⟨(hedge x hx).1, ?_⟩⟩
  rw [List.map_append]
  exact List.mem_append_left _ (hedge x hx).2

/-- The flow goes on behind the written icons by default. -/
theorem Framed.defaultTarget {d e : Draft} {front back : List Post} (h : Framed d e front back)
    (hd : d.Endless) {target : Reference} (ht : e.defaultTarget = some target) :
    target.node ∈ back.map Post.id := by
  obtain ⟨id, hid, rfl⟩ := Option.map_eq_some_iff.mp ht
  rcases Option.or_eq_some_iff.mp hid with hid | ⟨-, hid⟩
  · exact h.named id hid
  · -- The first end icon is none of the others.
    obtain ⟨n, hn, rfl⟩ := Option.map_eq_some_iff.mp hid
    have hkind := List.find?_some hn
    rw [decide_eq_true_eq] at hkind
    have hpost : n.post ∈ e.diagram.posts := List.mem_map_of_mem (List.mem_of_find?_eq_some hn)
    rw [h.posts, List.mem_append, List.mem_append] at hpost
    rcases hpost with (hpost | hpost) | hpost
    · have hstart : n.kind = .start := (h.front _ hpost).1
      rw [hstart] at hkind
      exact absurd hkind (by decide)
    · exact absurd hkind (hd.kinds _ hpost).2
    · exact List.mem_map_of_mem hpost

end Draft

end Flowchart
