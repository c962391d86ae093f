import Flowchart.Proofs.Draft.Claims

/-!
# What a reference stands for

Once the icons of a root are placed, a reference stands for the node that claimed it first; when no
node claimed it, what stands in front of its first `@` is the name, and what stands behind it is an
anchor (`Denotes`). From then on looking references up finds just that and changes nothing but the
problems, in whatever order lines, attachments, notes and targets are treated
(`resolvesFirst_settled`).

A name can hold an `@` itself, for the library makes such ids. An anchor behind such a name is not
read as one: exactly the names without an `@` take an anchor (`resolve_suffixed_iff`).
-/

namespace Flowchart

namespace Text

/-! ## Cutting and trimming -/

/-- A text is cut at a mark that does not stand before. -/
theorem splitOnce_append {mark : Char} {front : List Char} (h : mark ∉ front) (back : List Char) :
    splitOnce mark (front ++ mark :: back) = some (front, back) := by
  have hall : ∀ c ∈ front, (c != mark) = true := fun c hc => bne_iff_ne.mpr fun heq => h (heq ▸ hc)
  unfold splitOnce
  rw [List.dropWhile_append_of_pos hall, List.takeWhile_append_of_pos hall,
    List.dropWhile_cons_of_neg (by simp), List.takeWhile_cons_of_neg (by simp), List.append_nil]

/-- A text without the mark is not cut. -/
theorem splitOnce_eq_none {mark : Char} {cs : List Char} (h : mark ∉ cs) :
    splitOnce mark cs = none := by
  have hall : ∀ c ∈ cs, (c != mark) = true := fun c hc => bne_iff_ne.mpr fun heq => h (heq ▸ hc)
  unfold splitOnce
  rw [List.dropWhile_eq_nil_iff.mpr hall]

/-- A text that is not blank at either end has nothing to trim. -/
theorem trimChars_eq_self {cs : List Char} (first : ∀ c ∈ cs.head?, isBlank c = false)
    (last : ∀ c ∈ cs.getLast?, isBlank c = false) : trimChars cs = cs := by
  have hkeep : ∀ cs : List Char, (∀ c ∈ cs.head?, isBlank c = false) →
      cs.dropWhile isBlank = cs := by
    rintro (_ | ⟨c, cs⟩) h
    · rfl
    · exact List.dropWhile_cons_of_neg (by simp [h c rfl])
  rw [trimChars, trimLeft, hkeep cs first, trimRight, hkeep cs.reverse, List.reverse_reverse]
  rwa [List.head?_reverse]

/-- What is left of a blank text is empty. -/
theorem trim_eq_getD (s : String) : trim s = (trimmed? s).getD "" := by
  unfold trimmed?
  dsimp only
  split
  · rename_i hempty
    exact String.isEmpty_iff.mp hempty
  · rfl

/-- What is left of a text is not blank at either end. -/
theorem ends_of_trimmed? {s t : String} (h : trimmed? s = some t) :
    ∃ first last, t.toList.head? = some first ∧ isBlank first = false ∧
      t.toList.getLast? = some last ∧ isBlank last = false := by
  have hne : t.toList ≠ [] := fun hnil => by
    unfold trimmed? at h
    dsimp only at h
    split at h
    · exact nomatch h
    · rename_i hempty
      rw [Option.some.inj h, String.toList_eq_nil_iff.mp hnil] at hempty
      exact hempty rfl
  have hfirst : ∀ (cs : List Char) c, (cs.dropWhile isBlank).head? = some c →
      isBlank c = false := by
    intro cs c hc
    have hnot := List.head?_dropWhile_not isBlank cs
    rwa [hc] at hnot
  obtain ⟨first, hhead⟩ := Option.ne_none_iff_exists'.mp (mt List.head?_eq_none_iff.mp hne)
  obtain ⟨last, hlast⟩ := Option.ne_none_iff_exists'.mp (mt List.getLast?_eq_none_iff.mp hne)
  refine ⟨first, last, hhead, hfirst s.toList first ?_, hlast,
    hfirst (trimLeft s.toList).reverse last ?_⟩
  · -- Trimming the back leaves the first character where it is.
    obtain ⟨rest, hrest⟩ : trimRight (trimLeft s.toList) <+: trimLeft s.toList :=
      List.rdropWhile_prefix isBlank _
    rw [trimmed?_eq_some h, trimChars] at hhead
    change (trimLeft s.toList).head? = some first
    rw [← hrest, List.head?_append, hhead]
    rfl
  · rwa [trimmed?_eq_some h, trimChars, trimRight, List.getLast?_reverse] at hlast

/-- Two texts that have been trimmed, with a mark between them, have nothing to trim. -/
theorem trimmed?_suffixed {r s : String} (hr : trimmed? r = some r) (hs : trimmed? s = some s) :
    trimmed? (r ++ "@" ++ s) = some (r ++ "@" ++ s) := by
  obtain ⟨first, -, hfirst, hf, -, -⟩ := ends_of_trimmed? hr
  obtain ⟨-, last, -, -, hlast, hl⟩ := ends_of_trimmed? hs
  have hchars : (r ++ "@" ++ s).toList = r.toList ++ '@' :: s.toList := by simp
  have htrim : trim (r ++ "@" ++ s) = r ++ "@" ++ s := by
    rw [trim, trimChars_eq_self (fun c hc => ?_) fun c hc => ?_, String.ofList_toList]
    · rw [hchars, List.head?_append, hfirst] at hc
      exact Option.some.inj hc ▸ hf
    · rw [hchars, List.getLast?_append, List.getLast?_cons, hlast] at hc
      exact Option.some.inj hc ▸ hl
  unfold trimmed?
  dsimp only
  rw [htrim, if_neg]
  simp [String.isEmpty_iff]

end Text

namespace Draft

/-! ## What a reference stands for -/

/-- The node that the text in front of an anchor means: the one that claimed the text without its
blank ends first, or for a blank text the one without an id; `first` gives the nodes that claimed
names first, `ids` the ids of all nodes. -/
inductive Means (first : String → Option String) (ids : List String) (head : String) :
    String → Prop
  /-- The head is a name that a node has claimed. -/
  | claimed {name id : String} (trimmed : Text.trimmed? head = some name)
      (claim : first name = some id) : Means first ids head id
  /-- The head is blank, and a node has the empty id. -/
  | blank (trimmed : Text.trimmed? head = none) (known : "" ∈ ids) : Means first ids head ""

/-- What a reference stands for: the node that claimed it first; if no node claimed it, the node
that the text in front of its first `@` means, with what stands behind it as the anchor. -/
inductive Denotes (first : String → Option String) (ids : List String) (name : String) :
    Reference → Prop
  /-- The whole name is claimed by a node. -/
  | whole {id : String} (claim : first name = some id) : Denotes first ids name (.toNode id)
  /-- The whole name is not claimed, and what stands before the first sign leads to a node. -/
  | anchored {head anchor id : String} (unclaimed : first name = none)
      (split : name = head ++ "@" ++ anchor) (front : '@' ∉ head.toList)
      (means : Means first ids head id) : Denotes first ids name ⟨id ++ "@" ++ anchor, id⟩

/-- The name that is reported when a reference stands for nothing: the reference, or what stands in
front of its first `@`. -/
def missing (name : String) : String :=
  match Text.splitOnce '@' name.toList with
  | none => name
  | some (head, _) => Text.trim (String.ofList head)

/-- A draft finds for a reference what it stands for, and does not change. When that is nothing, or
the reference is blank or no text, it gets one problem. -/
structure ResolvesFirst (first : String → Option String) (ids : List String) (d : Draft) :
    Prop where
  /-- A name that denotes a node leads to it. -/
  found : ∀ {value : Option Value} {name : String} {reference : Reference},
    value.bind Value.trimmed? = some name → Denotes first ids name reference →
      ∀ referrer span, d.resolve value referrer span = (d, some reference)
  /-- A name that denotes none is reported as unknown. -/
  unknown : ∀ {value : Option Value} {name : String}, value.bind Value.trimmed? = some name →
    (∀ reference, ¬Denotes first ids name reference) → ∀ referrer span,
      d.resolve value referrer span =
        (d.report (.unknownReference referrer (missing name)) span, none)
  /-- A missing name is reported as such. -/
  blank : ∀ {value : Option Value}, value.bind Value.trimmed? = none → ∀ referrer span,
    d.resolve value referrer span = (d.report (.invalidReference referrer) span, none)

/-- A text with a mark in it is put together of the parts. -/
theorem eq_anchored_iff {name head anchor : String} :
    name = head ++ "@" ++ anchor ↔ name.toList = head.toList ++ '@' :: anchor.toList := by
  rw [← String.toList_inj]
  simp

/-- A text with an `@` in it is a text without one, the first `@`, and an anchor. -/
theorem exists_anchored {name : String} (h : '@' ∈ name.toList) :
    ∃ head anchor, name = head ++ "@" ++ anchor ∧ '@' ∉ head.toList := by
  obtain ⟨front, back, hcut, hfront⟩ := List.eq_append_cons_of_mem h
  refine ⟨String.ofList front, String.ofList back, ?_, by rwa [String.toList_ofList]⟩
  rw [eq_anchored_iff, String.toList_ofList, String.toList_ofList]
  exact hcut

/-- Looking up a reference with an anchor that nobody claimed as a whole. -/
theorem resolve_anchored {d : Draft} {value : Option Value} {name head anchor : String}
    (hname : value.bind Value.trimmed? = some name) (unclaimed : d.aliases.get? name = none)
    (split : name = head ++ "@" ++ anchor) (front : '@' ∉ head.toList) (referrer : Referrer)
    (span : Span) : d.resolve value referrer span =
      let id := (d.aliases.get? (Text.trim head)).getD (Text.trim head)
      if d.hasNode id then (d, some ⟨id ++ "@" ++ anchor, id⟩)
      else (d.report (.unknownReference referrer (Text.trim head)) span, none) := by
  unfold resolve
  rw [hname]
  dsimp only
  rw [unclaimed, eq_anchored_iff.mp split, Text.splitOnce_append front]
  dsimp only
  rw [String.ofList_toList]
  rfl

/-- The name that is reported for a reference with an anchor. -/
theorem missing_anchored {name head anchor : String} (split : name = head ++ "@" ++ anchor)
    (front : '@' ∉ head.toList) : missing name = Text.trim head := by
  unfold missing
  rw [eq_anchored_iff.mp split, Text.splitOnce_append front]
  dsimp only
  rw [String.ofList_toList]

section

variable {d : Draft} {ids : List String}

/-- The node of a name that is an id is claimed. -/
theorem Registry.hasNode_eq_false (hd : d.Registry) {name : String}
    (htrim : Text.trimmed? name = some name) (unclaimed : d.aliases.get? name = none) :
    d.hasNode name = false := by
  refine Bool.eq_false_iff.mpr fun hnode => ?_
  have hnamed := hd.named name hnode name htrim
  rw [Table.has, unclaimed] at hnamed
  exact Bool.noConfusion hnamed

/-- The text in front of an anchor means a node just if the node that is looked up for it is one. -/
theorem Registry.means_iff (hd : d.Registry) (hblank : d.aliases.get? "" = none)
    (hids : "" ∈ ids ↔ d.hasNode "") {head id : String} : Means d.aliases.get? ids head id ↔
      id = (d.aliases.get? (Text.trim head)).getD (Text.trim head) ∧ d.hasNode id := by
  rw [Text.trim_eq_getD]
  constructor
  · rintro (⟨htrim, hclaim⟩ | ⟨htrim, hknown⟩)
    · rw [htrim, Option.getD_some, hclaim]
      exact ⟨rfl, hd.hasNode_of_alias hclaim⟩
    · rw [htrim, Option.getD_none, hblank]
      exact ⟨rfl, hids.mp hknown⟩
  · rintro ⟨rfl, hnode⟩
    cases htrim : Text.trimmed? head with
    | none =>
      rw [htrim, Option.getD_none, hblank] at hnode
      rw [Option.getD_none, hblank]
      exact .blank htrim (hids.mpr hnode)
    | some name =>
      rw [htrim, Option.getD_some] at hnode
      rw [Option.getD_some]
      cases hclaim : d.aliases.get? name with
      | some id => exact .claimed htrim hclaim
      | none =>
        rw [hclaim, Option.getD_none,
          hd.hasNode_eq_false (Text.trimmed?_of_trimmed? htrim) hclaim] at hnode
        exact Bool.noConfusion hnode

/-- Where the tables agree with the nodes and no node has claimed the empty name, a draft finds what
references stand for. -/
theorem Registry.resolvesFirst (hd : d.Registry) (hblank : d.aliases.get? "" = none)
    (hids : "" ∈ ids ↔ d.hasNode "") : ResolvesFirst d.aliases.get? ids d where
  found := by
    intro value name reference hname hdenotes referrer span
    cases hdenotes with
    | whole claim =>
      unfold resolve
      rw [hname]
      dsimp only
      rw [claim]
      exact if_pos (hd.hasNode_of_alias claim)
    | anchored unclaimed split front means =>
      obtain ⟨hid, hnode⟩ := (hd.means_iff hblank hids).mp means
      rw [resolve_anchored hname unclaimed split front]
      dsimp only
      rw [← hid]
      exact if_pos hnode
  unknown := by
    intro value name hname hnothing referrer span
    have unclaimed : d.aliases.get? name = none :=
      Option.eq_none_iff_forall_ne_some.mpr fun id claim => hnothing _ (.whole claim)
    -- The name without its anchor is looked up, or the whole name if it has none.
    by_cases hmark : '@' ∈ name.toList
    · obtain ⟨head, anchor, hsplit, hfront⟩ := exists_anchored hmark
      rw [resolve_anchored hname unclaimed hsplit hfront, missing_anchored hsplit hfront]
      refine if_neg fun hnode => ?_
      have hmeans := (hd.means_iff hblank hids).mpr ⟨rfl, hnode⟩
      exact hnothing _ (.anchored unclaimed hsplit hfront hmeans)
    · have htrim : Text.trimmed? name = some name := by
        obtain ⟨_, -, htext⟩ := Option.bind_eq_some_iff.mp hname
        obtain ⟨_, -, htext⟩ := Option.bind_eq_some_iff.mp htext
        exact Text.trimmed?_of_trimmed? htext
      unfold resolve missing
      rw [hname]
      dsimp only
      rw [unclaimed, Text.splitOnce_eq_none hmark]
      dsimp only
      rw [hd.hasNode_eq_false htrim unclaimed]
      rfl
  blank := by
    intro value hblank referrer span
    unfold resolve
    rw [hblank]

end

/-! ## When the icons are placed -/

/-- The drafts of a build from the one on in which all icons are placed. -/
def settledDrafts (root : Block) : List Draft :=
  (placeRoot root).1 :: (placeRoot root).1.connectTrail root (placeRoot root).2

/-- What is treated once the icons are placed: an attachment, a note, a line, or the target that is
written on a question, a choice or an arm. -/
inductive Errand
  /-- A decoration is attached. -/
  | attachment (b : Block)
  /-- A note is taken in. -/
  | note (b : Block)
  /-- A line is drawn. -/
  | line (b : Block)
  /-- A target is looked up. -/
  | target (referrer : String → Referrer) (id next : String) (span : Span)

/-- The draft in which something more has been treated. -/
def run (d : Draft) : Errand → Draft
  | .attachment b => d.attach b
  | .note b => d.addNote b
  | .line b => d.drawLine b
  | .target referrer id next span => (resolveNext referrer (d, []) id next span).1

/-- The tables of a draft agree with its nodes, and it has the names and the nodes of the one in
which the icons of a root have been placed. -/
structure Settled (root : Block) (d : Draft) : Prop where
  /-- Ids and names lead to nodes. -/
  registry : d.Registry
  /-- The names are claimed as the root claims them. -/
  names : d.aliases.get? = (claims root).get?
  /-- The nodes are those of the root. -/
  nodes : ∀ id, d.hasNode id = (placeRoot root).1.hasNode id

section

variable {root : Block} {d e : Draft}

/-- Every draft of a passage is extended by the last one. -/
theorem Passage.extends_last {t : List Draft} (h : Passage d t e) :
    ∀ x ∈ d :: t, e.Extends x := by
  induction h with
  | done d => exact fun x hx => List.mem_singleton.mp hx ▸ .refl d
  | step first rest ih =>
    intro x hx
    rcases List.mem_cons.mp hx with rfl | hx
    · exact (Passage.step first rest).extends
    · exact ih x hx

/-- The settled drafts are the last ones of a build. -/
theorem settledDrafts_suffix (root : Block) :
    settledDrafts root <:+ initial root :: rootTrail root := by
  obtain ⟨before, hbefore⟩ := List.getLast?_eq_some_iff.mp (placeRoot_passage root).1.getLast?_eq
  refine ⟨before, ?_⟩
  have htrail : initial root :: rootTrail root = initial root :: placeTrail root ++
      (placeRoot root).1.connectTrail root (placeRoot root).2 := rfl
  rw [htrail, hbefore, List.append_assoc]
  rfl

/-- Once the icons are placed, names and nodes stay the same. -/
theorem settled_of_mem (hd : d ∈ settledDrafts root) : Settled root d := by
  have hbuild := (settledDrafts_suffix root).subset hd
  have hend : (ofRoot root).Extends d := (ofRoot_passage root).extends_last d hbuild
  have hstart : d.Extends (placeRoot root).1 := by
    rcases List.mem_cons.mp hd with rfl | hd
    · exact .refl _
    · obtain ⟨hplace, hedge⟩ := placeRoot_passage root
      exact (connectRoot_passage (hplace.closed_last (closed_initial root)) root
        hedge).extends_of_mem hd
  -- Nothing is new in the end, so nothing is new on the way.
  have hagrees := (ofRoot_ledger root).agrees
  have hclosed := (ofRoot_passage root).closed (closed_initial root) d hbuild
  refine ⟨hclosed.registry, funext fun name => ?_, fun id => ?_⟩
  · rw [← placed_claims root name]
    refine Option.ext fun id => ⟨fun h => ?_, hstart.aliases name id⟩
    rw [← hagrees.aliases]
    exact hend.aliases name id h
  · refine Bool.eq_iff_iff.mpr ⟨fun h => ?_, hstart.hasNode id⟩
    have hlast := hend.hasNode id h
    rwa [hasNode, hagrees.ids] at hlast

/-- What a draft agrees about is settled in it as well. -/
theorem Settled.of_agrees (h : Settled root d) (hagrees : Agrees d e) : Settled root e where
  registry := hagrees.registry h.registry
  names := by rw [hagrees.aliases, h.names]
  nodes id := by rw [hasNode, hagrees.ids, ← h.nodes, hasNode]

/-- Nothing that is treated once the icons are placed changes names or nodes. -/
theorem Registry.run_agrees (hd : d.Registry) (errand : Errand) : Agrees d (d.run errand) := by
  cases errand with
  | attachment b => exact (attach_draws hd b).agrees
  | note b => exact (addNote_draws hd b).agrees
  | line b => exact (drawLine_draws hd b).agrees
  | target referrer id next span =>
    have hlooked : ((d, []) : Lookup).1.Registry := hd
    exact (resolveNext_draws hlooked referrer id next span).agrees

/-- Whatever is treated once the icons are placed leaves names and nodes alone. -/
theorem Settled.foldl_run (h : Settled root d) (errands : List Errand) :
    Settled root (errands.foldl run d) := by
  induction errands generalizing d with
  | nil => exact h
  | cons errand errands ih => exact ih (h.of_agrees (h.registry.run_agrees errand))

/-- A name that is claimed has no blank ends. -/
theorem trimmed?_of_claims {name id : String} (h : (claims root).get? name = some id) :
    Text.trimmed? name = some name := by
  obtain ⟨n, -, hm⟩ := List.mem_flatMap.mp (Table.mem_of_get? h)
  obtain ⟨own, hown, hpair⟩ := List.mem_map.mp hm
  obtain ⟨text, -, htext⟩ := List.mem_filterMap.mp hown
  rw [← (Prod.mk.inj hpair).1]
  exact Text.trimmed?_of_trimmed? htext

/-- No node claims the empty name. -/
theorem Settled.get?_empty (h : Settled root d) : d.aliases.get? "" = none := by
  refine Option.eq_none_iff_forall_ne_some.mpr fun id hid => ?_
  rw [h.names] at hid
  obtain ⟨first, -, hfirst, -⟩ := Text.ends_of_trimmed? (trimmed?_of_claims hid)
  exact nomatch hfirst

end

/-- **A reference stands for the first node that claimed the name:** from the draft on in which the
icons of a root are placed, and whatever lines, attachments, notes and targets are treated in
whatever order, looking a reference up finds what it stands for by the claims of the root, and
changes nothing but that a reference that stands for nothing is reported once. -/
theorem resolvesFirst_settled (root : Block) {d : Draft} (hd : d ∈ settledDrafts root)
    (errands : List Errand) :
    ResolvesFirst (claims root).get? ((placeRoot root).1.diagram.nodes.map Node.id)
      (errands.foldl run d) := by
  have hsettled := (settled_of_mem hd).foldl_run errands
  rw [← hsettled.names]
  refine hsettled.registry.resolvesFirst hsettled.get?_empty ?_
  rw [hsettled.nodes]
  exact (settled_of_mem List.mem_cons_self).registry.hasNode_iff_mem.symm

/-- Two icons with the same anchor. -/
def sharedRoot : Block :=
  { name := "drakon"
    labels := ["d"]
    body :=
      [.block "action" ["a"] [.attribute "anchor" (.text "shared") .nowhere] .nowhere,
        .block "action" ["b"] [.attribute "anchor" (.text "shared") .nowhere] .nowhere]
    span := .nowhere }

/-- The anchor stands for the first of the icons, whatever has been treated before. -/
theorem resolvesFirst_settled_shared :
    ∃ d ∈ settledDrafts sharedRoot, ∀ (errands : List Errand) (referrer : Referrer) (span : Span),
      (errands.foldl run d).resolve (some (.text " shared@right ")) referrer span =
        (errands.foldl run d, some ⟨"a@right", "a"⟩) := by
  refine ⟨_, List.mem_cons_self, fun errands referrer span => ?_⟩
  have hname : (some (Value.text " shared@right ")).bind Value.trimmed? =
      some ("shared" ++ "@" ++ "right") := by decide +kernel
  have htrim : Text.trimmed? "shared" = some "shared" := by decide +kernel
  have hmeans : Means (claims sharedRoot).get?
      ((placeRoot sharedRoot).1.diagram.nodes.map Node.id) "shared" "a" :=
    .claimed htrim (by decide +kernel)
  exact (resolvesFirst_settled sharedRoot List.mem_cons_self errands).found hname
    (.anchored (by decide +kernel) rfl (by decide +kernel) hmeans) referrer span

/-! ## Anchors of names that hold an `@` -/

/-- **Only names without an `@` take an anchor:** once the icons of a root are placed, a name with
an anchor that nobody claimed as a whole stands for the node of the name just if there is no `@` in
the name. Otherwise the text in front of the first one is the name, and all behind it the anchor; if
that text means no node, it is reported as unknown. -/
theorem resolve_suffixed_iff (root : Block) {d : Draft} (hd : d ∈ settledDrafts root)
    {name id suffix : String} (claimed : d.aliases.get? name = some id)
    (trimmed : Text.trimmed? suffix = some suffix)
    (unclaimed : d.aliases.get? (name ++ "@" ++ suffix) = none) (referrer : Referrer)
    (span : Span) :
    (d.resolve (some (.text (name ++ "@" ++ suffix))) referrer span =
        (d, some ⟨id ++ "@" ++ suffix, id⟩) ↔ '@' ∉ name.toList) ∧
      ∀ head anchor, name = head ++ "@" ++ anchor → '@' ∉ head.toList →
        (∀ other, Means d.aliases.get? (d.diagram.nodes.map Node.id) head other →
          d.resolve (some (.text (name ++ "@" ++ suffix))) referrer span =
            (d, some ⟨other ++ "@" ++ (anchor ++ "@" ++ suffix), other⟩)) ∧
        ((∀ other, ¬Means d.aliases.get? (d.diagram.nodes.map Node.id) head other) →
          d.resolve (some (.text (name ++ "@" ++ suffix))) referrer span =
            (d.report (.unknownReference referrer (Text.trim head)) span, none)) := by
  have hsettled := settled_of_mem hd
  have hfirst := hsettled.registry.resolvesFirst hsettled.get?_empty
    hsettled.registry.hasNode_iff_mem.symm
  have htrim : Text.trimmed? name = some name :=
    trimmed?_of_claims (hsettled.names ▸ claimed)
  have hvalue : (some (Value.text (name ++ "@" ++ suffix))).bind Value.trimmed? =
      some (name ++ "@" ++ suffix) := by
    rw [Option.bind_some, Value.trimmed?, Value.text?, Option.bind_some]
    exact Text.trimmed?_suffixed htrim trimmed
  have hsplit : ∀ {head anchor : String}, name = head ++ "@" ++ anchor →
      name ++ "@" ++ suffix = head ++ "@" ++ (anchor ++ "@" ++ suffix) := by
    rintro head anchor rfl
    simp only [String.append_assoc]
  refine ⟨⟨fun hfound hmark => ?_, fun hplain => ?_⟩, fun head anchor hname hfront =>
    ⟨fun other hmeans => ?_, fun hnothing => ?_⟩⟩
  · -- The text in front of the first `@` is the name, and the anchor has become longer.
    obtain ⟨head, anchor, hname, hfront⟩ := exists_anchored hmark
    rw [resolve_anchored hvalue unclaimed (hsplit hname) hfront] at hfound
    dsimp only at hfound
    split at hfound
    · obtain ⟨hfull, hid⟩ := Reference.mk.inj (Option.some.inj (Prod.mk.inj hfound).2)
      rw [hid] at hfull
      have hlength := congrArg (fun text => text.toList.length) hfull
      simp only [String.toList_append, List.length_append] at hlength
      have hmark : "@".toList.length = 1 := rfl
      omega
    · exact absurd (Prod.mk.inj hfound).2.symm (Option.some_ne_none _)
  · -- There is no `@` in the name, so the first one in the reference is behind it.
    exact hfirst.found hvalue (.anchored unclaimed rfl hplain (.claimed htrim claimed)) _ _
  · exact hfirst.found hvalue (.anchored unclaimed (hsplit hname) hfront hmeans) referrer span
  · -- A node with the text as its id would be what it means.
    rw [resolve_anchored hvalue unclaimed (hsplit hname) hfront]
    refine if_neg fun hnode => ?_
    have hmeans := (hsettled.registry.means_iff hsettled.get?_empty
      hsettled.registry.hasNode_iff_mem.symm).mpr ⟨rfl, hnode⟩
    exact hnothing _ hmeans

/-- An anchor is found behind a name that an icon claimed, and not behind the id that the library
made for the start icon. -/
theorem resolve_suffixed_shared :
    ∃ d ∈ settledDrafts sharedRoot,
      d.resolve (some (.text ("shared" ++ "@" ++ "right"))) .lineSource .nowhere =
        (d, some ⟨"a" ++ "@" ++ "right", "a"⟩) ∧
      d.resolve (some (.text ("d@start" ++ "@" ++ "bottom"))) .lineSource .nowhere =
        (d.report (.unknownReference .lineSource "d") .nowhere, none) := by
  have hright : Text.trimmed? "right" = some "right" := by decide +kernel
  have hbottom : Text.trimmed? "bottom" = some "bottom" := by decide +kernel
  have hshared := resolve_suffixed_iff sharedRoot List.mem_cons_self
    (show (placeRoot sharedRoot).1.aliases.get? "shared" = some "a" by decide +kernel) hright
    (by decide +kernel) .lineSource .nowhere
  have hstart := resolve_suffixed_iff sharedRoot List.mem_cons_self
    (show (placeRoot sharedRoot).1.aliases.get? "d@start" = some "d@start" by decide +kernel)
    hbottom
    (by decide +kernel) .lineSource .nowhere
  have htrim : Text.trim "d" = "d" := by decide +kernel
  refine ⟨_, List.mem_cons_self, hshared.1.mpr (by decide +kernel), ?_⟩
  rw [(hstart.2 "d" "start" rfl (by decide +kernel)).2, htrim]
  rintro other (⟨hname, hclaim⟩ | ⟨hname, -⟩)
  · have hd : Text.trimmed? "d" = some "d" := by decide +kernel
    obtain rfl := Option.some.inj (hd.symm.trans hname)
    have hnone : (placeRoot sharedRoot).1.aliases.get? "d" = none := by decide +kernel
    exact nomatch hnone.symm.trans hclaim
  · have hd : Text.trimmed? "d" ≠ none := by decide +kernel
    exact hd hname

/-- There is a name whose node is not found behind it with an anchor: the id of the start icon. -/
theorem exists_name_without_anchor :
    ∃ root, ∃ d ∈ settledDrafts root, ∃ name id suffix, d.aliases.get? name = some id ∧
      Text.trimmed? suffix = some suffix ∧ '@' ∉ suffix.toList ∧
      d.aliases.get? (name ++ "@" ++ suffix) = none ∧
      (d.resolve (some (.text name)) .lineSource .nowhere).2 = some ⟨id, id⟩ ∧
      (d.resolve (some (.text (name ++ "@" ++ suffix))) .lineSource .nowhere).2 = none :=
  ⟨sharedRoot, _, List.mem_cons_self, "d@start", "d@start", "bottom", by decide +kernel,
    by decide +kernel, by decide +kernel, by decide +kernel, by decide +kernel, by decide +kernel⟩

end Draft

end Flowchart
