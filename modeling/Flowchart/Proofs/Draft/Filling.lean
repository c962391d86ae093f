import Flowchart.Proofs.Draft.MadeIds
import Flowchart.Proofs.Draft.Plan

/-!
# What blocks put into a column

The blocks of a branch, and those of an arm, are placed one below the other in a column. Each block
that is not refused puts its icon there, and perhaps more behind it: the body of a loop and the icon
that closes it, the first arm of a choice, or a branch that asks for this very column. `Fills` lists
these entries.

A question remembers the last node that its branch has put into the column, an arm the icon of its
last block. Both are read off the entries (`Fills.columnIds`, `placeInArm_fills`), and they are the
same node exactly if the last block put nothing behind its icon (`Fills.getLast?_eq_iff`).
-/

namespace Flowchart

/-- A block, the id of its icon, and the ids that the block puts behind it into the same column. -/
structure Entry where
  /-- The block that is placed. -/
  outline : Outline
  /-- The id of its icon. -/
  id : String
  /-- The ids of the nodes behind its icon that stand in the same column. -/
  inner : List String

/-- All that a block puts into its column. -/
def Entry.ids (entry : Entry) : List String := entry.id :: entry.inner

/-- The origin of the icon of an entry. -/
def Entry.origin (entry : Entry) (column : Nat) : Origin :=
  ⟨⟨entry.id, .ofName entry.outline.block.name, column⟩, entry.outline.block⟩

/-- Kinds of icons behind which nothing is placed. -/
def NodeKind.isPlain : NodeKind → Bool
  | .question | .choice | .forEach => false
  | _ => true

namespace Draft

/-- Placing a block puts an entry into its column. -/
structure Puts (column : Nat) (d : Draft) (entry : Entry) : Prop where
  /-- Placing the block gives the id of its icon. -/
  placed : (placeIcon entry.outline column d).2 = some entry.id
  /-- Its icon is entered before all others that are placed with it. -/
  origins : d.diagram.origins ++ [entry.origin column] <+:
    (placeIcon entry.outline column d).1.diagram.origins
  /-- The column gets its icon and the nodes behind it. -/
  columnIds : (placeIcon entry.outline column d).1.columnIds column =
    d.columnIds column ++ entry.ids
  /-- Behind an icon without a body nothing is placed. -/
  plain : (NodeKind.ofName entry.outline.block.name).isPlain = true → entry.inner = []
  /-- A loop with a body ends with the icon that closes it. -/
  loop : NodeKind.ofName entry.outline.block.name = .forEach → entry.outline.children ≠ [] →
    ∃ loopEnd, entry.inner.getLast? = some loopEnd ∧
      (placeIcon entry.outline column d).1.HasKind loopEnd .loopEnd

/-- Placing blocks one below the other leads from one draft to another and leaves the entries of
those blocks that are not refused. -/
inductive Fills (column : Nat) : Draft → List Outline → Draft → List Entry → Prop
  /-- No block is left. -/
  | done (d : Draft) : Fills column d [] d []
  /-- A block is refused. -/
  | refused {d e : Draft} {o : Outline} {os : List Outline} {entries : List Entry}
      (fault : BuildFault) (span : Span) (rest : Fills column (d.report fault span) os e entries) :
      Fills column d (o :: os) e entries
  /-- A block is placed. -/
  | placed {d e : Draft} {os : List Outline} {entry : Entry} {entries : List Entry}
      (puts : Puts column d entry)
      (rest : Fills column (placeIcon entry.outline column d).1 os e entries) :
      Fills column d (entry.outline :: os) e (entry :: entries)

/-! ## One block -/

section

variable {o : Outline} {column : Nat} {d : Draft} (hallowed : isReserved o.block.name = false)
  (hfree : d.hasNode (d.iconId o.block column) = false)
include hallowed hfree

/-- Behind an icon of most kinds nothing is placed. -/
theorem placeIcon_plain (hkind : (NodeKind.ofName o.block.name).isPlain = true) :
    (placeIcon o column d).1 = d.enter
      (o.block.node (.ofName o.block.name) (d.iconId o.block column) column) .back := by
  have hplaces := placeIcon_places o column d
  generalize iconTrail o column d = t at hplaces
  generalize placeIcon o column d = r at hplaces ⊢
  cases hplaces with
  | reserved reserved => exact Bool.noConfusion (hallowed.symm.trans reserved)
  | taken _ used => exact Bool.noConfusion (hfree.symm.trans used)
  | question _ kind | choice _ kind | loop _ kind =>
    rw [kind] at hkind
    exact Bool.noConfusion hkind
  | plain =>
    dsimp only
    rfl

/-- Behind the icon of a loop follow its body and the icon that closes it. -/
theorem placeIcon_loop (hkind : NodeKind.ofName o.block.name = .forEach)
    (hchildren : o.children ≠ []) :
    (placeIcon o column d).1 = (placeAll o.children column
      (d.enter (o.block.node .forEach (d.iconId o.block column) column) .back)).closeLoop
        (d.iconId o.block column) column := by
  have hplaces := placeIcon_places o column d
  generalize iconTrail o column d = t at hplaces
  generalize placeIcon o column d = r at hplaces ⊢
  cases hplaces with
  | reserved reserved => exact Bool.noConfusion (hallowed.symm.trans reserved)
  | taken _ used => exact Bool.noConfusion (hfree.symm.trans used)
  | question _ kind | choice _ kind => exact NodeKind.noConfusion (kind.symm.trans hkind)
  | loop _ _ _ all =>
    subst all
    rw [entered, iconNode, hkind]
  | plain _ _ _ loop => exact absurd (loop hkind) hchildren

end

/-- Closing a loop puts its icon behind all others. -/
theorem closeLoop_columnIds (d : Draft) (loop : String) (column : Nat) :
    (d.closeLoop loop column).columnIds column = d.columnIds column ++ [d.loopEndId loop] ∧
      (d.closeLoop loop column).HasKind (d.loopEndId loop) .loopEnd := by
  have hid : (d.loopEndNode loop column).id = d.loopEndId loop := rfl
  have hkind : (d.loopEndNode loop column).kind = .loopEnd := rfl
  have hcolumn : (d.loopEndNode loop column).column = column := rfl
  have hfree := hasNode_loopEndId d loop
  unfold closeLoop
  dsimp only
  generalize d.loopEndNode loop column = node at hid hkind hcolumn ⊢
  rw [← hid] at hfree
  rw [register_of_free hfree, ← hid, ← hkind, ← hcolumn, ← columnIds_enter_self]
  generalize hentered : d.enter node .back = entered
  refine ⟨rfl, (hentered ▸ hasKind_enter d node .back).mono ?_⟩
  exact (posts_setAttribute _ _ _ _).symm ▸ List.infix_refl _

/-- A block that is not refused puts an entry into its column. -/
theorem placeIcon_puts {o : Outline} {column : Nat} {d : Draft} {id : String}
    (h : (placeIcon o column d).2 = some id) : ∃ inner, Puts column d ⟨o, id, inner⟩ := by
  have hexpands := placeIcon_expands (P := fun _ => True) o column d fun _ _ => trivial
  rcases placeIcon_cases o column d with ⟨-, he⟩ | ⟨allowed, ⟨-, first, he⟩ | ⟨free, hid, t, ht⟩⟩
  · rw [he] at h
    exact nomatch h
  · rw [he] at h
    exact nomatch h
  · obtain rfl : d.iconId o.block column = id := Option.some.inj (hid.symm.trans h)
    have hmem := List.mem_cons_of_mem d (ht ▸ List.mem_cons_self)
    -- What the block holds goes behind its icon, in its column as elsewhere.
    obtain ⟨inner, hinner⟩ := hexpands.prefix_columnIds_of_mem hmem column
    have hself := columnIds_enter_self d
      (o.block.node (.ofName o.block.name) (d.iconId o.block column) column)
    have hids : (placeIcon o column d).1.columnIds column =
        d.columnIds column ++ d.iconId o.block column :: inner := by
      rw [← hinner]
      exact (congrArg (· ++ inner) hself).trans (List.append_assoc _ _ _)
    have horigins := hexpands.prefix_origins_of_mem hmem
    rw [origins_enter] at horigins
    refine ⟨inner, h, horigins, hids, fun hplain => ?_, fun hloop hchildren => ?_⟩
    · rw [placeIcon_plain allowed free hplain] at hinner
      exact List.append_right_eq_self.mp hinner
    · -- Between the icon of the loop and the one that closes it stands the body.
      rw [hloop, placeIcon_loop allowed free hloop hchildren] at hinner
      rw [placeIcon_loop allowed free hloop hchildren]
      generalize d.enter (o.block.node .forEach (d.iconId o.block column) column) .back = entered
        at hinner ⊢
      have hbody := placeAll_expands (P := fun _ => True) o.children column entered
        fun _ _ => trivial
      obtain ⟨body, hbody⟩ := hbody.prefix_columnIds_of_mem List.mem_cons_self column
      obtain ⟨hlast, hkind⟩ := closeLoop_columnIds (placeAll o.children column entered)
        (d.iconId o.block column) column
      rw [hlast, ← hbody, List.append_assoc] at hinner
      refine ⟨_, ?_, hkind⟩
      rw [List.append_cancel_left hinner]
      exact List.getLast?_concat

/-! ## One block below the other -/

/-- What blocks have put into their column. -/
theorem Fills.columnIds {column : Nat} {d e : Draft} {os : List Outline} {entries : List Entry}
    (h : Fills column d os e entries) :
    e.columnIds column = d.columnIds column ++ entries.flatMap Entry.ids := by
  induction h with
  | done d => exact (List.append_nil _).symm
  | refused fault span _ ih => exact ih
  | placed puts _ ih => rw [ih, puts.columnIds, List.flatMap_cons, List.append_assoc]

/-- Blocks are placed behind the nodes that are there. -/
theorem Fills.prefix_origins {column : Nat} {d e : Draft} {os : List Outline} {entries : List Entry}
    (h : Fills column d os e entries) : d.diagram.origins <+: e.diagram.origins := by
  induction h with
  | done d => exact List.prefix_refl _
  | refused fault span _ ih => exact ih
  | placed puts _ ih => exact ((List.prefix_append _ _).trans puts.origins).trans ih

/-- Blocks are placed behind the nodes that are there. -/
theorem Fills.infix_posts {column : Nat} {d e : Draft} {os : List Outline} {entries : List Entry}
    (h : Fills column d os e entries) : d.diagram.posts <:+: e.diagram.posts := by
  rw [Diagram.posts_eq_origins, Diagram.posts_eq_origins]
  exact (h.prefix_origins.map _).isInfix

/-- The first of several blocks has its icon right behind the nodes that were there. -/
theorem Fills.first_origin {column : Nat} {d e : Draft} {os : List Outline} {entry : Entry}
    {entries more : List Entry} (h : Fills column d os e entries)
    (hfirst : entries = entry :: more) :
    d.diagram.origins ++ [entry.origin column] <+: e.diagram.origins := by
  induction h with
  | done d => exact nomatch hfirst
  | refused fault span _ ih => exact ih hfirst
  | @placed d e os other entries puts rest ih =>
    obtain ⟨rfl, -⟩ := List.cons.inj hfirst
    exact puts.origins.trans rest.prefix_origins

/-- The last icon of several blocks is the last node they have put into their column exactly if the
last block put nothing behind it. -/
theorem Fills.getLast?_eq_iff {column : Nat} {d e : Draft} {os : List Outline}
    {entries : List Entry} (h : Fills column d os e entries) (he : e.Registry) :
    entries.getLast?.map Entry.id = (entries.flatMap Entry.ids).getLast? ↔
      ∀ entry ∈ entries.getLast?, entry.inner = [] := by
  have hnodup : (entries.flatMap Entry.ids).Nodup := by
    have hcolumn := he.nodup_columnIds column
    rw [h.columnIds] at hcolumn
    exact (List.nodup_append.mp hcolumn).2.1
  cases entries using List.reverseRecOn with
  | nil => exact ⟨fun _ _ hm => (nomatch hm), fun _ => rfl⟩
  | append_singleton entries entry =>
    rw [List.flatMap_append, List.flatMap_singleton, Entry.ids] at hnodup ⊢
    have hid : entry.id ∉ entry.inner := (List.nodup_cons.mp (List.nodup_append.mp hnodup).2.1).1
    rw [List.getLast?_concat, Option.map_some, List.getLast?_append_cons]
    refine ⟨fun hlast other hother => ?_, fun hinner => ?_⟩
    · rw [← Option.mem_some_iff.mp hother]
      cases hempty : entry.inner with
      | nil => rfl
      | cons id inner =>
        rw [hempty, List.getLast?_cons_cons] at hlast
        exact absurd (hempty ▸ List.mem_of_getLast? hlast.symm) hid
    · rw [hinner entry rfl]
      rfl

/-- The last of several blocks is a loop with a body. -/
def EndsWithLoop (entries : List Entry) : Prop :=
  ∃ entry ∈ entries.getLast?, NodeKind.ofName entry.outline.block.name = .forEach ∧
    entry.outline.children ≠ []

/-- When the last block is a loop with a body, the last node in the column closes it and is not the
icon of the loop. -/
theorem Fills.loopEnd {column : Nat} {d e : Draft} {os : List Outline} {entries : List Entry}
    (h : Fills column d os e entries) (hloop : EndsWithLoop entries) :
    (∃ loopEnd, (entries.flatMap Entry.ids).getLast? = some loopEnd ∧
      e.HasKind loopEnd .loopEnd) ∧ ∃ entry ∈ entries.getLast?, entry.inner ≠ [] := by
  induction h with
  | done d =>
    obtain ⟨entry, hentry, -⟩ := hloop
    exact nomatch hentry
  | refused fault span _ ih => exact ih hloop
  | @placed d e os entry entries puts rest ih =>
    rw [List.flatMap_cons, List.getLast?_append]
    cases entries with
    | nil =>
      obtain ⟨other, hother, hkind, hchildren⟩ := hloop
      obtain rfl : entry = other := Option.mem_some_iff.mp hother
      obtain ⟨loopEnd, hlast, hnode⟩ := puts.loop hkind hchildren
      refine ⟨⟨loopEnd, ?_, hnode.mono rest.infix_posts⟩, entry, rfl, fun hinner => ?_⟩
      · rw [List.flatMap_nil, Entry.ids, List.getLast?_cons, hlast]
        rfl
      · rw [hinner] at hlast
        exact nomatch hlast
    | cons next entries =>
      obtain ⟨⟨loopEnd, hlast, hnode⟩, hinner⟩ := ih hloop
      exact ⟨⟨loopEnd, by rw [hlast, Option.some_or], hnode⟩, hinner⟩

/-- A block that is refused is a problem and nothing else. -/
theorem placeIcon_refused {o : Outline} {column : Nat} {d : Draft}
    (h : (placeIcon o column d).2 = none) :
    ∃ fault, (placeIcon o column d).1 = d.report fault o.block.span := by
  rcases placeIcon_cases o column d with ⟨-, he⟩ | ⟨-, ⟨-, first, he⟩ | ⟨-, hid, -⟩⟩
  · exact ⟨_, congrArg Prod.fst he⟩
  · exact ⟨_, congrArg Prod.fst he⟩
  · rw [hid] at h
    exact nomatch h

/-- A block before others: it is the last one if they are all refused. -/
theorem Fills.exists_cons {column : Nat} {d e : Draft} {o : Outline} {os : List Outline}
    {entries : List Entry} (h : Fills column (placeIcon o column d).1 os e entries) :
    ∃ more, Fills column d (o :: os) e more ∧
      more.getLast?.map Entry.id = (entries.getLast?.map Entry.id).or (placeIcon o column d).2 := by
  cases hplaced : (placeIcon o column d).2 with
  | none =>
    obtain ⟨fault, hrefused⟩ := placeIcon_refused hplaced
    rw [hrefused] at h
    exact ⟨entries, .refused fault _ h, Option.or_none.symm⟩
  | some id =>
    obtain ⟨inner, hputs⟩ := placeIcon_puts hplaced
    refine ⟨_, .placed hputs h, ?_⟩
    rw [List.getLast?_cons]
    cases entries.getLast? <;> rfl

/-- The blocks of an arm fill its column, and the arm ends with the icon of the last of them. -/
theorem placeInArm_fills (os : List Outline) (column : Nat) (last : Option String) (d : Draft) :
    ∃ entries, Fills column d os (placeInArm os column last d).1 entries ∧
      (placeInArm os column last d).2 = (entries.getLast?.map Entry.id).or last := by
  induction os generalizing last d with
  | nil =>
    rw [placeInArm]
    exact ⟨[], .done d, rfl⟩
  | cons o os ih =>
    rw [placeInArm]
    obtain ⟨entries, hfills, hend⟩ := ih ((placeIcon o column d).2.or last) (placeIcon o column d).1
    obtain ⟨more, hmore, hlast⟩ := hfills.exists_cons
    refine ⟨more, hmore, hend.trans ?_⟩
    rw [hlast, Option.or_assoc]

/-- The blocks of a branch fill its column. -/
theorem placeInBranch_fills (os : List Outline) (a : Answer) (column : Nat) (d : Draft) :
    ∃ entries, Fills column d os (placeInBranch os a column d) entries := by
  induction os generalizing d with
  | nil =>
    rw [placeInBranch]
    exact ⟨[], .done d⟩
  | cons o os ih =>
    rw [placeInBranch]
    split
    · obtain ⟨entries, hfills⟩ := ih (d.report _ o.block.span)
      exact ⟨entries, .refused _ _ hfills⟩
    · obtain ⟨entries, hfills⟩ := ih (placeIcon o column d).1
      obtain ⟨more, hmore, -⟩ := hfills.exists_cons
      exact ⟨more, hmore⟩

end Draft

end Flowchart
