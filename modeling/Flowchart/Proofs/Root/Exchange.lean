import Flowchart.Proofs.Root.LikeRoots
import Flowchart.Proofs.Root.Refusal

/-!
# One block in the place of another

A block of a document can stand in a body or in a value, and these in others in turn. `Exchanged`
says that two lists of statements are the same but for one block in the place of another, however
deep. Values are read as texts, numbers or branches, and no text or number has a block in it
(`Exchanged.finds`), while the outlines in a branch are the same but for the block
(`Exchanged.outlines`). So when a question is in the place of an action, the roots of two documents
are the same as far as building reads them (`Exchanged.rootLike`).

There are three places where the name of a block is part of what a diagram shows, and these are left
out (`Place.Shows`): the items of a list of lines are the text of an icon, the value of the
parameters is the text of theirs, and the attributes of a line are kept with its edge.
-/

namespace Flowchart

/-- Where a statement stands, as far as that decides what a diagram shows of it. -/
inductive Place where
  /-- Among the statements of the document. -/
  | document
  /-- In the body of a root. -/
  | root
  /-- In the body of a line of the root. -/
  | line
  /-- In the body of any other block. -/
  | block
  /-- In a value in braces. -/
  | braces

/-- The place in the body of a block with a given name. -/
def Place.inside : Place → String → Place
  | .document, "drakon" => .root
  | .root, "line" => .line
  | _, _ => .block

/-- The names of blocks in the value of an attribute are shown in the diagram, or kept with an
edge. -/
def Place.Shows : Place → String → Value → Prop
  | .root, key, _ => key = "parameters"
  | .line, _, _ => True
  | .block, key, value => key = "lines" ∧ value.list?.isSome = true
  | _, _, _ => False

mutual

/-- Statements are the same, but for one block in the place of another, however deep and not in a
value that is shown. -/
inductive Exchanged (b c : Block) : Place → List Statement → List Statement → Prop
  /-- The block is one of the statements. -/
  | here {place : Place} (before after : List Statement) :
      Exchanged b c place (before ++ b.statement :: after) (before ++ c.statement :: after)
  /-- It stands in the body of one of them. -/
  | inBlock {place : Place} {body other : List Statement} (before after : List Statement)
      (name : String) (labels : List String) (span : Span)
      (inside : Exchanged b c (place.inside name) body other) :
      Exchanged b c place (before ++ .block name labels body span :: after)
        (before ++ .block name labels other span :: after)
  /-- It stands in the value of one of them, which is not shown. -/
  | inAttribute {place : Place} {value other : Value} (before after : List Statement) (key : String)
      (span : Span) (hidden : ¬ place.Shows key value) (inside : Value.Exchanged b c value other) :
      Exchanged b c place (before ++ .attribute key value span :: after)
        (before ++ .attribute key other span :: after)

/-- Values are the same, but for one block in the place of another. -/
inductive Value.Exchanged (b c : Block) : Value → Value → Prop
  /-- It is one of the statements in braces. -/
  | nested {body other : List Statement} (inside : Exchanged b c .braces body other) :
      Value.Exchanged b c (.nested body) (.nested other)
  /-- It stands in an item of a list. -/
  | item {value other : Value} (before after : List Value)
      (inside : Value.Exchanged b c value other) :
      Value.Exchanged b c (.list (before ++ value :: after)) (.list (before ++ other :: after))
  /-- It stands in a value of an object. -/
  | entry {value other : Value} (before after : List (String × Value)) (key : String)
      (inside : Value.Exchanged b c value other) :
      Value.Exchanged b c (.object (before ++ (key, value) :: after))
        (.object (before ++ (key, other) :: after))

end

variable {b c : Block} {place : Place} {body other : List Statement}

/-! ## Attributes -/

/-- Values with a block in them are neither texts nor numbers. -/
theorem Value.Exchanged.not_single {value other : Value} (h : Value.Exchanged b c value other) :
    value.text? = none ∧ other.text? = none ∧ value.number? = none ∧ other.number? = none := by
  cases h <;> exact ⟨rfl, rfl, rfl, rfl⟩

/-- An exchange makes a list of nothing else. -/
theorem Value.Exchanged.list? {value other : Value} (h : Value.Exchanged b c value other)
    (hlist : ¬ value.list?.isSome = true) : value.list? = none ∧ other.list? = none := by
  cases h with
  | nested => exact ⟨rfl, rfl⟩
  | item => exact absurd rfl hlist
  | entry => exact ⟨rfl, rfl⟩

/-- The entry of one pair in a list is another one. -/
theorem Table.get?_ofPairs_exchanged {κ α : Type} [DecidableEq κ] (before after : List (κ × α))
    (k : κ) (a a' : α) (key : κ) :
    (ofPairs (before ++ (k, a') :: after)).get? key =
        (ofPairs (before ++ (k, a) :: after)).get? key ∨
      k = key ∧ (ofPairs (before ++ (k, a) :: after)).get? key = some a ∧
        (ofPairs (before ++ (k, a') :: after)).get? key = some a' := by
  simp only [get?_ofPairs, List.reverse_append, List.reverse_cons, List.append_assoc,
    List.find?_append, List.singleton_append, List.find?_cons]
  cases after.reverse.find? (·.1 = key) with
  | some p => exact .inl rfl
  | none =>
    by_cases hk : k = key
    · exact .inr ⟨hk, by simp [hk], by simp [hk]⟩
    · exact .inl (by simp [hk])

/-- The entry of one pair in a table is another one. -/
theorem Table.get?_exchanged {κ α : Type} [DecidableEq κ] (before after : Table κ α) (k : κ)
    (a a' : α) (key : κ) :
    get? (before ++ (k, a') :: after) key = get? (before ++ (k, a) :: after) key ∨
      k = key ∧ get? (before ++ (k, a) :: after) key = some a ∧
        get? (before ++ (k, a') :: after) key = some a' := by
  induction before with
  | nil =>
    by_cases hk : k = key
    · exact .inr ⟨hk, by simp [get?, hk], by simp [get?, hk]⟩
    · exact .inl (by simp [get?, hk])
  | cons p before ih =>
    simp only [List.cons_append, get?]
    split
    · exact .inl rfl
    · exact ih

/-- The same is found under a key, or what is found is exchanged and not shown. -/
def Place.Finds (b c : Block) (place : Place) (key : String) (found found' : Option Value) : Prop :=
  found' = found ∨ ∃ value other, found = some value ∧ found' = some other ∧
    ¬ place.Shows key value ∧ Value.Exchanged b c value other

/-- What is found under a key, when the value of one attribute is another one. -/
theorem Attributes.get?_exchanged (before after : List Statement) (k : String) (value other : Value)
    (span : Span) (key : String) :
    (ofStatements (before ++ .attribute k other span :: after)).get? key =
        (ofStatements (before ++ .attribute k value span :: after)).get? key ∨
      k = key ∧ (ofStatements (before ++ .attribute k value span :: after)).get? key = some value ∧
        (ofStatements (before ++ .attribute k other span :: after)).get? key = some other := by
  have hpairs : ∀ v, (before ++ .attribute k v span :: after).filterMap Statement.attribute? =
      before.filterMap Statement.attribute? ++ (k, v) :: after.filterMap Statement.attribute? := by
    intro v
    rw [List.filterMap_append]
    rfl
  unfold ofStatements
  rw [hpairs, hpairs]
  exact Table.get?_ofPairs_exchanged _ _ _ _ _ _

/-- What is found under a key. -/
theorem Exchanged.finds (h : Exchanged b c place body other) (key : String) :
    place.Finds b c key ((Attributes.ofStatements body).get? key)
      ((Attributes.ofStatements other).get? key) := by
  cases h with
  | here before after =>
    refine .inl ?_
    rw [Attributes.ofStatements, Attributes.ofStatements, List.filterMap_append,
      List.filterMap_append]
    rfl
  | inBlock before after name labels span inside =>
    refine .inl ?_
    rw [Attributes.ofStatements, Attributes.ofStatements, List.filterMap_append,
      List.filterMap_append]
    rfl
  | @inAttribute _ value other before after k span hidden inside =>
    rcases Attributes.get?_exchanged before after k value other span key with
      hsame | ⟨rfl, hfound, hfound'⟩
    · exact .inl hsame
    · exact .inr ⟨value, other, hfound, hfound', hidden, inside⟩

/-- What is read of the values under a key is the same if an exchange does not change it. -/
theorem Place.Finds.bind_eq {key : String} {found found' : Option Value}
    (h : place.Finds b c key found found') {α : Type} {read : Value → Option α}
    (same : ∀ {value other : Value}, ¬ place.Shows key value → Value.Exchanged b c value other →
      read other = read value) : found'.bind read = found.bind read := by
  rcases h with rfl | ⟨value, other, rfl, rfl, hidden, inside⟩
  · rfl
  · exact same hidden inside

/-- The same text is found under a key, since a value that is exchanged is none. -/
theorem Place.Finds.text? {key : String} {found found' : Option Value}
    (h : place.Finds b c key found found') :
    found'.bind Value.text? = found.bind Value.text? :=
  h.bind_eq fun _ inside => inside.not_single.2.1.trans inside.not_single.1.symm

/-- The same trimmed text is found under a key. -/
theorem Place.Finds.trimmed? {key : String} {found found' : Option Value}
    (h : place.Finds b c key found found') :
    found'.bind Value.trimmed? = found.bind Value.trimmed? :=
  h.bind_eq fun _ inside => by
    rw [Value.trimmed?, Value.trimmed?, inside.not_single.1, inside.not_single.2.1]

/-- The same number is found under a key. -/
theorem Place.Finds.number? {key : String} {found found' : Option Value}
    (h : place.Finds b c key found found') :
    found'.bind Value.number? = found.bind Value.number? :=
  h.bind_eq fun _ inside => inside.not_single.2.2.2.trans inside.not_single.2.2.1.symm

/-- The text in the icon of a block. -/
theorem Exchanged.label (h : Exchanged b c place body other)
    (hplace : ∀ value, ¬ place.Shows "lines" value → ¬ value.list?.isSome = true)
    (otherwise : String) :
    (Attributes.ofStatements other).label otherwise =
      (Attributes.ofStatements body).label otherwise := by
  have hlines : ((Attributes.ofStatements other).get? "lines").bind Value.list? =
      ((Attributes.ofStatements body).get? "lines").bind Value.list? :=
    (h.finds "lines").bind_eq fun hidden inside =>
      (inside.list? (hplace _ hidden)).2.trans (inside.list? (hplace _ hidden)).1.symm
  unfold Attributes.label Attributes.text?
  rw [(h.finds "text").text?, hlines]

/-- The attributes of a line are the same. -/
theorem Exchanged.attributes_eq (h : Exchanged b c .line body other) :
    Attributes.ofStatements other = Attributes.ofStatements body := by
  unfold Attributes.ofStatements
  cases h with
  | here before after =>
    rw [List.filterMap_append, List.filterMap_append]
    rfl
  | inBlock before after name labels span inside =>
    rw [List.filterMap_append, List.filterMap_append]
    rfl
  | inAttribute before after key span hidden => exact absurd trivial hidden

/-! ## Outlines -/

/-- The branch under a key is that of the last attribute with the key. -/
theorem Branch.under_eq_find? (key : String) : ∀ (body : List Statement) (found : Option Branch),
    Branch.under key found body =
      match (body.filterMap Statement.attribute?).reverse.find? (·.1 = key) with
      | some p => Branch.ofValue p.2
      | none => found
  | [], _ => rfl
  | .block name labels inner span :: body, found => by
    rw [Branch.under, Branch.under_eq_find? key body found]
    rfl
  | .attribute k value span :: body, found => by
    rw [Branch.under, Branch.under_eq_find? key body,
      List.filterMap_cons_some (rfl : Statement.attribute? (.attribute k value span) = _),
      List.reverse_cons, List.find?_append]
    cases (body.filterMap Statement.attribute?).reverse.find? (·.1 = key) with
    | some p => rfl
    | none => by_cases hk : k = key <;> simp [hk]

/-- The branch under a key is the one that the value found under it is. -/
theorem Branch.under_eq (key : String) (body : List Statement) :
    Branch.under key none body =
      ((Attributes.ofStatements body).get? key).bind Branch.ofValue := by
  rw [Branch.under_eq_find?, Attributes.ofStatements, Table.get?_ofPairs]
  cases (body.filterMap Statement.attribute?).reverse.find? (·.1 = key) <;> rfl

mutual

/-- An outline is the same as itself. -/
theorem Outline.Like.refl (b c : Block) : ∀ o : Outline, Outline.Like b c 0 o o
  | .mk _ children yes no =>
    .block ⟨rfl, rfl, fun _ => rfl, rfl⟩ rfl rfl (Outline.AllLike.refl b c children)
      (Branch.Like.refl b c yes) (Branch.Like.refl b c no) (Nat.le_refl _)

/-- Outlines are like themselves, with no question asked in one of them only. -/
theorem Outline.AllLike.refl (b c : Block) : ∀ os : List Outline, Outline.AllLike b c 0 os os
  | [] => .nil 0
  | o :: os => .cons (Outline.Like.refl b c o) (Outline.AllLike.refl b c os) (Nat.le_refl _)

/-- A branch is like itself, with no question asked in one of them only. -/
theorem Branch.Like.refl (b c : Block) : ∀ branch : Option Branch, Branch.Like b c 0 branch branch
  | none => .none 0
  | some (.mk _ _ icons) => .some rfl (Outline.AllLike.refl b c icons)

end

/-- More questions may be allowed for than are asked. -/
theorem Outline.AllLike.mono {k l : Nat} {os os' : List Outline} (h : AllLike b c k os os')
    (hkl : k ≤ l) : AllLike b c l os os' := by
  cases h with
  | nil => exact .nil l
  | cons first rest count => exact .cons first rest (count.trans hkl)

/-- More questions may be allowed for than are asked in a branch. -/
theorem Branch.Like.mono {k l : Nat} {branch other : Option Branch}
    (h : Branch.Like b c k branch other) (hkl : k ≤ l) : Branch.Like b c l branch other := by
  cases h with
  | none => exact .none l
  | some column inside => exact .some column (inside.mono hkl)

/-- One outline is another one among the same outlines. -/
theorem Outline.AllLike.exchange {k : Nat} {o o' : Outline} (h : Outline.Like b c k o o')
    (before after : List Outline) :
    AllLike b c k (before ++ o :: after) (before ++ o' :: after) := by
  induction before with
  | nil => exact .cons h (.refl b c after) (Nat.le_refl _)
  | cons first before ih => exact .cons (.refl b c first) ih (Nat.le_of_eq (Nat.zero_add k))

/-- The place in the body of a block that is no root. -/
theorem Place.inside_eq (hplace : place ≠ .document) (name : String) :
    place.inside name = .line ∨ place.inside name = .block := by
  unfold Place.inside
  split
  · exact absurd rfl hplace
  · exact .inl rfl
  · exact .inr rfl

/-- The outlines of two bodies and of their branches are the same, but for up to one question in the
place of an action. -/
def OutlinesLike (b c : Block) (body other : List Statement) : Prop :=
  ∃ k l m, k + l + m ≤ 1 ∧
    Outline.AllLike b c k (Outline.ofStatements body) (Outline.ofStatements other) ∧
    Branch.Like b c l (Branch.under Side.yes.key none body) (Branch.under Side.yes.key none other) ∧
    Branch.Like b c m (Branch.under Side.no.key none body) (Branch.under Side.no.key none other)

/-- Outlines are the same when one block is in the place of another that has a like outline. -/
theorem OutlinesLike.of_block {x y : Block} (h : Outline.Like b c 1 x.outline y.outline)
    (before after : List Statement) :
    OutlinesLike b c (before ++ x.statement :: after) (before ++ y.statement :: after) := by
  have hbranch : ∀ key, Branch.Like b c 0 (Branch.under key none (before ++ x.statement :: after))
      (Branch.under key none (before ++ y.statement :: after)) := by
    intro key
    have hattributes : Attributes.ofStatements (before ++ y.statement :: after) =
        Attributes.ofStatements (before ++ x.statement :: after) := by
      rw [Attributes.ofStatements, Attributes.ofStatements, List.filterMap_append,
        List.filterMap_append]
      rfl
    rw [Branch.under_eq, Branch.under_eq, hattributes]
    exact .refl b c _
  have hoffer : ∀ x : Block, Outline.ofStatements (before ++ x.statement :: after) =
      Outline.ofStatements before ++ x.outline :: Outline.ofStatements after := by
    intro x
    rw [ofStatements_append]
    rfl
  refine ⟨1, 0, 0, Nat.le_refl _, ?_, hbranch _, hbranch _⟩
  rw [hoffer, hoffer]
  exact .exchange h _ _

mutual

/-- The outlines after an exchange. -/
theorem Exchanged.outlines : ∀ {place : Place} {body other : List Statement},
    Exchanged b c place body other → place ≠ .document → OutlinesLike b c body other
  | _, _, _, .here before after, _ => .of_block (.degraded (Nat.le_refl _)) before after
  | _, _, _, @Exchanged.inBlock _ _ _ body other before after name labels span inside, hplace => by
    have hinner := Place.inside_eq hplace name
    obtain ⟨k, l, m, hsum, hall, hyes, hno⟩ := inside.outlines fun h => by
      rcases hinner with hinner | hinner <;> exact Place.noConfusion (hinner.symm.trans h)
    have hlabel := inside.label fun value hidden => by
      rcases hinner with hinner | hinner <;> rw [hinner] at hidden
      · exact absurd trivial hidden
      · exact fun hlist => hidden ⟨rfl, hlist⟩
    exact .of_block (x := ⟨name, labels, body, span⟩) (y := ⟨name, labels, other, span⟩)
      (.block ⟨rfl, rfl, hlabel, (inside.finds "anchor").trimmed?⟩ rfl
        (inside.finds "next").trimmed? hall hyes hno hsum) before after
  | _, _, _, @Exchanged.inAttribute _ _ _ value other before after key span hidden inside, _ => by
    have hinside := inside.branch
    have hbranch : ∀ side, Branch.Like b c (if key = side then 1 else 0)
        (Branch.under side none (before ++ .attribute key value span :: after))
        (Branch.under side none (before ++ .attribute key other span :: after)) := by
      intro side
      rw [Branch.under_eq, Branch.under_eq]
      rcases Attributes.get?_exchanged before after key value other span side with
        hsame | ⟨rfl, hfound, hfound'⟩
      · rw [hsame]
        exact (Branch.Like.refl b c _).mono (Nat.zero_le _)
      · rw [hfound, hfound', if_pos rfl]
        exact hinside
    -- A value stands under one key, so only one of the branches is another one.
    refine ⟨0, _, _, ?_, ?_, hbranch _, hbranch _⟩
    · by_cases hyes : key = Side.yes.key
      · subst hyes
        decide
      · rw [if_neg hyes]
        split <;> omega
    · rw [ofStatements_append, ofStatements_append]
      exact .refl b c _

/-- The branch that a value is after an exchange. -/
theorem Value.Exchanged.branch : ∀ {value other : Value}, Value.Exchanged b c value other →
    Branch.Like b c 1 (Branch.ofValue value) (Branch.ofValue other)
  | _, _, @Value.Exchanged.nested _ _ body other inside => by
    obtain ⟨k, l, m, hsum, hall, -, -⟩ := inside.outlines (Place.noConfusion ·)
    have hempty : other.isEmpty = body.isEmpty := by
      cases inside with
      | here before after => cases before <;> rfl
      | inBlock before after name labels span inner => cases before <;> rfl
      | inAttribute before after key span hidden inner => cases before <;> rfl
    rw [Branch.ofValue, Branch.ofValue, hempty]
    exact .some (inside.finds "column").number? (hall.mono (by omega))
  | _, _, .item before after inside => by
    have hnone : ∀ v, Branch.ofValue (.list (before ++ v :: after)) = none := by
      intro v
      cases before <;> rfl
    rw [hnone, hnone]
    exact .none 1
  | _, _, @Value.Exchanged.entry _ _ value other before after key inside => by
    have hempty : ∀ v, (before ++ (key, v) :: after).isEmpty = false := by
      intro v
      cases before <;> rfl
    rw [Branch.ofValue, Branch.ofValue, hempty, hempty]
    refine .some ?_ (.nil 1)
    rcases Table.get?_exchanged before after key value other "column" with
      hsame | ⟨-, hfound, hfound'⟩
    · rw [hsame]
    · rw [hfound, hfound']
      exact inside.not_single.2.2.2.trans inside.not_single.2.2.1.symm

end

/-! ## Roots -/

/-- The blocks with a name are related one by one if the bodies of those with an exchange inside
are. -/
theorem Exchanged.blocksCalled {name : String} (h : Exchanged b c place body other)
    (hb : b.name ≠ name) (hc : c.name ≠ name) {R : Block → Block → Prop} (same : ∀ x, R x x)
    (inside : ∀ {labels span body other}, Exchanged b c (place.inside name) body other →
      R ⟨name, labels, body, span⟩ ⟨name, labels, other, span⟩) :
    List.Forall₂ R ((body.filterMap Statement.block?).filter (·.name = name))
      ((other.filterMap Statement.block?).filter (·.name = name)) := by
  -- One statement adds its own blocks of the name to those before and behind it.
  have happend : ∀ (before after : List Statement) (s : Statement),
      ((before ++ s :: after).filterMap Statement.block?).filter (·.name = name) =
        (before.filterMap Statement.block?).filter (·.name = name) ++
          (s.block?.toList.filter (·.name = name) ++
            (after.filterMap Statement.block?).filter (·.name = name)) := by
    intro before after s
    have hcons : (s :: after).filterMap Statement.block? =
        s.block?.toList ++ after.filterMap Statement.block? := by
      rw [List.filterMap_cons]
      cases s.block? <;> rfl
    rw [List.filterMap_append, hcons, List.filter_append, List.filter_append]
  -- So it is enough to compare the statement in which the exchange is.
  have hone : ∀ (before after : List Statement) {s s' : Statement},
      List.Forall₂ R (s.block?.toList.filter (·.name = name))
        (s'.block?.toList.filter (·.name = name)) →
      List.Forall₂ R (((before ++ s :: after).filterMap Statement.block?).filter (·.name = name))
        (((before ++ s' :: after).filterMap Statement.block?).filter (·.name = name)) := by
    intro before after s s' h
    rw [happend, happend]
    have hsame : ∀ xs : List Block, List.Forall₂ R xs xs := fun xs =>
      List.forall₂_same.mpr fun x _ => same x
    exact List.rel_append (hsame _) (List.rel_append h (hsame _))
  cases h with
  | here before after =>
    refine hone before after ?_
    -- The blocks that are exchanged have other names.
    have hnone : ∀ {x : Block}, x.name ≠ name →
        x.statement.block?.toList.filter (·.name = name) = [] := by
      intro x hx
      exact List.filter_eq_nil_iff.mpr fun y hy hname => by
        obtain rfl := List.mem_singleton.mp hy
        exact hx (of_decide_eq_true hname)
    rw [hnone hb, hnone hc]
    exact .nil
  | inBlock before after n labels span hinside =>
    refine hone before after ?_
    by_cases hn : n = name
    · subst hn
      have hself : ∀ body, (Statement.block n labels body span).block?.toList.filter
          (·.name = n) = [⟨n, labels, body, span⟩] := fun body => by simp [Statement.block?]
      rw [hself, hself]
      exact .cons (inside hinside) .nil
    · have hnone : ∀ body, (Statement.block n labels body span).block?.toList.filter
          (·.name = name) = [] := fun body => by simp [Statement.block?, hn]
      rw [hnone, hnone]
      exact .nil
  | inAttribute before after key span hidden hinside => exact hone before after .nil

/-- Roots after an exchange. -/
theorem Exchanged.rootLike (h : Exchanged b c .root body other) (hb : b.name = "question")
    (hc : c.name = "action") (labels : List String) (span : Span) :
    Block.RootLike b c 1 ⟨"drakon", labels, body, span⟩ ⟨"drakon", labels, other, span⟩ := by
  have hnames : ∀ {name : String}, name ≠ "question" → name ≠ "action" →
      b.name ≠ name ∧ c.name ≠ name := fun hq ha =>
    ⟨fun h => hq (h.symm.trans hb), fun h => ha (h.symm.trans hc)⟩
  have hattach := hnames (by decide : "attach" ≠ "question") (by decide)
  have hnote := hnames (by decide : "note" ≠ "question") (by decide)
  have hline := hnames (by decide : "line" ≠ "question") (by decide)
  obtain ⟨k, l, m, hsum, hall, -, -⟩ := h.outlines (Place.noConfusion ·)
  refine ⟨rfl, (h.finds "title").trimmed?, ?_, hall.mono (by omega), ?_, ?_, ?_⟩
  · -- The value of the parameters is shown.
    rcases h.finds "parameters" with hsame | ⟨_, _, -, -, hidden, -⟩
    · exact hsame
    · exact absurd rfl hidden
  · exact h.blocksCalled hattach.1 hattach.2 (fun _ => ⟨rfl, rfl⟩) fun inside =>
      ⟨(inside.finds "target").trimmed?, rfl⟩
  · exact h.blocksCalled hnote.1 hnote.2 (fun _ => ⟨rfl, rfl⟩) fun inside =>
      ⟨(inside.finds "attaches_to").text?, rfl⟩
  · exact h.blocksCalled hline.1 hline.2 (fun _ => ⟨rfl, rfl⟩) fun inside =>
      ⟨inside.attributes_eq, rfl⟩

/-- The root is the same, or the exchange is in its body. -/
theorem Exchanged.rootBlock? (h : Exchanged b c .document body other) (hb : b.name ≠ "drakon")
    (hc : c.name ≠ "drakon") :
    rootBlock? other = rootBlock? body ∨ ∃ labels span inner inner',
      rootBlock? body = some ⟨"drakon", labels, inner, span⟩ ∧
      rootBlock? other = some ⟨"drakon", labels, inner', span⟩ ∧
      Exchanged b c .root inner inner' := by
  have hblocks := h.blocksCalled hb hc
    (R := fun x y => y = x ∨ ∃ labels span inner inner', x = ⟨"drakon", labels, inner, span⟩ ∧
      y = ⟨"drakon", labels, inner', span⟩ ∧ Exchanged b c .root inner inner')
    (fun _ => .inl rfl) fun inside => .inr ⟨_, _, _, _, rfl, rfl, inside⟩
  unfold Flowchart.rootBlock?
  rw [← List.head?_filter, ← List.head?_filter]
  generalize (body.filterMap Statement.block?).filter (·.name = "drakon") = blocks at hblocks ⊢
  generalize (other.filterMap Statement.block?).filter (·.name = "drakon") = others at hblocks ⊢
  cases hblocks with
  | nil => exact .inl rfl
  | cons first _ =>
    rcases first with rfl | ⟨labels, span, inner, inner', rfl, rfl, inside⟩
    · exact .inl rfl
    · exact .inr ⟨labels, span, inner, inner', rfl, rfl, inside⟩

end Flowchart
