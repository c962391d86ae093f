import Flowchart.Proofs.Draft.Likeness

/-!
# Placing a question that is refused

A question whose two answers are both written is a problem, and nothing else comes of them: its icon
stands where that of an action would, no branch is placed and no target is kept. So outlines that
are the same, but for such questions in the places of actions (`Outline.Like`), are placed alike
(`placeIcon_alike`). The counter of the relation says how many of these questions there can be, and
as many may be refused.

Each way to place a list of outlines has a lemma for its first one, and the recursion over the
relation puts them together.
-/

namespace Flowchart

/-- The icons of two blocks are known by the same names and show the same text. -/
structure Block.Resembles (b c : Block) : Prop where
  /-- They have the same labels. -/
  labels : c.labels = b.labels
  /-- They stand in the same place. -/
  span : c.span = b.span
  /-- The same text is shown in their icons. -/
  label : ∀ otherwise, c.attributes.label otherwise = b.attributes.label otherwise
  /-- They have the same anchor. -/
  anchor : c.attributes.trimmed? "anchor" = b.attributes.trimmed? "anchor"

/-- A question with both answers written resembles an action. -/
structure Block.Degrades (asked plain : Block) (id : String) : Prop where
  /-- The first block is a question. -/
  question : asked.name = "question"
  /-- The second one is an action. -/
  action : plain.name = "action"
  /-- Its label is its id. -/
  labelled : asked.label? = some id
  /-- They are the same otherwise. -/
  resembles : asked.Resembles plain
  /-- Something is written in both branches of the question. -/
  answers : ∀ side, ∃ b, asked.outline.branch side = some b ∧ b.isWritten = true

/-- What is refused is a question whose two answers are both written. -/
def Block.refusal (asked : Block) (id : String) : Refusal := ⟨id, asked.span⟩

mutual

/-- Two outlines are the same, as far as placing reads them, but for questions in the place of
actions; up to `n` of them, counted where they stand. -/
inductive Outline.Like (asked plain : Block) : Nat → Outline → Outline → Prop
  /-- The question against the action. -/
  | degraded {n : Nat} (count : 1 ≤ n) : Outline.Like asked plain n asked.outline plain.outline
  /-- Blocks that look the same and hold outlines that are the same. -/
  | block {k l m n : Nat} {b c : Block} {children others : List Outline}
      {yes no yes' no' : Option Branch} (resembles : b.Resembles c) (name : c.name = b.name)
      (next : c.attributes.trimmed? "next" = b.attributes.trimmed? "next")
      (inside : Outline.AllLike asked plain k children others)
      (yesLike : Branch.Like asked plain l yes yes') (noLike : Branch.Like asked plain m no no')
      (count : k + l + m ≤ n) :
      Outline.Like asked plain n (.mk b children yes no) (.mk c others yes' no')

/-- Outlines are the same one by one. -/
inductive Outline.AllLike (asked plain : Block) : Nat → List Outline → List Outline → Prop
  /-- No outlines. -/
  | nil (n : Nat) : Outline.AllLike asked plain n [] []
  /-- Outlines that are the same, and others behind them. -/
  | cons {l m n : Nat} {o p : Outline} {os ps : List Outline}
      (first : Outline.Like asked plain l o p) (rest : Outline.AllLike asked plain m os ps)
      (count : l + m ≤ n) : Outline.AllLike asked plain n (o :: os) (p :: ps)

/-- There is no branch, or the branches ask for the same column and hold outlines that are the
same. -/
inductive Branch.Like (asked plain : Block) : Nat → Option Branch → Option Branch → Prop
  /-- No branches. -/
  | none (n : Nat) : Branch.Like asked plain n none none
  /-- Branches that ask for the same column and hold outlines that are the same. -/
  | some {n : Nat} {isWritten : Bool} {attributes others : Attributes}
      {icons icons' : List Outline}
      (column : (others.get? "column").bind Value.number? =
        (attributes.get? "column").bind Value.number?)
      (inside : Outline.AllLike asked plain n icons icons') :
      Branch.Like asked plain n (some (.mk isWritten attributes icons))
        (some (.mk isWritten others icons'))

end

/-- Blocks that resemble each other are known by the same label. -/
theorem Block.Resembles.label?_eq {b c : Block} (h : b.Resembles c) : c.label? = b.label? :=
  congrArg List.head? h.labels

/-- The nodes of blocks that resemble each other. -/
theorem Block.Resembles.node {b c : Block} (h : b.Resembles c) (kind other : NodeKind)
    (hkind : other.unasked = kind.unasked) (id : String) (column : Nat) :
    (c.node other id column).face = (b.node kind id column).face ∧
      (c.node other id column).block.span = (b.node kind id column).block.span ∧
      Draft.namesOf (c.node other id column) = Draft.namesOf (b.node kind id column) := by
  refine ⟨?_, h.span, ?_⟩
  · unfold Node.face Block.node
    rw [hkind, h.label]
  · unfold Draft.namesOf Block.node
    rw [h.labels, h.anchor]

/-- A question or an action is no block of the root, and the same block is one in both outlines. -/
theorem Outline.Like.isRootOnly_eq {asked plain : Block} {id : String}
    (hq : asked.Degrades plain id) {k : Nat} {o p : Outline} (h : Outline.Like asked plain k o p) :
    isRootOnly p.block.name = isRootOnly o.block.name ∧
      (isRootOnly o.block.name = true →
        p.block.name = o.block.name ∧ p.block.span = o.block.span) := by
  cases h with
  | degraded =>
    have hasked : isRootOnly asked.name = false := hq.question ▸ rfl
    have hplain : isRootOnly plain.name = false := hq.action ▸ rfl
    exact ⟨hplain.trans hasked.symm, fun h => absurd (hasked.symm.trans h) Bool.false_ne_true⟩
  | block resembles name => exact ⟨congrArg isRootOnly name, fun _ => ⟨name, resembles.span⟩⟩

/-- Outlines that are the same one by one are as many. -/
theorem Outline.AllLike.isEmpty_eq {asked plain : Block} {k : Nat} {os os' : List Outline}
    (h : AllLike asked plain k os os') : os'.isEmpty = os.isEmpty := by
  cases h <;> rfl

namespace Draft

variable {asked plain : Block} {id : String} {refusal : Refusal} {k l m : Nat}

/-- Two steps make drafts alike of drafts that are, and have the same outcome. The first one may
refuse the question up to `k` times more. -/
def Likewise {α : Type} (refusal : Refusal) (k : Nat) (f g : Draft → Draft × α) : Prop :=
  ∀ ⦃n : Nat⦄ ⦃d e : Draft⦄, Alike refusal n d e →
    Alike refusal (n + k) (f d).1 (g e).1 ∧ (g e).2 = (f d).2

/-- Two steps without an outcome make drafts alike of drafts that are. -/
def LikewiseOnly (refusal : Refusal) (k : Nat) (f g : Draft → Draft) : Prop :=
  ∀ ⦃n : Nat⦄ ⦃d e : Draft⦄, Alike refusal n d e → Alike refusal (n + k) (f d) (g e)

/-- What the answers of two questions lead to is placed alike, if it is there. -/
def BranchesLikewise (refusal : Refusal) (k : Nat) (b b' : Option Branch) : Prop :=
  b = none ∧ b' = none ∨ ∃ x y, b = some x ∧ b' = some y ∧ y.isWritten = x.isWritten ∧
    ∀ a, LikewiseOnly refusal k (placeBranch x a) (placeBranch y a)

/-- Lists of blocks are placed alike as the children of a choice. -/
def ArmsLikewise (refusal : Refusal) (k : Nat) (os os' : List Outline) : Prop :=
  ∀ choice column isFirst arms, Likewise refusal k (placeArms os choice column isFirst arms)
    (placeArms os' choice column isFirst arms)

/-- Two children of a choice open no arms, or the same arm with blocks that are placed alike. -/
def OpensLikewise (refusal : Refusal) (k : Nat) (o o' : Outline) : Prop :=
  ArmKind.ofName? o.block.name = none ∧ ArmKind.ofName? o'.block.name = none ∨
    o.block.Resembles o'.block ∧ o'.block.name = o.block.name ∧
      o'.block.attributes.trimmed? "next" = o.block.attributes.trimmed? "next" ∧
      ∀ column, Likewise refusal k (placeInArm o.children column none)
        (placeInArm o'.children column none)

/-- The question in the place of the action reports the problem if it is taken in, and nothing else
comes of it. -/
theorem placeIcon_degraded (hq : asked.Degrades plain id) (column : Nat) :
    Likewise (asked.refusal id) 1 (placeIcon asked.outline column)
      (placeIcon plain.outline column) := by
  intro n d e h
  have hasked : isReserved asked.name = false := hq.question ▸ rfl
  have hplain : isReserved plain.name = false := hq.action ▸ rfl
  have hquestion : NodeKind.ofName asked.name = .question := hq.question ▸ rfl
  have haction : NodeKind.ofName plain.name = .action := hq.action ▸ rfl
  have hlabelled : plain.label? = some id := hq.resembles.label?_eq.trans hq.labelled
  obtain ⟨y, hy, hyes⟩ := hq.answers .yes
  obtain ⟨x, hx, hno⟩ := hq.answers .no
  have hy : Branch.under Side.yes.key none asked.body = some y := hy
  have hx : Branch.under Side.no.key none asked.body = some x := hx
  obtain ⟨hface, hspan, hnames⟩ := hq.resembles.node .question .action rfl id column
  obtain ⟨entered, other, isNew, hd, he, hregister⟩ :=
    h.exists_register_refused hface rfl rfl hspan hnames
  rw [Block.outline, Block.outline, placeIcon, placeIcon, hasked, hplain, hquestion, haction,
    hq.labelled, hlabelled, hy, hx]
  simp only [Bool.false_eq_true, if_false, Option.getD_some]
  rw [hd, he]
  cases isNew with
  | false => exact ⟨hregister, rfl⟩
  | true =>
    simp only [hyes, hno, Bool.not_true, Bool.false_eq_true, if_false, Bool.and_self, if_true]
    exact ⟨hregister, trivial⟩

/-- Blocks that are the same are placed alike when what they hold is. -/
theorem placeIcon_block {b c : Block} {children others : List Outline}
    {yes no yes' no' : Option Branch} (resembles : b.Resembles c) (name : c.name = b.name)
    (next : c.attributes.trimmed? "next" = b.attributes.trimmed? "next")
    (hempty : others.isEmpty = children.isEmpty)
    (hall : ∀ column, LikewiseOnly refusal k (placeAll children column) (placeAll others column))
    (harms : ArmsLikewise refusal k children others) (hyes : BranchesLikewise refusal l yes yes')
    (hno : BranchesLikewise refusal m no no') (column : Nat) :
    Likewise refusal (k + l + m) (placeIcon (.mk b children yes no) column)
      (placeIcon (.mk c others yes' no') column) := by
  intro n d e h
  rw [placeIcon, placeIcon, name, resembles.span, next]
  cases isReserved b.name with
  | true =>
    simp only [if_true]
    exact ⟨(h.report _ _).mono (Nat.le_add_right _ _), trivial⟩
  | false =>
    simp only [Bool.false_eq_true, if_false]
    rw [resembles.label?_eq, h.columnIds]
    generalize b.label?.getD _ = i
    generalize NodeKind.ofName b.name = kind
    obtain ⟨hface, hspan, hnames⟩ := resembles.node kind kind rfl i column
    obtain ⟨entered, other, isNew, hd, he, hregister⟩ :=
      h.exists_register hface rfl hspan hnames .back
    rw [hd, he]
    cases isNew with
    | false => exact ⟨hregister.mono (Nat.le_add_right _ _), rfl⟩
    | true =>
      simp only [Bool.not_true, Bool.false_eq_true, if_false] at hregister ⊢
      refine ⟨?_, trivial⟩
      cases kind with
      | question =>
        -- Which of the branches is placed, and which one first, is the same in both.
        rcases hyes with ⟨rfl, rfl⟩ | ⟨y, y', rfl, rfl, hy, hyes⟩
        · rcases hno with ⟨rfl, rfl⟩ | ⟨x, x', rfl, rfl, -, hno⟩
          · exact (hregister.keepFork _ _ _).mono (Nat.le_add_right _ _)
          · exact (hno _ hregister).mono (by omega)
        · rcases hno with ⟨rfl, rfl⟩ | ⟨x, x', rfl, rfl, hx, hno⟩
          · exact (hyes _ hregister).mono (by omega)
          · dsimp only
            rw [hy, hx]
            split
            · exact (hregister.report _ _).mono (Nat.le_add_right _ _)
            · split
              · exact (hyes _ (hno _ hregister)).mono (by omega)
              · exact (hno _ (hyes _ hregister)).mono (by omega)
      | choice =>
        obtain ⟨harms, hsame⟩ := harms i column true [] (hregister.keepChoiceNext i
          (b.attributes.trimmed? "next") b.span)
        dsimp only
        rw [hsame]
        exact (harms.keepArms _).mono (by omega)
      | forEach =>
        dsimp only
        rw [hempty]
        split
        · exact hregister.mono (Nat.le_add_right _ _)
        · exact ((hall column hregister).closeLoop i column).mono (by omega)
      | _ => exact hregister.mono (Nat.le_add_right _ _)

/-- The first child of a choice is placed as an icon, or with the arm that it opens. -/
theorem armsLikewise_cons {o o' : Outline} {os os' : List Outline}
    (hicon : ∀ column, Likewise refusal l (placeIcon o column) (placeIcon o' column))
    (hopens : OpensLikewise refusal l o o') (hrest : ArmsLikewise refusal m os os') :
    ArmsLikewise refusal (l + m) (o :: os) (o' :: os') := by
  intro choice column isFirst arms n d e h
  obtain ⟨b, children, yes, no⟩ := o
  obtain ⟨c, others, yes', no'⟩ := o'
  have hplaced := hrest choice column false arms (hicon column h).1
  simp only [OpensLikewise, Outline.block, Outline.children] at hopens
  rw [placeArms, placeArms, ← Nat.add_assoc]
  -- The question and the action open no arm, and other blocks open the same.
  rcases hopens with ⟨hnone, hnone'⟩ | ⟨resembles, name, next, hinside⟩
  · rw [hnone, hnone']
    exact hplaced
  · rw [name, next, resembles.span, resembles.label?_eq]
    cases ArmKind.ofName? b.name with
    | none => exact hplaced
    | some kind =>
      have hopen : (if isFirst then (column, e) else e.openColumn).1 =
          (if isFirst then (column, d) else d.openColumn).1 ∧
          Alike refusal n (if isFirst then (column, d) else d.openColumn).2
            (if isFirst then (column, e) else e.openColumn).2 := by
        split
        · exact ⟨rfl, h⟩
        · exact h.openColumn
      dsimp only
      generalize (if isFirst then (column, d) else d.openColumn) = x at hopen ⊢
      generalize (if isFirst then (column, e) else e.openColumn) = y at hopen ⊢
      obtain ⟨armColumn, opened⟩ := x
      obtain ⟨armColumn', opened'⟩ := y
      obtain ⟨rfl, hopen⟩ := hopen
      dsimp only at hopen ⊢
      generalize b.label?.getD _ = i
      obtain ⟨hface, hspan, hnames⟩ :=
        resembles.node kind.nodeKind kind.nodeKind rfl i armColumn'
      obtain ⟨entered, entered', isNew, hd, he, hregister⟩ :=
        hopen.exists_register hface rfl hspan hnames .back
      rw [hd, he]
      cases isNew with
      | false => exact hrest choice column false arms (hregister.mono (Nat.le_add_right _ _))
      | true =>
        obtain ⟨hbody, hend⟩ := hinside armColumn' hregister
        simp only [Bool.not_true, Bool.false_eq_true, if_false]
        rw [hend]
        exact hrest choice column false _ hbody

/-- Branches that ask for the same column are placed alike when what they hold is. -/
theorem placeBranch_some {isWritten : Bool} {attributes others : Attributes}
    {icons icons' : List Outline}
    (column : (others.get? "column").bind Value.number? =
      (attributes.get? "column").bind Value.number?)
    (hempty : icons'.isEmpty = icons.isEmpty)
    (hinside : ∀ a column, LikewiseOnly refusal k (placeInBranch icons a column)
      (placeInBranch icons' a column)) (a : Answer) :
    LikewiseOnly refusal k (placeBranch (.mk isWritten attributes icons) a)
      (placeBranch (.mk isWritten others icons') a) := by
  intro n d e h
  rw [placeBranch, placeBranch, hempty]
  split
  · exact (h.report _ _).mono (Nat.le_add_right _ _)
  · split
    · exact (h.keepFork _ _ _).mono (Nat.le_add_right _ _)
    · obtain ⟨hcolumn, hopened⟩ := h.branchColumn a column
      dsimp only
      rw [hcolumn, hopened.columnIds]
      exact (hinside a _ hopened).closeBranch a _ _

/-- A block is refused in both drafts as one that belongs to the root, or placed in both. -/
theorem placeUnlessRootOnly_alike {o o' : Outline}
    (hroot : isRootOnly o'.block.name = isRootOnly o.block.name ∧
      (isRootOnly o.block.name = true →
        o'.block.name = o.block.name ∧ o'.block.span = o.block.span))
    (hicon : ∀ column, Likewise refusal l (placeIcon o column) (placeIcon o' column))
    (fault : String → BuildFault) (column : Nat) :
    LikewiseOnly refusal l
      (fun d => if isRootOnly o.block.name then d.report (fault o.block.name) o.block.span
        else (placeIcon o column d).1)
      (fun d => if isRootOnly o'.block.name then d.report (fault o'.block.name) o'.block.span
        else (placeIcon o' column d).1) := by
  intro n d e h
  obtain ⟨hroot, hname⟩ := hroot
  dsimp only
  rw [hroot]
  cases hrootOnly : isRootOnly o.block.name with
  | true =>
    obtain ⟨hname, hspan⟩ := hname hrootOnly
    simp only [if_true]
    rw [hname, hspan]
    exact (h.report _ _).mono (Nat.le_add_right _ _)
  | false => exact (hicon column h).1

/-- The first block of an arm. -/
theorem placeInArm_cons {o o' : Outline} {os os' : List Outline}
    (hicon : ∀ column, Likewise refusal l (placeIcon o column) (placeIcon o' column))
    (hrest : ∀ column last, Likewise refusal m (placeInArm os column last)
      (placeInArm os' column last)) (column : Nat) (last : Option String) :
    Likewise refusal (l + m) (placeInArm (o :: os) column last)
      (placeInArm (o' :: os') column last) := by
  intro n d e h
  obtain ⟨hicon, hid⟩ := hicon column h
  rw [placeInArm, placeInArm]
  dsimp only
  rw [hid, ← Nat.add_assoc]
  exact hrest column _ hicon

/-- More refusals may be allowed for than there are. -/
theorem Likewise.mono {α : Type} {f g : Draft → Draft × α} (h : Likewise refusal k f g)
    (count : k ≤ l) : Likewise refusal l f g := fun _ _ _ hd =>
  ⟨(h hd).1.mono (Nat.add_le_add_left count _), (h hd).2⟩

/-- More refusals may be allowed for among the children of a choice. -/
theorem ArmsLikewise.mono {os os' : List Outline} (h : ArmsLikewise refusal k os os')
    (count : k ≤ l) : ArmsLikewise refusal l os os' := fun choice column isFirst arms =>
  Likewise.mono (h choice column isFirst arms) count

open Outline

mutual

/-- Outlines that are the same, but for questions in the place of actions, are placed alike. -/
theorem placeIcon_alike (hq : asked.Degrades plain id) : ∀ {k : Nat} {o o' : Outline},
    Outline.Like asked plain k o o' →
      ∀ column, Likewise (asked.refusal id) k (placeIcon o column) (placeIcon o' column)
  | _, _, _, .degraded count, column => (placeIcon_degraded hq column).mono count
  | _, _, _, .block resembles name next inside yesLike noLike count, column =>
    (placeIcon_block resembles name next inside.isEmpty_eq (placeAll_alike hq inside)
      (placeArms_alike hq inside) (placeBranch_alike hq yesLike) (placeBranch_alike hq noLike)
      column).mono count

/-- Placing blocks one below the other. -/
theorem placeAll_alike (hq : asked.Degrades plain id) : ∀ {k : Nat} {os os' : List Outline},
    AllLike asked plain k os os' →
      ∀ column, LikewiseOnly (asked.refusal id) k (placeAll os column) (placeAll os' column)
  | _, _, _, .nil _, _ => fun _ _ _ h => h.mono (Nat.le_add_right _ _)
  | _, _, _, .cons first rest count, column => fun _ _ _ h =>
    (placeAll_alike hq rest column (placeIcon_alike hq first column h).1).mono (by omega)

/-- Placing the children of a choice. -/
theorem placeArms_alike (hq : asked.Degrades plain id) : ∀ {k : Nat} {os os' : List Outline},
    AllLike asked plain k os os' → ArmsLikewise (asked.refusal id) k os os'
  | _, _, _, .nil _ => fun _ _ _ _ _ _ _ h => ⟨h.mono (Nat.le_add_right _ _), rfl⟩
  | _, _, _, .cons first rest count =>
    (armsLikewise_cons (placeIcon_alike hq first) (opensLikewise hq first)
      (placeArms_alike hq rest)).mono count

/-- Placing the blocks of an arm, if a block opens one. -/
theorem opensLikewise (hq : asked.Degrades plain id) : ∀ {k : Nat} {o o' : Outline},
    Outline.Like asked plain k o o' → OpensLikewise (asked.refusal id) k o o'
  | _, _, _, .degraded _ =>
    .inl ⟨congrArg ArmKind.ofName? hq.question, congrArg ArmKind.ofName? hq.action⟩
  | _, _, _, .block resembles name next inside _ _ count =>
    .inr ⟨resembles, name, next, fun column =>
      (placeInArm_alike hq inside column none).mono (by omega)⟩

/-- Placing what an answer leads to. -/
theorem placeBranch_alike (hq : asked.Degrades plain id) : ∀ {k : Nat} {b b' : Option Branch},
    Branch.Like asked plain k b b' → BranchesLikewise (asked.refusal id) k b b'
  | _, _, _, .none _ => .inl ⟨rfl, rfl⟩
  | _, _, _, .some column inside => .inr ⟨_, _, rfl, rfl, rfl,
      placeBranch_some column inside.isEmpty_eq (placeInBranch_alike hq inside)⟩

/-- Placing the blocks of a branch. -/
theorem placeInBranch_alike (hq : asked.Degrades plain id) : ∀ {k : Nat} {os os' : List Outline},
    AllLike asked plain k os os' → ∀ a column, LikewiseOnly (asked.refusal id) k
      (placeInBranch os a column) (placeInBranch os' a column)
  | _, _, _, .nil _, _, _ => fun _ _ _ h => h.mono (Nat.le_add_right _ _)
  | _, _, _, .cons first rest count, a, column => fun _ _ _ h =>
    (placeInBranch_alike hq rest a column (placeUnlessRootOnly_alike (first.isRootOnly_eq hq)
      (placeIcon_alike hq first) (.unsupportedInBranch · a.side a.question) column h)).mono
        (by omega)

/-- Placing the blocks of an arm. -/
theorem placeInArm_alike (hq : asked.Degrades plain id) : ∀ {k : Nat} {os os' : List Outline},
    AllLike asked plain k os os' → ∀ column last, Likewise (asked.refusal id) k
      (placeInArm os column last) (placeInArm os' column last)
  | _, _, _, .nil _, _, _ => fun _ _ _ h => ⟨h.mono (Nat.le_add_right _ _), rfl⟩
  | _, _, _, .cons first rest count, column, last =>
    (placeInArm_cons (placeIcon_alike hq first) (placeInArm_alike hq rest) column last).mono count

end

end Draft

end Flowchart
