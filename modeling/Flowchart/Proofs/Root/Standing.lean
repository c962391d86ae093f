import Flowchart.Proofs.Draft.Frame

/-!
# Where blocks stand

Building a root comes to the blocks that stand in it: those directly in its body, those in a lane of
it, those in the branch of a question that counts, those in a choice or one of its arms, and those
in a loop. `Stands` says which blocks these are, by the outlines alone; it does not ask whether a
block is refused. A block in any other place, such as the body of an action, stands nowhere.

What a block becomes depends on what holds it (`Holder.kind?`): a line is an icon in an arm and is
none in a lane.
-/

namespace Flowchart

/-- What directly holds a block. -/
inductive Holder where
  /-- The root. -/
  | root
  /-- A lane of the root. -/
  | lane
  /-- The branch of a question that counts. -/
  | branch
  /-- A choice. -/
  | choice
  /-- An arm of a choice. -/
  | arm
  /-- A loop. -/
  | loop
  deriving DecidableEq

/-- The kind of the icon that a block of this name becomes, if it becomes one. -/
def Holder.kind? (s : Holder) (name : String) : Option NodeKind :=
  match s with
  | .root => if name = "lane" ∨ isRootOnly name then none else some (.ofName name)
  | .lane | .branch => if isRootOnly name then none else some (.ofName name)
  | .choice => some ((ArmKind.ofName? name).elim (.ofName name) ArmKind.nodeKind)
  | .arm | .loop => some (.ofName name)

/-- The branch of a question that counts: something is written in it, and nothing in the other one. -/
structure Outline.Uses (q : Outline) (side : Side) (b : Branch) : Prop where
  /-- It is the branch of this side. -/
  branch : q.branch side = some b
  /-- Something is written in it. -/
  written : b.isWritten = true
  /-- Nothing is written in the branch of the other side. -/
  alone : ∀ other, q.branch side.opposite = some other → other.isWritten = false

/-- A block directly holds another one. What holds each of the two stands beside it. -/
inductive Inside : Holder → Outline → Holder → Outline → Prop
  /-- A block of a lane of the root. -/
  | lane {lane o : Outline} (name : lane.block.name = "lane") (child : o ∈ lane.children) :
      Inside .root lane .lane o
  /-- A block of the branch that counts. -/
  | branch {s : Holder} {q o : Outline} {side : Side} {b : Branch}
      (name : q.block.name = "question") (uses : q.Uses side b) (icon : o ∈ b.icons) :
      Inside s q .branch o
  /-- A child of a choice. -/
  | choice {s : Holder} {c o : Outline} (name : c.block.name = "choice")
      (child : o ∈ c.children) : Inside s c .choice o
  /-- A block of an arm of a choice. -/
  | arm {a o : Outline} {kind : ArmKind} (named : ArmKind.ofName? a.block.name = some kind)
      (child : o ∈ a.children) : Inside .choice a .arm o
  /-- A block of the body of a loop. -/
  | loop {s : Holder} {l o : Outline} (name : l.block.name = "for_each")
      (child : o ∈ l.children) : Inside s l .loop o

/-- A block is another one or holds it at some depth. -/
inductive Within : Holder → Outline → Holder → Outline → Prop
  /-- The block itself. -/
  | self (s : Holder) (o : Outline) : Within s o s o
  /-- What stands within a block that it directly holds. -/
  | inside {s t u : Holder} {o x y : Outline} (first : Inside s o t x) (rest : Within t x u y) :
      Within s o u y

/-- One of several blocks, all held by the same, is another one or holds it at some depth. -/
def Among (s : Holder) (os : List Outline) (t : Holder) (x : Outline) : Prop :=
  ∃ o ∈ os, Within s o t x

/-- A block stands in a root. -/
def Stands (root : Block) (s : Holder) (o : Outline) : Prop :=
  Among .root root.outline.children s o

/-! ## What blocks of a name hold -/

/-- Only one branch of a question counts. -/
theorem Outline.Uses.eq {q : Outline} {side other : Side} {b c : Branch} (h : q.Uses side b)
    (k : q.Uses other c) : side = other ∧ b = c := by
  have hside : side = other := by
    by_contra hne
    have hopposite : side.opposite = other := by
      cases side <;> cases other <;> first | rfl | exact absurd rfl hne
    have hc := h.alone c (hopposite ▸ k.branch)
    exact Bool.noConfusion (hc.symm.trans k.written)
  subst hside
  exact ⟨rfl, Option.some.inj (h.branch.symm.trans k.branch)⟩

section

variable {s : Holder} {o : Outline}

/-- A lane of the root holds the blocks of its body. -/
theorem inside_lane (name : o.block.name = "lane") {t : Holder} {x : Outline} :
    Inside .root o t x ↔ t = .lane ∧ x ∈ o.children := by
  constructor
  · intro h
    cases h <;> simp_all
  · rintro ⟨rfl, hx⟩
    exact .lane name hx

/-- A question holds the blocks of the branch that counts. -/
theorem inside_question {side : Side} {b : Branch} (name : o.block.name = "question")
    (uses : o.Uses side b) {t : Holder} {x : Outline} :
    Inside s o t x ↔ t = .branch ∧ x ∈ b.icons := by
  constructor
  · intro h
    cases h with
    | branch _ other hx => exact ⟨rfl, (uses.eq other).2 ▸ hx⟩
    | _ => simp_all [ArmKind.ofName?]
  · rintro ⟨rfl, hx⟩
    exact .branch name uses hx

/-- A question no branch of which counts holds nothing. -/
theorem inside_unanswered (name : o.block.name = "question") (unused : ∀ side b, ¬o.Uses side b)
    {t : Holder} {x : Outline} : Inside s o t x ↔ t = .branch ∧ x ∈ ([] : List Outline) := by
  constructor
  · intro h
    cases h with
    | branch _ uses _ => exact absurd uses (unused _ _)
    | _ => simp_all [ArmKind.ofName?]
  · rintro ⟨-, hx⟩
    exact absurd hx List.not_mem_nil

/-- A choice holds its children. -/
theorem inside_choice (name : o.block.name = "choice") {t : Holder} {x : Outline} :
    Inside s o t x ↔ t = .choice ∧ x ∈ o.children := by
  constructor
  · intro h
    cases h <;> simp_all [ArmKind.ofName?]
  · rintro ⟨rfl, hx⟩
    exact .choice name hx

/-- An arm holds the blocks of its body. -/
theorem inside_arm {kind : ArmKind} (named : ArmKind.ofName? o.block.name = some kind)
    {t : Holder} {x : Outline} : Inside .choice o t x ↔ t = .arm ∧ x ∈ o.children := by
  constructor
  · intro h
    cases h <;> simp_all [ArmKind.ofName?]
  · rintro ⟨rfl, hx⟩
    exact .arm named hx

/-- A loop holds the blocks of its body. -/
theorem inside_loop (name : o.block.name = "for_each") {t : Holder} {x : Outline} :
    Inside s o t x ↔ t = .loop ∧ x ∈ o.children := by
  constructor
  · intro h
    cases h <;> simp_all [ArmKind.ofName?]
  · rintro ⟨rfl, hx⟩
    exact .loop name hx

/-- A block that is an icon of its own name and neither question, choice nor loop holds nothing. -/
theorem not_inside (plain : s.kind? o.block.name = some (.ofName o.block.name))
    (question : o.block.name ≠ "question") (choice : o.block.name ≠ "choice")
    (loop : o.block.name ≠ "for_each") (t : Holder) (x : Outline) : ¬Inside s o t x := by
  intro h
  cases h with
  | lane name _ =>
    rw [Holder.kind?, if_pos (.inl name)] at plain
    exact nomatch plain
  | @arm _ _ kind named _ =>
    have hkind : kind.nodeKind = .ofName o.block.name := by
      rw [Holder.kind?, named] at plain
      exact Option.some.inj plain
    have hname := congrArg NodeKind.name hkind
    rw [Draft.name_ofName] at hname
    rw [← hname] at named
    cases kind <;> exact absurd named (by decide)
  | branch name => exact question name
  | choice name => exact choice name
  | loop name => exact loop name

end

/-! ## What stands at any depth -/

/-- Nothing stands among no blocks. -/
theorem among_nil {s t : Holder} {x : Outline} : ¬Among s [] t x := by
  rintro ⟨o, ho, -⟩
  exact absurd ho List.not_mem_nil

/-- What stands among blocks stands within the first or among the others. -/
theorem among_cons {s t : Holder} {o x : Outline} {os : List Outline} :
    Among s (o :: os) t x ↔ Within s o t x ∨ Among s os t x := by
  unfold Among
  exact List.exists_mem_cons_iff _ _ _

/-- A block is itself, or stands among what a block directly holds. -/
theorem within_iff {s t : Holder} {o : Outline} {os : List Outline}
    (holds : ∀ u x, Inside s o u x ↔ u = t ∧ x ∈ os) {u : Holder} {x : Outline} :
    Within s o u x ↔ (u = s ∧ x = o) ∨ Among t os u x := by
  constructor
  · intro h
    cases h with
    | self => exact .inl ⟨rfl, rfl⟩
    | inside first rest =>
      obtain ⟨rfl, hx⟩ := (holds _ _).mp first
      exact .inr ⟨_, hx, rest⟩
  · rintro (⟨rfl, rfl⟩ | ⟨y, hy, hrest⟩)
    · exact .self _ _
    · exact .inside ((holds _ _).mpr ⟨rfl, hy⟩) hrest

/-- Nothing that a block holds is directly in a root. -/
theorem Within.eq_of_root {s : Holder} {o x : Outline} (h : Within s o .root x) :
    s = .root ∧ o = x := by
  generalize ht : Holder.root = t at h
  induction h with
  | self s o => exact ⟨rfl, rfl⟩
  | inside first _ ih =>
    obtain ⟨rfl, -⟩ := ih ht
    subst ht
    exact nomatch first

/-- What stands directly in a root is one of its outlines. -/
theorem Stands.mem_children {root : Block} {o : Outline} (h : Stands root .root o) :
    o ∈ root.outline.children := by
  obtain ⟨child, hchild, hwithin⟩ := h
  exact hwithin.eq_of_root.2 ▸ hchild

end Flowchart
