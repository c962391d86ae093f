import Flowchart.Proofs.Draft.Places
import Flowchart.Proofs.Root.Standing

/-!
# Placing covers the blocks that stand

`Covers` says what placing blocks does to a draft as far as the blocks are concerned: every new node
is the icon of one of them or closes a loop, and when no problem is noted, each of them that becomes
an icon has one. The blocks are those that stand in the outlines that are placed, no more and no
less. This is shown for the recursion on outlines (`placeIcon_covers` and its companions) and for
the blocks of a root (`written_covers`).
-/

namespace Flowchart

namespace Draft

/-! ## What is shown -/

/-- A new node is accounted for: it is the icon of a block, or it closes a loop. When it is a
question, the blocks that must not stand in its branch are reported. -/
inductive Accounted (P : Holder → Outline → Prop) (problems : List BuildProblem) (origin : Origin) :
    Prop
  /-- It is the icon of one of the blocks. -/
  | icon {s : Holder} {o : Outline} (own : P s o)
      (becomes : s.kind? o.block.name = some origin.kind) (block : origin.block = o.block)
      (reported : origin.kind = .question → ∀ side b, o.Uses side b → ∀ x ∈ b.icons,
        isRootOnly x.block.name = true →
          ⟨.unsupportedInBranch x.block.name side origin.id, x.block.span⟩ ∈ problems)
  /-- It closes a loop. -/
  | loopEnd (kind : origin.kind = .loopEnd) (block : origin.block = .synthetic "loop_end" origin.id)

/-- A block has the icon that it becomes, or it becomes none and is directly in the root. -/
inductive Depicted (d : Draft) (s : Holder) (o : Outline) : Prop
  /-- The block has an icon of the right kind. -/
  | icon {origin : Origin} (mem : origin ∈ d.diagram.origins)
      (becomes : s.kind? o.block.name = some origin.kind) (block : origin.block = o.block)
  /-- The block is directly in the root and becomes no icon. -/
  | elsewhere (root : s = .root) (becomes : s.kind? o.block.name = none)

/-- Placing leads from one draft to another and covers some blocks. -/
structure Covers (P : Holder → Outline → Prop) (d e : Draft) : Prop where
  /-- No problem is taken back. -/
  problems : d.problems <+: e.problems
  /-- Nodes are added behind the others, and each of them is accounted for. -/
  origins : ∃ new, e.diagram.origins = d.diagram.origins ++ new ∧
    ∀ origin ∈ new, Accounted P e.problems origin
  /-- When no problem is noted, each of the blocks is depicted. -/
  depicted : e.problems = d.problems → ∀ s o, P s o → e.Depicted s o

section

variable {P Q R : Holder → Outline → Prop} {d e f : Draft}

/-- What accounts for a node does so among more blocks and with more problems. -/
theorem Accounted.mono {problems more : List BuildProblem} {origin : Origin}
    (hP : ∀ s o, P s o → Q s o) (hsub : problems ⊆ more) (h : Accounted P problems origin) :
    Accounted Q more origin := by
  cases h with
  | icon own becomes block reported =>
    exact .icon (hP _ _ own) becomes block fun hk side b hb x hx hroot =>
      hsub (reported hk side b hb x hx hroot)
  | loopEnd kind block => exact .loopEnd kind block

/-- A block keeps the icon that it has. -/
theorem Depicted.mono {s : Holder} {o : Outline}
    (hsub : d.diagram.origins <+: e.diagram.origins) (h : d.Depicted s o) : e.Depicted s o := by
  cases h with
  | icon mem becomes block => exact .icon (hsub.subset mem) becomes block
  | elsewhere root becomes => exact .elsewhere root becomes

/-- A change that neither notes a problem nor adds a node covers nothing. -/
theorem covers_of_same (problems : e.problems = d.problems)
    (origins : e.diagram.origins = d.diagram.origins) (none : ∀ s o, ¬P s o) : Covers P d e where
  problems := problems ▸ List.prefix_refl _
  origins := ⟨[], origins.trans (List.append_nil _).symm, fun _ h => absurd h List.not_mem_nil⟩
  depicted _ s o h := absurd h (none s o)

/-- Reporting a problem covers whatever it is reported about. -/
theorem covers_report (P : Holder → Outline → Prop) (d : Draft) (fault : BuildFault)
    (span : Span) : Covers P d (d.report fault span) where
  problems := List.prefix_append _ _
  origins := ⟨[], (List.append_nil _).symm, fun _ h => absurd h List.not_mem_nil⟩
  depicted h := absurd (List.append_right_eq_self.mp h) (List.cons_ne_nil _ _)

/-- Placing takes no node back. -/
theorem Covers.prefix_origins (h : Covers P d e) : d.diagram.origins <+: e.diagram.origins := by
  obtain ⟨new, he, -⟩ := h.origins
  exact he ▸ List.prefix_append _ _

/-- One after the other, they cover what both cover. -/
theorem Covers.trans (h : Covers P d e) (k : Covers Q e f)
    (hR : ∀ s o, R s o ↔ P s o ∨ Q s o) : Covers R d f where
  problems := h.problems.trans k.problems
  origins := by
    obtain ⟨new, he, hnew⟩ := h.origins
    obtain ⟨more, hf, hmore⟩ := k.origins
    refine ⟨new ++ more, by rw [hf, he, List.append_assoc], fun origin ho => ?_⟩
    rcases List.mem_append.mp ho with ho | ho
    · exact (hnew origin ho).mono (fun s o hP => (hR s o).mpr (.inl hP)) k.problems.subset
    · exact (hmore origin ho).mono (fun s o hQ => (hR s o).mpr (.inr hQ)) (List.Subset.refl _)
  depicted hsame s o hRo := by
    -- Neither of them has noted a problem.
    have hmiddle : e.problems = d.problems := by
      refine (h.problems.eq_of_length_le ?_).symm
      rw [← hsame]
      exact k.problems.length_le
    rcases (hR s o).mp hRo with hP | hQ
    · exact (h.depicted hmiddle s o hP).mono k.prefix_origins
    · exact k.depicted (hsame.trans hmiddle.symm) s o hQ

/-- What covers nothing may come before. -/
theorem Covers.after (k : Covers Q e f) (h : Covers (fun _ _ => False) d e) : Covers Q d f :=
  h.trans k fun _ _ => by rw [false_or]

/-- What covers nothing may come behind. -/
theorem Covers.before (h : Covers P d e) (k : Covers (fun _ _ => False) e f) : Covers P d f :=
  h.trans k fun _ _ => by rw [or_false]

/-- A change that neither notes a problem nor adds a node may come before. -/
theorem Covers.after_same (k : Covers Q e f) (problems : e.problems = d.problems)
    (origins : e.diagram.origins = d.diagram.origins) : Covers Q d f :=
  k.after (covers_of_same problems origins fun _ _ => id)

/-- A change that neither notes a problem nor adds a node may come behind. -/
theorem Covers.before_same (h : Covers P d e) (problems : f.problems = e.problems)
    (origins : f.diagram.origins = e.diagram.origins) : Covers P d f :=
  h.before (covers_of_same problems origins fun _ _ => id)

/-- Problems may be reported before. -/
theorem Notes.before_covers {t : List Draft} (h : Notes d t e) (k : Covers Q e f) :
    Covers Q d f := by
  induction h with
  | done d => exact k
  | report fault span _ ih => exact (ih k).after (covers_report _ _ fault span)

/-- The icon of a block is entered, and what the block holds is placed behind it. -/
theorem covers_icon {s t : Holder} {o : Outline} {os : List Outline} {node : Node}
    (holds : ∀ u x, Inside s o u x ↔ u = t ∧ x ∈ os)
    (becomes : s.kind? o.block.name = some node.kind) (block : node.block = o.block)
    (body : Covers (Among t os) (d.enter node .back) e)
    (reported : node.kind = .question → ∀ side b, o.Uses side b → ∀ x ∈ b.icons,
      isRootOnly x.block.name = true →
        ⟨.unsupportedInBranch x.block.name side node.id, x.block.span⟩ ∈ e.problems) :
    Covers (Within s o) d e := by
  have hproblems : (d.enter node .back).problems = d.problems := problems_enter d node .back
  have horigins : (d.enter node .back).diagram.origins = d.diagram.origins ++ [node.origin] :=
    origins_enter d node .back
  obtain ⟨more, he, hmore⟩ := body.origins
  have hall : e.diagram.origins = d.diagram.origins ++ node.origin :: more := by
    rw [he, horigins, List.append_assoc, List.singleton_append]
  refine ⟨hproblems ▸ body.problems, ⟨node.origin :: more, hall, fun origin ho => ?_⟩,
    fun hsame u x hx => ?_⟩
  · rcases List.mem_cons.mp ho with rfl | ho
    · exact .icon (.self s o) becomes block reported
    · exact (hmore origin ho).mono (fun u x hx => (within_iff holds).mpr (.inr hx))
        (List.Subset.refl _)
  · rcases (within_iff holds).mp hx with ⟨rfl, rfl⟩ | hx
    · exact .icon (hall ▸ List.mem_append_right _ List.mem_cons_self) becomes block
    · exact body.depicted (hsame.trans hproblems.symm) u x hx

/-- Closing a loop covers nothing. -/
theorem closeLoop_covers (d : Draft) (loop : String) (column : Nat) :
    Covers (fun _ _ => False) d (d.closeLoop loop column) := by
  have hkind : (d.loopEndNode loop column).kind = .loopEnd := rfl
  have hblock : (d.loopEndNode loop column).block =
      .synthetic "loop_end" (d.loopEndNode loop column).id := rfl
  unfold closeLoop
  dsimp only
  generalize d.loopEndNode loop column = node at hkind hblock ⊢
  have hset := origins_setAttribute (d.register node .back).1 loop "loop_end" (.text node.id)
  rcases register_cases d node .back with ⟨first, he, -⟩ | ⟨-, he⟩
  · rw [he] at hset ⊢
    exact (covers_report _ d _ _).before_same rfl hset
  · have hproblems := problems_enter d node .back
    have horigins : (d.enter node .back).diagram.origins = d.diagram.origins ++ [node.origin] :=
      origins_enter d node .back
    rw [he] at hset ⊢
    generalize d.enter node .back = entered at hset hproblems horigins ⊢
    refine ⟨⟨[], (List.append_nil _).trans hproblems.symm⟩,
      ⟨[node.origin], hset.trans horigins, fun origin ho => ?_⟩, fun _ _ _ h => h.elim⟩
    rw [List.mem_singleton.mp ho]
    exact .loopEnd hkind hblock

/-- Keeping a question covers nothing. -/
theorem Covers.keepFork (h : Covers P d e) (a : Answer) (branchEnd : Option String)
    (summary : List (String × Value)) : Covers P d (e.keepFork a branchEnd summary) :=
  h.before_same rfl (origins_setAttribute _ _ _ _)

/-- Closing a branch covers nothing. -/
theorem closeBranch_covers (d : Draft) (a : Answer) (column before : Nat) :
    Covers (fun _ _ => False) d (d.closeBranch a column before) := by
  unfold closeBranch
  cases (d.columnIds column).drop before with
  | nil => exact covers_report _ d _ _
  | cons first rest =>
    have hproblems : (d.linkBranch a first).problems = d.problems := by
      unfold linkBranch
      split <;> rfl
    have hlinked : Covers (fun _ _ => False) d (d.linkBranch a first) :=
      covers_of_same hproblems (sameIcons_linkBranch d a first).origins fun _ _ => id
    exact hlinked.keepFork a _ _

end

/-! ## The recursion -/

/-- The blocks that must not stand in a branch are reported. -/
def ReportsIn (d : Draft) (a : Answer) (icons : List Outline) : Prop :=
  ∀ x ∈ icons, isRootOnly x.block.name = true →
    ⟨.unsupportedInBranch x.block.name a.side a.question, x.block.span⟩ ∈ d.problems

/-- Placing a branch that counts covers its blocks and reports those that must not stand there. -/
def CoversBranch (b : Branch) : Prop :=
  ∀ (a : Answer) (d : Draft), b.isWritten = true →
    Covers (Among .branch b.icons) d (placeBranch b a d) ∧
      ReportsIn (placeBranch b a d) a b.icons

section

variable {s : Holder} {o : Outline} {node : Node} {d e : Draft}
  (question : o.block.name = "question") (becomes : s.kind? o.block.name = some node.kind)
  (block : node.block = o.block)
include question becomes block

/-- A question no branch of which counts covers itself. -/
theorem unanswered_covers (unused : ∀ side b, ¬o.Uses side b)
    (rest : Covers (Among .branch []) (d.enter node .back) e) : Covers (Within s o) d e :=
  covers_icon (fun _ _ => inside_unanswered question unused) becomes block rest
    fun _ side b hb => absurd hb (unused side b)

/-- A question covers itself and the blocks of the branch that is placed last, when nothing is
written in the other one. Before that, problems may be noted. -/
theorem question_covers {b : Branch} {a : Answer} (last : o.branch a.side = some b)
    (alone : ∀ other, o.branch a.side.opposite = some other → other.isWritten = false)
    (asked : a.question = node.id) (branch : CoversBranch b)
    (before : Covers (fun _ _ => False) (d.enter node .back) e) :
    Covers (Within s o) d (placeBranch b a e) := by
  cases hb : b.isWritten with
  | true =>
    have uses : o.Uses a.side b := ⟨last, hb, alone⟩
    obtain ⟨hplaced, hreports⟩ := branch a e hb
    refine covers_icon (fun _ _ => inside_question question uses) becomes block
      (hplaced.after before) fun _ side c hc x hx hroot => ?_
    obtain ⟨rfl, rfl⟩ := uses.eq hc
    exact asked ▸ hreports x hx hroot
  | false =>
    -- Nothing is written in either branch.
    have hunused : ∀ side c, ¬o.Uses side c := by
      intro side c hc
      by_cases hside : side = a.side
      · have hsame := Option.some.inj ((hside ▸ hc.branch).symm.trans last)
        exact Bool.noConfusion ((hsame ▸ hc.written).symm.trans hb)
      · have hopposite : a.side.opposite = side := by
          cases hs : a.side <;> cases side <;> first | rfl | exact absurd hs.symm hside
        exact Bool.noConfusion ((alone c (hopposite ▸ hc.branch)).symm.trans hc.written)
    rw [placeBranch_blank hb]
    exact unanswered_covers question becomes block hunused
      ((covers_report (Among .branch []) e _ _).after before)

end

/-! ## One block -/

section

variable {s : Holder} {o : Outline} {column : Nat} {d : Draft}

/-- What follows the icon of a question covers the question and the branch that counts. -/
theorem FollowsQuestion.covers {t : List Draft} {e : Draft}
    (h : FollowsQuestion o (d.iconId o.block column) (d.entered o.block column) t e)
    (question : o.block.name = "question")
    (hs : s.kind? o.block.name = some (.ofName o.block.name))
    (branch : ∀ side, ∀ b ∈ o.branch side, CoversBranch b) : Covers (Within s o) d e := by
  have becomes : s.kind? o.block.name = some (d.iconNode o.block column).kind := hs
  have block : (d.iconNode o.block column).block = o.block := rfl
  have hnothing : Covers (Among .branch []) (d.entered o.block column)
      (d.entered o.block column) := covers_of_same rfl rfl fun _ _ => among_nil
  cases h with
  | direct unbranched =>
    refine unanswered_covers question becomes block (fun side b hb => ?_)
      (hnothing.keepFork _ none _)
    exact absurd (hb.branch.symm.trans (unbranched side)) (Option.some_ne_none b)
  | @both yes no yes_leads no_leads yes_written no_written =>
    -- Each branch keeps the other one from being used.
    refine unanswered_covers question becomes block (fun side b hb => ?_) (covers_report _ _ _ _)
    cases side with
    | yes => exact Bool.noConfusion (no_written.symm.trans (hb.alone no no_leads))
    | no => exact Bool.noConfusion (yes_written.symm.trans (hb.alone yes yes_leads))
  | only leads alone =>
    exact question_covers question becomes block leads
      (fun _ h => absurd (h.symm.trans alone) (Option.some_ne_none _)) rfl (branch _ _ leads)
      (covers_of_same rfl rfl fun _ _ => id)
  | other leads opposite unwritten =>
    exact question_covers question becomes block leads
      (fun other h => Option.some.inj (opposite.symm.trans h) ▸ unwritten) rfl (branch _ _ leads)
      (covers_report _ _ _ _)

/-- The icon of a block that is no question is entered, and what the block holds is placed behind
it. -/
theorem covers_entered {t : Holder} {os : List Outline} {e : Draft}
    (holds : ∀ u x, Inside s o u x ↔ u = t ∧ x ∈ os)
    (hs : s.kind? o.block.name = some (.ofName o.block.name))
    (body : Covers (Among t os) (d.entered o.block column) e)
    (noQuestion : NodeKind.ofName o.block.name ≠ .question) : Covers (Within s o) d e := by
  have becomes : s.kind? o.block.name = some (d.iconNode o.block column).kind := hs
  exact covers_icon holds becomes rfl body fun question => absurd question noQuestion

/-- Placing a block covers it and what it holds when placing its parts covers these. -/
theorem PlacesIcon.covers {t : List Draft} {r : Draft × Option String}
    (h : PlacesIcon o column d t r) (hs : s.kind? o.block.name = some (.ofName o.block.name))
    (all : ∀ e, Covers (Among .loop o.children) e (placeAll o.children column e))
    (arms : ∀ choice e, Covers (Among .choice o.children) e
      (placeArms o.children choice column true [] e).1)
    (branch : ∀ side, ∀ b ∈ o.branch side, CoversBranch b) : Covers (Within s o) d r.1 := by
  have hname : ∀ {kind}, NodeKind.ofName o.block.name = kind → o.block.name = kind.name :=
    fun hkind => (name_ofName o.block.name).symm.trans (congrArg NodeKind.name hkind)
  cases h with
  | reserved | taken => exact covers_report _ _ _ _
  | question new kind follows =>
    exact follows.covers (hname kind) hs branch
  | @choice new kind noted next placed placedArms =>
    subst placedArms
    -- The target of the choice is kept before its children are placed, and the arms behind them.
    have hnext : Covers (fun _ _ => False) (d.entered o.block column) noted := by
      obtain ⟨choiceNexts, hkept⟩ := keepChoiceNext_eq (d.entered o.block column)
        (d.iconId o.block column) (o.block.attributes.trimmed? "next") o.block.span
      rw [next, hkept]
      exact covers_of_same rfl rfl fun _ _ => id
    have harms := (arms (d.iconId o.block column) noted).after hnext
    refine covers_entered (fun _ _ => inside_choice (hname kind)) hs
      (harms.before (covers_of_same ?_ ?_ fun _ _ => id))
      fun question => NodeKind.noConfusion (kind.symm.trans question)
    · rfl
    · rfl
  | loop new kind body placedAll =>
    subst placedAll
    exact covers_entered (fun _ _ => inside_loop (hname kind)) hs
      ((all (d.entered o.block column)).before (closeLoop_covers _ _ column))
      fun question => NodeKind.noConfusion (kind.symm.trans question)
  | plain new question choice loop =>
    -- The block may be a loop, but then it has no body.
    have hplain : ∀ u x, Inside s o u x ↔ u = .loop ∧ x ∈ ([] : List Outline) := by
      refine fun u x => ⟨fun hin => ?_, fun hin => absurd hin.2 List.not_mem_nil⟩
      by_cases hloop : o.block.name = "for_each"
      · have hempty := loop (congrArg NodeKind.ofName hloop)
        exact hempty ▸ (inside_loop hloop).mp hin
      · exact absurd hin (not_inside hs (fun h => question (congrArg NodeKind.ofName h))
          (fun h => choice (congrArg NodeKind.ofName h)) hloop u x)
    dsimp only
    exact covers_entered hplain hs (covers_of_same rfl rfl fun _ _ => among_nil)
      fun hquestion => absurd hquestion question

/-- Placing a child of a choice covers it and what it holds when placing its parts covers these. -/
theorem PlacesChild.covers {choice : String} {isFirst : Bool} {arms more : List Arm}
    {t : List Draft} {e : Draft} (h : PlacesChild o choice column isFirst arms d t e more)
    (icon : Holder.choice.kind? o.block.name = some (.ofName o.block.name) →
      Covers (Within .choice o) d (placeIcon o column d).1)
    (body : ∀ c e, Covers (Among .arm o.children) e (placeInArm o.children c none e).1) :
    Covers (Within .choice o) d e := by
  -- Opening a column for an arm neither notes a problem nor adds a node.
  have hopens : ∀ {armColumn : Nat} {opened : Draft},
      (if isFirst then (column, d) else d.openColumn) = (armColumn, opened) →
      opened.problems = d.problems ∧ opened.diagram.origins = d.diagram.origins := by
    intro armColumn opened opens
    cases isFirst <;> (obtain ⟨-, rfl⟩ := Prod.mk.inj opens; exact ⟨rfl, rfl⟩)
  cases h with
  | icon named =>
    refine icon ?_
    rw [Holder.kind?, named]
    rfl
  | taken named opens =>
    exact (covers_report _ _ _ _).after_same (hopens opens).1 (hopens opens).2
  | @arm kind named armColumn opened opens free entered head placed placedBody =>
    subst placedBody head
    have hs : Holder.choice.kind? o.block.name = some kind.nodeKind := by
      rw [Holder.kind?, named]
      rfl
    refine Covers.after_same ?_ (hopens opens).1 (hopens opens).2
    exact covers_icon (fun _ _ => inside_arm named) hs rfl (body armColumn _)
      fun hquestion => absurd hquestion (nodeKind_ne_question kind)

end

/-! ## The blocks of an outline -/

mutual

/-- Placing a block that becomes an icon of its own name covers it and what it holds. -/
theorem placeIcon_covers : ∀ (o : Outline) (column : Nat) (d : Draft) (s : Holder),
    s.kind? o.block.name = some (.ofName o.block.name) →
    Covers (Within s o) d (placeIcon o column d).1
  | .mk block children yes no, column, d, s, hs => by
    refine (placeIcon_places _ column d).covers hs (placeAll_covers children column)
      (fun choice => placeArms_covers children choice column true []) fun side => ?_
    cases side with
    | yes => exact placeSide_covers yes
    | no => exact placeSide_covers no
termination_by structural o => o

/-- Placing what a side of a question leads to, if there is such a side. -/
theorem placeSide_covers : ∀ (side : Option Branch), ∀ b ∈ side, CoversBranch b := by
  intro side b hb
  cases side with
  | none => exact absurd hb (Option.not_mem_none b)
  | some c =>
    obtain rfl := Option.mem_some_iff.mp hb
    exact placeBranch_covers c
termination_by structural side => side

/-- Placing blocks one below the other covers them. -/
theorem placeAll_covers : ∀ (os : List Outline) (column : Nat) (d : Draft),
    Covers (Among .loop os) d (placeAll os column d)
  | [], _, d => by
    rw [placeAll]
    exact covers_of_same rfl rfl fun _ _ => among_nil
  | o :: os, column, d => by
    rw [placeAll]
    exact (placeIcon_covers o column d .loop rfl).trans
      (placeAll_covers os column (placeIcon o column d).1) fun _ _ => among_cons
termination_by structural os => os

/-- Placing a branch that counts covers its blocks and reports those that must not stand there. -/
theorem placeBranch_covers : ∀ b : Branch, CoversBranch b
  | .mk isWritten attributes icons => by
    intro a d hwritten
    rw [Branch.isWritten] at hwritten
    rw [placeBranch, hwritten, Branch.icons]
    simp only [Bool.not_true, Bool.false_eq_true, if_false]
    split
    · rename_i hempty
      obtain rfl := List.isEmpty_iff.mp hempty
      have hdirect : Covers (Among .branch []) d (d.keepDirect a) :=
        (covers_of_same rfl rfl fun _ _ => among_nil).keepFork a none _
      exact ⟨hdirect, fun _ hx => absurd hx List.not_mem_nil⟩
    · obtain ⟨t, asked, hnotes, -, hcolumn⟩ := branchColumn_notes d a attributes
      rw [hcolumn]
      dsimp only
      generalize attributes.askedColumn.getD asked.nextColumn = column
      obtain ⟨hbody, hreports⟩ := placeInBranch_covers icons a column (asked.useColumn column)
      have hopened : Covers (Among .branch icons) asked
          (placeInBranch icons a column (asked.useColumn column)) := hbody.after_same rfl rfl
      have hclose := closeBranch_covers (placeInBranch icons a column (asked.useColumn column)) a
        column ((asked.useColumn column).columnIds column).length
      exact ⟨(hnotes.before_covers hopened).before hclose, fun x hx hroot =>
        hclose.problems.subset (hreports x hx hroot)⟩
termination_by structural b => b

/-- Placing the blocks of a branch covers them and reports those that must not stand there. -/
theorem placeInBranch_covers : ∀ (os : List Outline) (a : Answer) (column : Nat) (d : Draft),
    Covers (Among .branch os) d (placeInBranch os a column d) ∧
      ReportsIn (placeInBranch os a column d) a os
  | [], _, _, d => by
    rw [placeInBranch]
    exact ⟨covers_of_same rfl rfl fun _ _ => among_nil, fun _ hx => absurd hx List.not_mem_nil⟩
  | o :: os, a, column, d => by
    rw [placeInBranch]
    cases hroot : isRootOnly o.block.name with
    | true =>
      simp only [if_true]
      obtain ⟨hrest, hreports⟩ := placeInBranch_covers os a column
        (d.report (.unsupportedInBranch o.block.name a.side a.question) o.block.span)
      refine ⟨(covers_report (Within .branch o) d _ _).trans hrest fun _ _ => among_cons,
        fun x hx hx' => ?_⟩
      rcases List.mem_cons.mp hx with rfl | hx
      · exact hrest.problems.subset List.mem_concat_self
      · exact hreports x hx hx'
    | false =>
      simp only [Bool.false_eq_true, if_false]
      have hs : Holder.branch.kind? o.block.name = some (.ofName o.block.name) := by
        rw [Holder.kind?, hroot, if_neg Bool.false_ne_true]
      obtain ⟨hrest, hreports⟩ := placeInBranch_covers os a column (placeIcon o column d).1
      refine ⟨(placeIcon_covers o column d .branch hs).trans hrest fun _ _ => among_cons,
        fun x hx hx' => ?_⟩
      rcases List.mem_cons.mp hx with rfl | hx
      · exact Bool.noConfusion (hroot.symm.trans hx')
      · exact hreports x hx hx'
termination_by structural os => os

/-- Placing the children of a choice covers them. -/
theorem placeArms_covers : ∀ (os : List Outline) (choice : String) (column : Nat) (isFirst : Bool)
    (arms : List Arm) (d : Draft),
    Covers (Among .choice os) d (placeArms os choice column isFirst arms d).1
  | [], _, _, _, _, d => by
    rw [placeArms]
    exact covers_of_same rfl rfl fun _ _ => among_nil
  | .mk block children yes no :: os, choice, column, isFirst, arms, d => by
    obtain ⟨t, e, more, hplaces, -, hplaced⟩ :=
      placeArms_places (.mk block children yes no) os choice column isFirst arms d
    rw [hplaced]
    have hchild := hplaces.covers (placeIcon_covers (.mk block children yes no) column d .choice)
      fun c => placeInArm_covers children c none
    exact hchild.trans (placeArms_covers os choice column false more e) fun _ _ => among_cons
termination_by structural os => os

/-- Placing the blocks of an arm covers them. -/
theorem placeInArm_covers : ∀ (os : List Outline) (column : Nat) (last : Option String) (d : Draft),
    Covers (Among .arm os) d (placeInArm os column last d).1
  | [], _, _, d => by
    rw [placeInArm]
    exact covers_of_same rfl rfl fun _ _ => among_nil
  | o :: os, column, last, d => by
    rw [placeInArm]
    exact (placeIcon_covers o column d .arm rfl).trans
      (placeInArm_covers os column _ (placeIcon o column d).1) fun _ _ => among_cons
termination_by structural os => os

end

/-! ## The blocks of a root -/

section

variable {P Q : Holder → Outline → Prop} {d e : Draft}

/-- A loop whose turns cover their blocks covers all of them. -/
theorem foldl_covers {s : Holder} {turn : Draft → Outline → Draft}
    (hturn : ∀ d o, Covers (Within s o) d (turn d o)) (os : List Outline) (d : Draft) :
    Covers (Among s os) d (os.foldl turn d) := by
  induction os generalizing d with
  | nil => exact covers_of_same rfl rfl fun _ _ => among_nil
  | cons o os ih => exact (hturn d o).trans (ih (turn d o)) fun _ _ => among_cons

/-- The turn of one block stands between those before it and those behind it. -/
theorem foldl_turn {s : Holder} {turn : Draft → Outline → Draft}
    (hturn : ∀ d o, Covers (Within s o) d (turn d o)) {os : List Outline} {o : Outline}
    (ho : o ∈ os) (d : Draft) : ∃ x before after,
      Covers (Among s before) d x ∧ Covers (Among s after) (turn x o) (os.foldl turn d) := by
  obtain ⟨before, after, rfl⟩ := List.append_of_mem ho
  refine ⟨before.foldl turn d, before, after, foldl_covers hturn before d, ?_⟩
  rw [List.foldl_append, List.foldl_cons]
  exact foldl_covers hturn after _

/-- A block of the root that becomes no icon is covered by what covers the blocks it holds. -/
theorem Covers.elsewhere {t : Holder} {o : Outline} {os : List Outline}
    (body : Covers (Among t os) d e) (holds : ∀ u x, Inside .root o u x ↔ u = t ∧ x ∈ os)
    (becomes : Holder.root.kind? o.block.name = none) : Covers (Within .root o) d e where
  problems := body.problems
  origins := by
    obtain ⟨new, he, hnew⟩ := body.origins
    exact ⟨new, he, fun origin ho => (hnew origin ho).mono
      (fun u x hx => (within_iff holds).mpr (.inr hx)) (List.Subset.refl _)⟩
  depicted hsame u x hx := by
    rcases (within_iff holds).mp hx with ⟨rfl, rfl⟩ | hx
    · exact .elsewhere rfl becomes
    · exact body.depicted hsame u x hx

/-- Placing a block of a lane covers it. -/
theorem placeInLane_covers (lane : String) (column : Nat) (d : Draft) (o : Outline) :
    Covers (Within .lane o) d (placeInLane lane column d o) := by
  unfold placeInLane
  cases hroot : isRootOnly o.block.name with
  | true => exact covers_report _ _ _ _
  | false =>
    have hs : Holder.lane.kind? o.block.name = some (.ofName o.block.name) := by
      rw [Holder.kind?, hroot, if_neg Bool.false_ne_true]
    exact placeIcon_covers o column d .lane hs

/-- Finding the column of a lane neither notes a problem nor adds a node. -/
theorem laneColumn_same (d : Draft) (lane : String) :
    (d.laneColumn lane).2.problems = d.problems ∧
      (d.laneColumn lane).2.diagram.origins = d.diagram.origins := by
  unfold laneColumn
  split
  · exact ⟨rfl, rfl⟩
  · dsimp only
    split <;> exact ⟨rfl, rfl⟩

/-- Placing a lane covers its blocks. -/
theorem placeLane_covers (d : Draft) {lane : Outline} (name : lane.block.name = "lane") :
    Covers (Within .root lane) d (d.placeLane lane) := by
  have hbecomes : Holder.root.kind? lane.block.name = none := if_pos (.inl name)
  unfold placeLane
  dsimp only
  generalize lane.block.label?.getD _ = laneName
  obtain ⟨hproblems, horigins⟩ := laneColumn_same d laneName
  have hblocks := foldl_covers (placeInLane_covers laneName (d.laneColumn laneName).1)
    lane.children (d.laneColumn laneName).2
  exact (hblocks.after_same hproblems horigins).elsewhere (fun _ _ => inside_lane name) hbecomes

/-- Placing a block of the root covers it; a block that waits is left for later. -/
theorem placeRootBlock_covers (d : Draft) (o : Outline) :
    Covers (Within .root o) d (d.placeRootBlock o) := by
  unfold placeRootBlock
  split
  · rename_i hlane
    exact placeLane_covers d hlane
  · rename_i hlane
    split
    · rename_i hroot
      have hbecomes : Holder.root.kind? o.block.name = none := if_pos (.inr hroot)
      have hholds : ∀ u x, Inside .root o u x ↔ u = .loop ∧ x ∈ ([] : List Outline) := by
        refine fun u x => ⟨fun h => ?_, fun h => absurd h.2 List.not_mem_nil⟩
        cases h <;> simp_all [isRootOnly]
      have hnothing : Covers (Among .loop []) d d := covers_of_same rfl rfl fun _ _ => among_nil
      exact hnothing.elsewhere hholds hbecomes
    · rename_i hroot
      have hs : Holder.root.kind? o.block.name = some (.ofName o.block.name) :=
        if_neg (not_or.mpr ⟨hlane, hroot⟩)
      exact placeIcon_covers o primaryColumn d .root hs

/-- Placing the blocks and lanes of a root covers what stands in it. -/
theorem written_covers (root : Block) : Covers (Stands root) (initial root) (written root) :=
  foldl_covers placeRootBlock_covers _ _

end

end Draft

end Flowchart
