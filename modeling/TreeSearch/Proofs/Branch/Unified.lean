import TreeSearch.Proofs.Branch.Levelling

namespace TreeSearch

variable {p : Problem} {D : Set (Set Path)} {b c : Branch}

-- What may be asked of a branch from outside.
inductive Request where
  | fill (path : Path) (rule : Int)
  | strike (path : Path) (rule : Int)
  | strikeAll (path : Path) (rules : List Int)
  | keep (path : Path) (mask : Mask)
  | keepAll (path : Path) (rules : List Int)
  | strikeAbove (path : Path) (rule : Int)
  | strikeBelow (path : Path) (rule : Int)
  | equate (first second : Path)
  | order (first second : Path)
  | post (w : Watch)
  | fixPoint
  | materialize

def Request.work (p : Problem) (fuel : Nat) : Request → BranchM Unit
  | fill path rule => BranchM.fill p fuel path rule
  | strike path rule => BranchM.strike false path rule
  | strikeAll path rules => BranchM.strikeAll path rules
  | keep path mask => BranchM.narrow false path mask
  | keepAll path rules => BranchM.keepAll path rules
  | strikeAbove path rule => BranchM.strikeAbove false path rule
  | strikeBelow path rule => BranchM.strikeBelow false path rule
  | equate first second => BranchM.equate (BranchM.fillClass p fuel) first second
  | order first second => BranchM.order p false first second >>= fun _ => pure ()
  | post w => BranchM.post p (BranchM.fillClass p fuel) false w
  | fixPoint => BranchM.fixPoint p fuel >>= fun _ => pure ()
  | materialize => BranchM.materialize p fuel >>= fun _ => pure ()

-- The branches that come of a tree whose open positions have rules. A request may be interrupted,
-- and the branch goes on as that has left it.
inductive Branch.Operated (p : Problem) : Branch → Prop
  | start {fuel : Nat} {tree : Tree} {b : Branch}
      (rules : ∀ x ∈ tree.holes, x.2.2.isEmpty = false)
      (done : Branch.start p fuel tree = .ok b) : Operated p b
  | fork {b : Branch} (h : Operated p b) : Operated p b.fork
  | request {fuel : Nat} {b c : Branch} (request : Request) (h : Operated p b)
      (done : (request.work p fuel).run b = .ok () c) : Operated p c
  | halt {fuel : Nat} {halt : Halt} {b c : Branch} (request : Request) (h : Operated p b)
      (halted : (request.work p fuel).run b = .error halt c) (between : p.Interrupts halt) : Operated p c

namespace BranchM

theorem keeps_fillClass (hg : p.grammar.Regular) (steps : Nat) {unifying : Bool} {path : Path}
    {rule : Nat} (hb : b.Balanced p D) (hs : ∃ s, b.tree.get? path = some s) :
    Keeps p (fun _ => True) D (fillClass p steps unifying path rule) b fun _ _ => True :=
  (levels_fillClass hg steps b unifying path rule D (hb.excuse _) hs).calm

theorem keeps_fill (hg : p.grammar.Regular) (steps : Nat) {path : Path} {rule : Int}
    (hb : b.Balanced p D) : Keeps p (fun _ => True) D (fill p steps path rule) b fun _ _ => True := by
  unfold fill
  refine .nodeAt_bind hb (Or.inl lenient) fun s hs => ?_
  split
  · exact fun _ => ⟨trivial, .refl b, hb⟩
  · refine .whenFeasible hb (fun _ => ?_) fun _ => trivial
    refine .attempt_bind hb (Or.inl lenient) fun n _ => ?_
    refine (keeps_narrow hb (Or.inl lenient)).bind fun _ c hc hcb _ => ?_
    exact .whenFeasible hcb (fun _ => keeps_fillClass hg steps hcb (hc.placed ⟨s, hs⟩)) fun _ => trivial

theorem keeps_materialize (hg : p.grammar.Regular) (steps : Nat) (hb : b.Balanced p D) :
    Keeps p (fun _ => True) D (materialize p steps) b fun _ _ => True := by
  induction steps generalizing b with
  | zero => exact fun hbetween => hbetween.elim
  | succ steps ih =>
      unfold materialize
      rw [keeps_get_bind]
      split
      · exact .pure hb trivial
      · split
        · exact .pure hb trivial
        · rename_i hforced
          obtain ⟨category, hs⟩ := get?_of_firstForced hforced
          refine (keeps_fillClass hg steps hb ⟨_, hs⟩).bind fun _ c _ hc _ => ?_
          exact (ih hc).bind fun _ d _ hd _ => .pure hd trivial

theorem keeps_tightenHoles {total : Cost} {holes : List (Path × Cost)} {changed : Bool}
    (hb : b.Balanced p D) :
    Keeps p (fun _ => True) D (tightenHoles p total holes changed) b fun _ _ => True := by
  induction holes generalizing b changed with
  | nil => exact .pure hb trivial
  | cons x holes ih =>
      unfold tightenHoles
      refine .reckon_bind hb (fun _ _ _ => trivial) fun fitting _ => .nodeAt_bind hb (Or.inl lenient) fun s hs => ?_
      split
      · split
        · exact ih hb
        · refine (keeps_narrow hb (Or.inl lenient)).bind fun _ c _ hc _ => ?_
          rw [keeps_isFeasible_bind]
          split
          · exact ih hc
          · exact .pure hc trivial
      · exact ih hb

theorem keeps_tighten (hb : b.Balanced p D) : Keeps p (fun _ => True) D (tighten p) b fun _ _ => True := by
  unfold tighten
  split
  · exact .pure hb trivial
  · rw [keeps_get_bind]
    refine .reckon_bind hb (fun _ _ _ => trivial) fun analysis _ => .reckon_bind hb (fun _ _ _ => trivial) fun total _ => ?_
    split
    · exact (Keeps.fail (Q := fun _ _ => True) hb trivial).bind fun _ c _ hc _ => .pure hc trivial
    · exact keeps_tightenHoles hb

theorem keeps_propagateQueued (hg : p.grammar.Regular) (steps : Nat) {w : Watch}
    (hb : b.Balanced p D) : Keeps p (fun _ => True) D (propagateQueued p steps w) b fun _ _ => True := by
  unfold propagateQueued
  rw [keeps_get_bind]
  split
  · refine Keeps.bind (R := fun _ _ => True) (.modify hb rfl rfl (fun hf => hf) trivial) fun _ c _ hc _ => ?_
    exact keeps_propagate hg (levels_fillClass hg steps) hc (Or.inl lenient) fun _ => trivial
  · exact .pure hb trivial

theorem keeps_fixPoint (hg : p.grammar.Regular) (steps : Nat) (hb : b.Balanced p D) :
    Keeps p (fun _ => True) D (fixPoint p steps) b fun _ _ => True := by
  induction steps generalizing b with
  | zero => exact fun hbetween => hbetween.elim
  | succ steps ih =>
      unfold fixPoint
      rw [keeps_isFeasible_bind]
      split
      · exact .pure hb trivial
      · have hpop : Keeps p (fun _ => True) D pop b fun _ _ => True :=
          ⟨.of_eq rfl rfl fun hf => hf, hb.congr rfl rfl fun hf => hf, trivial⟩
        refine hpop.bind fun next c _ hc _ => ?_
        cases next with
        | some w => exact (keeps_propagateQueued hg steps hc).bind fun _ d _ hd _ => ih hd
        | none =>
            refine (keeps_tighten hc).bind fun again d _ hd _ => ?_
            split
            · exact ih hd
            · exact ⟨.refl d, hd, trivial⟩

theorem keeps_request (hg : p.grammar.Regular) (steps : Nat) (request : Request)
    (hb : b.Balanced p D) : Keeps p (fun _ => True) D (request.work p steps) b fun _ _ => True := by
  have hdone {α : Type} {work : BranchM α} (h : Keeps p (fun _ => True) D work b fun _ _ => True) :
      Keeps p (fun _ => True) D (work >>= fun _ => pure ()) b fun _ _ => True :=
    h.bind fun _ _ _ hc _ => .pure hc trivial
  have hnarrow {result : Except Fault Domain} {path : Path} {mask : Domain → Mask} :
      Keeps p (fun _ => True) D (attempt result >>= fun rules => narrow false path (mask rules)) b fun _ _ => True :=
    .attempt_bind hb (Or.inl lenient) fun _ _ =>
      (keeps_narrow hb (Or.inl lenient)).post fun _ _ _ _ _ => trivial
  cases request with
  | fill path rule => exact keeps_fill hg steps hb
  | strike path rule => exact keeps_strike hb (Or.inl lenient)
  | strikeAll path rules => exact hnarrow
  | keep path mask => exact (keeps_narrow hb (Or.inl lenient)).post fun _ _ _ _ _ => trivial
  | keepAll path rules => exact hnarrow
  | strikeAbove path rule => exact keeps_strikeAbove hb (Or.inl lenient)
  | strikeBelow path rule => exact keeps_strikeBelow hb (Or.inl lenient)
  | equate first second =>
      exact (keeps_equate (levels_fillClass hg steps) hb (Or.inl lenient) (Or.inl lenient)).post
        fun _ _ _ _ _ => trivial
  | order first second => exact hdone (keeps_order hb (Or.inl lenient) (Or.inl lenient))
  | post w => exact keeps_post hg (levels_fillClass hg steps) hb (Or.inl lenient) fun _ => trivial
  | fixPoint => exact hdone (keeps_fixPoint hg steps hb)
  | materialize => exact hdone (keeps_materialize hg steps hb)

theorem keeps_start (hg : p.grammar.Regular) (steps : Nat) {tree : Tree}
    (hb : (Branch.of tree).Balanced p D) :
    Keeps p (fun _ => True) D ((tree.positions []).forM fun x =>
      whenFeasible (announce p (fillClass p steps) false x.1)) (.of tree) fun _ _ => True := by
  refine (Keeps.forM (fun left _ => ∀ x ∈ left, x ∈ tree.positions []) hb (fun _ h => h) ?_).post
    fun _ _ _ _ _ => trivial
  rintro ⟨path, s⟩ left c hc hcb hleft
  have hleft' := fun x hx => hleft x (List.mem_cons_of_mem (path, s) hx)
  have hs := (Tree.mem_positions_nil tree path s).mp (hleft _ List.mem_cons_self)
  refine .whenFeasible hcb (fun _ => ?_) fun _ => hleft'
  exact (keeps_announce hg (levels_fillClass hg steps) hcb (hc.placed ⟨s, hs⟩) fun _ => trivial).post
    fun _ _ _ _ _ => hleft'

end BranchM

namespace Branch

theorem balanced_of {tree : Tree} (hw : p.grammar.WellFormed none tree)
    (hrules : ∀ x ∈ tree.holes, x.2.2.isEmpty = false) : (Branch.of tree).Balanced p D :=
  ⟨⟨hw, fun path category d hs => hrules _ ((Tree.mem_holes tree path category d).mpr hs), nofun, nofun⟩,
    fun _ => nofun⟩

-- Between requests no class is excused.
theorem Operated.balanced (hg : p.grammar.Regular) (h : Operated p b) : b.Balanced p ∅ := by
  induction h with
  | @start fuel tree b rules done =>
      obtain ⟨hcheck, hrun⟩ := start_eq_ok.mp done
      have hof : (Branch.of tree).Balanced p ∅ := balanced_of ((Grammar.check_ofTree hg _).mp hcheck) rules
      exact ((BranchM.keeps_start hg fuel hof).ok hrun).2.1
  | fork _ ih => exact ih.congr rfl rfl fun hf => hf
  | request request _ done ih => exact ((BranchM.keeps_request hg _ request ih).ok done).2.1
  | halt request _ halted between ih =>
      exact ((BranchM.keeps_request hg _ request ih).error halted between).2.2

end Branch

section Twins

-- Trees that end or fork.
def Grammar.twins : Grammar :=
  ⟨[⟨0, "S", [], none, none, false⟩, ⟨1, "S", ["S", "S"], none, none, false⟩], ["S"], [], 2⟩

theorem Grammar.reachable_twins : Grammar.twins.Reachable := by
  let leaf : Rule := ⟨0, "S", [], none, none, false⟩
  have hleaf : empty.add "S" [] none none = .ok (⟨[leaf], ["S"], [], 1⟩, 0) := rfl
  have hinner : (⟨[leaf], ["S"], [], 1⟩ : Grammar).add "S" ["S", "S"] none none = .ok (twins, 1) := rfl
  exact .add (.add .empty hleaf) hinner

def Problem.twins : Problem := .of .twins .none

def Tree.twins (s : Tree) : Tree := .node 1 [s, s]

-- Two open positions, the same when they have been united, and when one of them has been filled.
def Branch.twinsOpen : Branch := .of (.twins (.hole "S" (.ofList [0, 1])))

def Branch.twinsUnited : Branch := { Branch.twinsOpen with classes := ⟨[[[0], [1]]]⟩ }

def Branch.twinsFilled : Branch :=
  { Branch.of (.twins (.twins (.hole "S" (.ofList [0, 1])))) with
    classes := ⟨[[[0, 1], [1, 1]], [[0, 0], [1, 0]], [[0], [1]]]⟩
    statistics := ⟨2, 2, 0, 0, 0⟩ }

end Twins

end TreeSearch
