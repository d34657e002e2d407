import TreeSearch.Proofs.Branch.Invariants

namespace TreeSearch

-- The branches that come of a hole of some category, by operations in any order. A branch goes
-- on where an operation on it has ended, and a copy goes on by itself.
inductive Branch.Reached (p : Problem) (category : String) : Branch → Prop
  | start {fuel : Nat} {rules : Domain} {b : Branch}
      (done : Branch.start p fuel (.hole category rules) = .ok b) : Reached p category b
  | fork {b : Branch} (h : Reached p category b) : Reached p category b.fork
  | fill {fuel : Nat} {b c : Branch} {path : Path} {hole : String} {rules : Domain} {rule : Nat}
      (h : Reached p category b) (found : b.tree.get? path = some (.hole hole rules))
      (mem : rule ∈ rules) (done : (BranchM.fill p fuel path rule).run b = .ok () c) :
      Reached p category c
  | fixPoint {fuel : Nat} {b c : Branch} {feasible : Bool} (h : Reached p category b)
      (done : (BranchM.fixPoint p fuel).run b = .ok feasible c) : Reached p category c
  | materialize {fuel : Nat} {b c : Branch} {filled : Bool} (h : Reached p category b)
      (done : (BranchM.materialize p fuel).run b = .ok filled c) : Reached p category c

variable {p : Problem} {b c : Branch} {T : Tree → Prop}

-- The admissible trees are the solutions that the branch can still become.
theorem Problem.admissible_iff {t : Tree} : p.Admissible b t ↔ p.Solves t ∧ b.Covers t := by
  constructor
  · rintro ⟨hf, hw, hc, hr, hb, hk⟩
    exact ⟨⟨hw, hc, hb, hk⟩, hf, hr⟩
  · rintro ⟨⟨hw, hc, hb, hk⟩, hf, hr⟩
    exact ⟨hf, hw, hc, hr, hb, hk⟩

theorem Proceeds.admissible_iff (h : Proceeds p p.Solves b c) (t : Tree) :
    p.Admissible c t ↔ p.Admissible b t := by
  rw [Problem.admissible_iff, Problem.admissible_iff]
  exact and_congr_right fun ht => ⟨h.of_covers, h.covers ht⟩

-- The solutions with a rule at a path.
def Problem.SolvesWith (p : Problem) (path : Path) (rule : Nat) (t : Tree) : Prop :=
  p.Solves t ∧ ∃ cs, t.get? path = some (.node rule cs)

section Filled

variable {path : Path} {rule : Nat}

theorem Proceeds.admissible_iff_of_filled (h : Proceeds p (p.SolvesWith path rule) b c)
    (hnode : c.feasible = true → ∃ cs, c.tree.get? path = some (.node rule cs)) (t : Tree) :
    p.Admissible c t ↔ p.Admissible b t ∧ ∃ cs, t.get? path = some (.node rule cs) := by
  rw [Problem.admissible_iff, Problem.admissible_iff]
  constructor
  · rintro ⟨ht, hc⟩
    obtain ⟨cs, hcs⟩ := hnode hc.1
    obtain ⟨v, hv, hr⟩ := hc.2.get? hcs
    obtain ⟨ds, rfl, -⟩ := Tree.refines_node_iff.mp hr
    exact ⟨⟨ht, h.of_covers hc⟩, ds, hv⟩
  · rintro ⟨⟨ht, hb⟩, hcs⟩
    exact ⟨ht, h.covers ⟨ht, hcs⟩ hb⟩

-- What respects the classes among the trees with the rule is all there is left.
theorem Proceeds.ready_of_filled (h : Proceeds p (p.SolvesWith path rule) b c)
    (hb : b.Ready p p.Solves)
    (hnode : c.feasible = true → ∃ cs, c.tree.get? path = some (.node rule cs)) :
    c.Ready p p.Solves := by
  refine ⟨h.sound hb.sound, fun t ht hc => ?_⟩
  obtain ⟨-, hcs⟩ := (h.admissible_iff_of_filled hnode t).mp (Problem.admissible_iff.mpr ⟨ht, hc⟩)
  exact h.loyal hb.sound (fun u hu => hb.loyal u hu.1) t ⟨ht, hcs⟩ hc

theorem Branch.Ready.solvesWith (hb : b.Ready p p.Solves) : b.Ready p (p.SolvesWith path rule) :=
  ⟨hb.sound, fun t ht => hb.loyal t ht.1⟩

theorem meets_fill (hg : p.grammar.Regular) (steps : Nat) (hb : b.Ready p p.Solves)
    {category : String} {rules : Domain} (hs : b.tree.get? path = some (.hole category rules)) :
    BranchM.Settles p (p.SolvesWith path rule) (fun D => steps ≤ b.ceiling p D)
      (BranchM.fill p steps path rule) b fun _ c =>
        c.feasible = true → ∃ cs, c.tree.get? path = some (.node rule cs) := by
  refine BranchM.does_fill hg (fun t ht => ht.1) steps hb.solvesWith hs fun t ht _ => ?_
  obtain ⟨-, cs, hcs⟩ := ht
  exact ⟨rule, cs, hcs, (Domain.mem_singleton rule rule).mpr rfl⟩

end Filled

theorem Branch.Sound.fork (hs : b.Sound p) : b.fork.Sound p := hs.queued hs.queue.copy fun _ h => h

theorem Branch.Ready.fork (hb : b.Ready p T) : b.fork.Ready p T := ⟨hb.sound.fork, hb.loyal⟩

-- What holds of a branch between operations.
structure Branch.Sustained (p : Problem) (b : Branch) : Prop where
  ready : b.Ready p p.Solves
  shallow : ∀ limit ∈ p.bounds.maxDepth, b.tree.depth ≤ limit
  tended : b.feasible = true → b.Tended p

theorem Advance.sustained (h : Advance p p.Solves b c) (hb : b.Sustained p) : c.Sustained p :=
  ⟨h.proceeds.ready hb.ready, h.proceeds.shallow hb.shallow,
    fun hf => h.tended hf (hb.tended (h.proceeds.feasible hf))⟩

theorem Branch.Sustained.fork (hb : b.Sustained p) : b.fork.Sustained p :=
  ⟨hb.ready.fork, hb.shallow, fun hf =>
    ⟨(hb.tended hf).shown, { (hb.tended hf).attended with }⟩⟩

theorem Branch.Reached.sustained (hg : p.grammar.Regular) {category : String}
    (h : Branch.Reached p category b) : b.Sustained p := by
  induction h with
  | @start fuel rules b done =>
      obtain ⟨hcheck, hshown⟩ := Branch.start_eq_ok.mp done
      have hw := (Grammar.check_ofTree hg _).mp hcheck
      have hspec := (does_start hg (T := p.Solves) (fun _ ht => ht) fuel hw).ok hshown
      have hproceeds := hspec.1.moves.proceeds
      exact ⟨hproceeds.ready (Branch.ready_of hw),
        hproceeds.shallow fun limit hl => p.bounds.one_le_depth limit hl, hspec.2⟩
  | fork _ ih => exact ih.fork
  | fill _ found _ done ih =>
      obtain ⟨hstep, hnode⟩ := (meets_fill hg _ ih.ready found).ok done
      have hproceeds := hstep.moves.proceeds
      exact ⟨hproceeds.ready_of_filled ih.ready hnode, hproceeds.shallow ih.shallow,
        fun hf => hstep.advance.tended hf (ih.tended (hproceeds.feasible hf))⟩
  | fixPoint _ done ih =>
      exact ((BranchM.operates_fixPoint hg (fun _ ht => ht) _ ih.ready).ok done).1.sustained ih
  | materialize _ done ih =>
      exact ((BranchM.operates_materialize hg (fun _ ht => ht) _ ih.ready).ok done).1.sustained ih

theorem Branch.Reached.ready (hg : p.grammar.Regular) {category : String}
    (h : Branch.Reached p category b) : b.Ready p p.Solves := (h.sustained hg).ready

-- Whatever order the operations come in, propagating and filling forced holes keep the
-- admissible trees as they are, and filling any other hole keeps those with the rule.
theorem Branch.Reached.propagation_conserves (hg : p.grammar.Reachable) {category : String}
    (h : Branch.Reached p category b) (fuel : Nat) :
    (∀ feasible c, (BranchM.fixPoint p fuel).run b = .ok feasible c →
      (∀ t, p.Admissible c t ↔ p.Admissible b t) ∧
        (feasible = false → ∀ t, ¬ p.Admissible b t)) ∧
    (∀ filled c, (BranchM.materialize p fuel).run b = .ok filled c →
      ∀ t, p.Admissible c t ↔ p.Admissible b t) ∧
    ∀ path hole rules (rule : Nat) c, b.tree.get? path = some (.hole hole rules) → rule ∈ rules →
      (BranchM.fill p fuel path rule).run b = .ok () c →
      ∀ t, p.Admissible c t ↔ p.Admissible b t ∧ ∃ cs, t.get? path = some (.node rule cs) := by
  have hb := h.ready hg.regular
  refine ⟨fun feasible c done => ?_, fun filled c done => ?_, fun path hole rules rule c found _ done => ?_⟩
  · obtain ⟨hadvance, rfl, -⟩ := (BranchM.operates_fixPoint hg.regular (fun _ ht => ht) fuel hb).ok done
    have hsame := hadvance.proceeds.admissible_iff
    exact ⟨hsame, fun hf t ht => absurd (((hsame t).mpr ht).1.symm.trans hf) nofun⟩
  · have hspec := (BranchM.operates_materialize hg.regular (fun _ ht => ht) fuel hb).ok done
    exact hspec.1.proceeds.admissible_iff
  · obtain ⟨hstep, hnode⟩ := (meets_fill hg.regular fuel hb found).ok done
    exact hstep.moves.proceeds.admissible_iff_of_filled hnode

section Endless

theorem Bounds.one_le_three : ∀ n ∈ some 3, 1 ≤ n := by decide

def Problem.endless : Problem :=
  .of .endless ⟨none, some 3, Bounds.none.one_le_depth, Bounds.one_le_three⟩

-- The first branch, and what becomes of it when its tree goes on.
def Branch.endlessFirst : Branch :=
  { Branch.of (.hole "S" (.ofList [0, 1])) with log := [⟨.rootOnly 0, [], none⟩] }

def Branch.endlessSecond : Branch :=
  { Branch.of (.node 1 [.hole "S" {1}]) with
    retired := ⟨[⟨[0], .rootOnly 0⟩]⟩
    statistics := ⟨1, 2, 1, 0, 0⟩
    log := [⟨.rootOnly 0, [0], some ⟨[0], .rootOnly 0⟩⟩, ⟨.rootOnly 0, [], none⟩] }

theorem start_endless : Branch.start .endless 3 (.hole "S" (.ofList [0, 1])) = .ok .endlessFirst := by
  decide +kernel

theorem fill_endless : (BranchM.fill .endless 3 [] (1 : Nat)).run .endlessFirst = .ok () .endlessSecond := by
  decide +kernel

theorem propagation_conserves_endless : Branch.Reached .endless "S" .endlessFirst ∧
    ∀ t, Problem.endless.Admissible .endlessSecond t ↔
      Problem.endless.Admissible .endlessFirst t ∧ ∃ cs, t.get? [] = some (.node 1 cs) := by
  have h : Branch.Reached .endless "S" .endlessFirst := .start start_endless
  obtain ⟨-, -, hfill⟩ := h.propagation_conserves Grammar.reachable_endless 3
  exact ⟨h, hfill [] "S" (.ofList [0, 1]) 1 .endlessSecond rfl (by decide) fill_endless⟩

end Endless

end TreeSearch
