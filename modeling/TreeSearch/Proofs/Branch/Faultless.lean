import TreeSearch.Proofs.Branch.LeastSize
import TreeSearch.Proofs.Branch.WithinLimits
import TreeSearch.Proofs.Search.Attempts

namespace TreeSearch

variable {p : Problem} {T : Tree → Prop} {a b c : Branch} {root : Tree} {α β : Type}

section Proceeding

theorem Proceeds.rooted (h : Proceeds p T b c) : p.Rooted b.tree c.tree := by
  induction h with
  | refl => exact fun _ _ _ s hs _ => ⟨s, hs⟩
  | tail _ hstep ih =>
      rcases hstep with hstep | rfl
      · cases hstep with
        | edit unifying statistics change replaced =>
            rw [Branch.notify_tree]
            exact change.rooted replaced ih
        | _ => exact ih
      · exact ih

end Proceeding

-- A tree with an open position that no rule can fill.
def Tree.Barren (t : Tree) : Prop := ∃ x ∈ t.holes, x.2.2.isEmpty = true

-- What can be relied on when a result depends on a number of steps. It is never a fault unless the
-- first tree has been barren, it overflows only with a table or where no completion is left, and with
-- a depth limit it comes to an end when there are enough steps.
structure Problem.Dependable (p : Problem) (root : Tree) (result : Nat → Except Halt α) : Prop where
  faults : ∀ steps fault, result steps = .error (.fault fault) → fault = .emptyDomain ∧ root.Barren
  overflows : ∀ steps, result steps = .error .overflow →
    ¬ p.InRange ∨ ∃ t, t.Refines root ∧ ∀ u, ¬ p.Completes u t
  ends : ∀ limit ∈ p.bounds.maxDepth, ∃ outcome, outcome ≠ .error .outOfFuel ∧ Eventually result outcome

-- The branches that come of a first tree when nothing else is done but to propagate and to fill
-- what is decided.
inductive Branch.Unaided (p : Problem) (root : Tree) : Branch → Prop
  | start {fuel : Nat} {b : Branch} (done : Branch.start p fuel root = .ok b) : Unaided p root b
  | fixPoint {fuel : Nat} {feasible : Bool} {b c : Branch} (h : Unaided p root b)
      (done : (BranchM.fixPoint p fuel).run b = .ok feasible c) : Unaided p root c
  | materialize {fuel : Nat} {filled : Bool} {b c : Branch} (h : Unaided p root b)
      (done : (BranchM.materialize p fuel).run b = .ok filled c) : Unaided p root c

theorem Problem.Dependable.map {result : Nat → Except Halt α} (h : p.Dependable root result) (f : α → β) :
    p.Dependable root fun steps => (result steps).map f := by
  have hmap {outcome : Except Halt α} {halt : Halt} (he : outcome.map f = .error halt) :
      outcome = .error halt := by
    cases outcome with
    | ok a => simp [Except.map] at he
    | error halt' => simpa [Except.map] using he
  refine ⟨fun steps fault he => h.faults steps fault (hmap he), fun steps he => h.overflows steps (hmap he),
    fun limit hl => ?_⟩
  obtain ⟨outcome, hne, N, hN⟩ := h.ends limit hl
  exact ⟨outcome.map f, fun he => hne (hmap he), N, fun steps hle => congrArg (·.map f) (hN steps hle)⟩

namespace BranchM

end BranchM

namespace Branch

theorem Unaided.spec (hg : p.grammar.Regular) (h : b.Unaided p root) :
    Proceeds p (fun _ => False) (.of root) b ∧ b.Ready p fun _ => False := by
  induction h with
  | start done =>
      obtain ⟨hcheck, hshown⟩ := start_eq_ok.mp done
      have hw := (Grammar.check_ofTree hg _).mp hcheck
      have hproceeds := ((does_start hg (T := fun _ => False) (fun _ ht => ht.elim) _ hw).ok hshown).1.moves.proceeds
      exact ⟨hproceeds, hproceeds.ready (ready_of hw)⟩
  | fixPoint _ done ih =>
      have hproceeds := ((BranchM.operates_fixPoint hg nofun _ ih.2).ok done).1.proceeds
      exact ⟨ih.1.trans hproceeds, hproceeds.ready ih.2⟩
  | materialize _ done ih =>
      have hproceeds := ((BranchM.operates_materialize hg nofun _ ih.2).ok done).1.proceeds
      exact ⟨ih.1.trans hproceeds, hproceeds.ready ih.2⟩

section Couples

-- Two children in ascending order.
def inOrder : Constraint := .ordered (.node 1 [.var "x", .var "y"]) ["x", "y"]

end Couples

section Chains

-- Chains that cannot end, beside a tree of one node that is asked for.
def unending : Grammar :=
  ⟨[⟨0, "S", [], none, none, false⟩, ⟨1, "W", ["W"], none, none, false⟩], ["S", "W"], [.contains 0], 3⟩

theorem one_le_limit : ∀ n ∈ some Cost.ceiling, 1 ≤ n := by decide

def unendingWithin : Problem :=
  .of unending { Bounds.none with maxSize := some Cost.ceiling, one_le_size := one_le_limit }

-- The limit is the least one that cannot be set against the size of a chain, which is infinite.
example : Branch.start unendingWithin 1 (.hole "W" (.ofList [1])) = .error .overflow := by decide +kernel

end Chains

end Branch

end TreeSearch
