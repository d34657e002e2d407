import TreeSearch.Proofs.Branch.Halting
import TreeSearch.Proofs.Branch.Steps

namespace TreeSearch

variable {p : Problem} {b : Branch} {root : Tree} {first second : Path}

namespace BranchM

variable {fill : Filler} {unifying : Bool} {rule : Nat} {α β : Type}

-- Work in which numbers grow too large only where the tables cannot be made.
abbrev Ranges (p : Problem) (work : BranchM α) : Prop :=
  Preserves (fun _ => True) (fun halt => halt = .overflow → ¬ p.InRange) work

theorem ranges_edit (p : Problem) (unifying : Bool) (path : Path) (part : Tree)
    (count : Statistics → Statistics) : Ranges p (edit unifying path part count) :=
  .bind .get fun _ => .bind (.attempt (fun _ => nofun) _) fun _ => .modify fun _ _ => trivial

theorem calm_ranges (p : Problem) : Calm p (fun _ => True) (fun halt => halt = .overflow → ¬ p.InRange) where
  faults _ := nofun
  overflows h _ := h
  same _ _ _ _ _ := trivial
  narrowed unifying mask _ := (inherited_preserves fun _ => nofun).narrowOne (.modify fun _ _ => trivial)
    (fun part count _ => ranges_edit p unifying _ part count) mask

-- The same for work that opens positions, all of them below others.
abbrev RangesOpening (p : Problem) (work : BranchM (List Path)) : Prop :=
  ∀ b, work.Meets b (fun opened _ => ∀ path ∈ opened, path ≠ []) fun halt _ => halt = .overflow → ¬ p.InRange

theorem RangesOpening.of_bind {work : BranchM β} {next : β → BranchM (List Path)} (h : Ranges p work)
    (hn : ∀ a, RangesOpening p (next a)) : RangesOpening p (work >>= next) := by
  intro b
  rw [meets_bind]
  exact (h b trivial).mono (fun a c _ => hn a c) fun _ _ hh => hh

theorem RangesOpening.nil : RangesOpening p (pure []) := fun _ => nofun

variable (hg : p.grammar.Regular)

include hg

theorem ranges_fillOne (path : Path) : RangesOpening p (fillOne p unifying rule path) := by
  have h := (calm_ranges p).steady hg
  refine .of_bind (h.shallow _) fun fitting => .of_bind (h.attempt _) fun production => ?_
  refine .of_bind (h.attempt _) fun holes => ?_
  split
  · exact .of_bind h.fail fun _ => .nil
  · refine .of_bind (ranges_edit p _ _ _ _) fun _ c path' hp => ?_
    obtain ⟨n, -, rfl⟩ := List.mem_map.mp hp
    simp

theorem ranges_fillMember (path : Path) : RangesOpening p (fillMember p unifying rule path) := by
  have h := (calm_ranges p).steady hg
  refine .of_bind (h.nodeAt path) fun s => ?_
  split
  · split
    · exact .of_bind h.fail fun _ => .nil
    · exact .nil
  · split
    · exact ranges_fillOne hg path
    · exact .of_bind h.fail fun _ => .nil

theorem ranges_fillMembers (members : List Path) : RangesOpening p (fillMembers p unifying rule members) := by
  induction members with
  | nil => exact .nil
  | cons member rest ih =>
      intro b
      unfold fillMembers
      rw [meets_bind]
      refine (ranges_fillMember hg member b).mono (fun opened c hopened => ?_) fun _ _ hh => hh
      rw [meets_bind, meets_isFeasible]
      split
      · rw [meets_bind]
        refine (ih c).mono (fun more d hmore path hp => ?_) fun _ _ hh => hh
        exact (List.mem_append.mp hp).elim (hopened path) (hmore path)
      · intro path hp
        cases hp

theorem ranges_fillClass (steps : Nat) (unifying : Bool) (path : Path) (rule : Nat) :
    Ranges p (fillClass p steps unifying path rule) := by
  induction steps generalizing unifying path rule with
  | zero => exact fun _ _ => nofun
  | succ steps ih =>
      have h := (calm_ranges p).steady hg
      intro b _
      unfold fillClass
      rw [meets_bind, meets_get, meets_bind]
      refine (ranges_fillMembers hg _ b).mono (fun opened c hopened => ?_) fun _ _ hh => hh
      have hshown : Ranges p (opened.forM fun path =>
          BranchM.whenFeasible (announce p (BranchM.fillClass p steps) unifying path)) :=
        .forM fun path hp => .whenFeasible ((calm_ranges p).announce hg (hopened path hp))
      refine Preserves.whenFeasible ?_ c trivial
      split
      · exact .bind (h.attempt _) fun arity =>
          .bind (h.joinChildren ih (fun _ => .modify fun _ _ => trivial) unifying _ arity) fun _ => hshown
      · exact hshown

theorem ranges_equate (steps : Nat) (first second : Path) : Ranges p (equate (fillClass p steps) first second) :=
  ((calm_ranges p).steady hg).equate (ranges_fillClass hg steps) (fun _ => .modify fun _ _ => trivial) first second

end BranchM

namespace Branch

-- What uniting two positions comes to with any number of steps. There are no faults, and numbers
-- only matter to the rules below the depth limit.
theorem Balanced.equate_outcome (hg : p.grammar.Regular) (hb : b.Balanced p ∅)
    (hfirst : ∃ s, b.tree.get? first = some s) (hsecond : ∃ s, b.tree.get? second = some s)
    (steps : Nat) :
    (∃ c, (BranchM.equate (BranchM.fillClass p steps) first second).run b = .ok () c ∧
      (b.Cyclic first second → c.feasible = false)) ∨
    (∃ c, (BranchM.equate (BranchM.fillClass p steps) first second).run b = .error .outOfFuel c) ∨
    ¬ p.InRange ∧ ∃ c, (BranchM.equate (BranchM.fillClass p steps) first second).run b = .error .overflow c := by
  have hkeeps := BranchM.keeps_equate (F := fun _ => False) (BranchM.levels_fillClass hg steps) hb
    (Or.inr hfirst) (Or.inr hsecond)
  cases hrun : (BranchM.equate (BranchM.fillClass p steps) first second).run b with
  | ok _ c =>
      have hc := hkeeps.ok hrun
      refine Or.inl ⟨c, rfl, fun hcycle => ?_⟩
      by_cases hf : c.feasible = true
      · exact absurd hcycle (hc.2.1.not_cyclic hb.intact hc.1 hf (hc.2.2 hf))
      · simpa using hf
  | error halt c =>
      cases halt with
      | fault fault => exact (hkeeps.error hrun trivial).1.elim
      | overflow =>
          exact Or.inr (Or.inr ⟨(BranchM.ranges_equate hg steps first second b trivial).error hrun rfl, c, rfl⟩)
      | outOfFuel => exact Or.inr (Or.inl ⟨c, rfl⟩)

-- A limit on the depth bounds all copies, and so does the size of the tree when there is no cycle.
theorem exists_depth_bound (h : p.bounds.maxDepth ≠ none ∨ ¬ b.Cyclic first second) :
    ∃ D, ∀ c, b.Copies p first second c → c.tree.depth ≤ D := by
  rcases h with hlimit | hcycle
  · obtain ⟨limit, hlimit⟩ := Option.ne_none_iff_exists'.mp hlimit
    exact ⟨max limit b.tree.depth, fun c hc => hc.shallow limit hlimit⟩
  · exact ⟨b.tree.size, fun c hc => hc.depth_le hcycle⟩

-- Uniting two positions ends when there is a limit on the depth or no cycle, however many steps it
-- may take. In a cycle it does not fault and leaves no feasible branch, so if it ends at all, the
-- cycle has been found. Only where the tables cannot be made, numbers may grow too large.
theorem Commanded.occurs_check (hg : p.grammar.Reachable) (h : Commanded p root b)
    (hfirst : ∃ s, b.tree.get? first = some s) (hsecond : ∃ s, b.tree.get? second = some s) :
    (p.bounds.maxDepth ≠ none ∨ ¬ b.Cyclic first second → ∃ steps result,
      (∀ more ≥ steps, (BranchM.equate (BranchM.fillClass p more) first second).run b = result) ∧
      ((∃ c, result = .ok () c) ∨ ¬ p.InRange ∧ ∃ c, result = .error .overflow c)) ∧
    ∀ steps, (∃ c, (BranchM.equate (BranchM.fillClass p steps) first second).run b = .ok () c ∧
        (b.Cyclic first second → c.feasible = false)) ∨
      (∃ c, (BranchM.equate (BranchM.fillClass p steps) first second).run b = .error .outOfFuel c) ∨
      ¬ p.InRange ∧ ∃ c, (BranchM.equate (BranchM.fillClass p steps) first second).run b = .error .overflow c := by
  have hb := (h.spec hg.regular).1
  have houtcome := hb.equate_outcome hg.regular hfirst hsecond
  refine ⟨fun hbounded => ?_, houtcome⟩
  obtain ⟨D, hD⟩ := exists_depth_bound hbounded
  have hhalts := BranchM.copying_equate hg.regular hb.intact hD (Nat.lt_succ_self D)
  refine ⟨D + 1, _, fun more hmore => (BranchM.extends_equate (fun unifying path rule =>
    BranchM.extends_fillClass p hmore unifying path rule) first second b).resolve_left ?_, ?_⟩
  · rintro ⟨c, hrun⟩
    exact absurd rfl (hhalts.error hrun)
  · rcases houtcome (D + 1) with ⟨c, hrun, -⟩ | ⟨c, hrun⟩ | ⟨hrange, c, hrun⟩
    · exact Or.inl ⟨c, hrun⟩
    · exact absurd rfl (hhalts.error hrun)
    · exact Or.inr ⟨hrange, c, hrun⟩

end Branch

section Twins

-- Two leaves are equal, so nothing is wrong with uniting two open positions.
theorem not_cyclic_twins : ¬ Branch.twinsOpen.Cyclic [0] [1] := by
  have hr : (Tree.twins (.node 0 [])).Refines Branch.twinsOpen.tree := by
    refine .node rfl fun i s t hs ht => ?_
    match i with
    | 0 => cases hs; cases ht; exact .filled (by decide)
    | 1 => cases hs; cases ht; exact .filled (by decide)
  refine Branch.not_cyclic_of_get?_eq hr ?_
  rintro x y (hsame | ⟨rfl, rfl⟩)
  · obtain rfl : x = y := of_decide_eq_true hsame
    rfl
  · rfl

theorem Problem.inRange_twins : Problem.twins.InRange :=
  inRange_of_modest Grammar.reachable_twins.regular (by decide)

theorem occurs_check_twins : ¬ Branch.twinsOpen.Cyclic [0] [1] ∧ Problem.twins.InRange ∧
    (∃ steps result, (∀ more ≥ steps,
      (BranchM.equate (BranchM.fillClass .twins more) [0] [1]).run .twinsOpen = result) ∧
      ((∃ c, result = .ok () c) ∨ ¬ Problem.twins.InRange ∧ ∃ c, result = .error .overflow c)) := by
  have hstart : Branch.start .twins 2 (.twins (.hole "S" (.ofList [0, 1]))) = .ok .twinsOpen := rfl
  have hfirst : ∃ s, Branch.twinsOpen.tree.get? [0] = some s := ⟨_, rfl⟩
  have hsecond : ∃ s, Branch.twinsOpen.tree.get? [1] = some s := ⟨_, rfl⟩
  have hends := (Branch.Commanded.start (by decide) hstart).occurs_check Grammar.reachable_twins
    hfirst hsecond
  exact ⟨not_cyclic_twins, Problem.inRange_twins, hends.1 (Or.inr not_cyclic_twins)⟩

end Twins

end TreeSearch
