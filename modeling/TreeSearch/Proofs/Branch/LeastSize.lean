import TreeSearch.Proofs.Branch.Finality
import TreeSearch.Proofs.Completions

namespace TreeSearch

variable {p : Problem} {expected : Option String} {s t : Tree}

namespace Problem

theorem leastSize_isLeastOf (hg : p.grammar.Regular) (hw : p.grammar.WellFormed expected t) :
    (p.leastSize t).IsLeastOf .size (p.Completes · t) :=
  Cost.isLeastOf_iff.mpr ⟨fun _ => leastSize_fits hg, fun _ => exists_completes hg hw⟩

-- A refinement has no completions but those of the tree it refines.
theorem leastSize_of_refines (hg : p.grammar.Regular) (hw : p.grammar.WellFormed expected s)
    (h : s.Refines t) : (p.leastSize t).atMost (p.leastSize s) = true := by
  refine Cost.atMost_iff.mpr fun n hn => ?_
  obtain ⟨m, hmn, hm⟩ := hn
  obtain ⟨u, hu, rfl⟩ := exists_completes hg hw hm
  exact (leastSize_fits hg (hu.of_refines h)).mono hmn

-- Numbers grow too large only where a table can, or where there is no completion.
theorem measure_eq_error (hg : p.grammar.Regular) (hw : p.grammar.WellFormed expected t) {halt : Halt}
    (h : p.measure t = .error halt) :
    halt = .overflow ∧ (¬ p.grammar.Modest ∨ ∀ u, ¬ p.Completes u t) := by
  rcases measure_reckons hg t with hok | ⟨hover, hstrained⟩
  · cases hok.symm.trans h
  · refine ⟨(Except.error.inj (hover.symm.trans h)).symm, hstrained.imp ?_ ?_⟩
    · exact fun hrange hmodest => hrange (inRange_of_modest hg hmodest)
    · exact (p.leastSize_isLeastOf hg hw).eq_infinite_iff.mp

end Problem

namespace Branch

-- The bound on the size is the exact one where it is a number or infinity. Neither requests nor
-- commands, wherever they end, nor copies ever lower it.
theorem measure_exact (hg : p.grammar.Reachable) :
    (∀ expected t, p.grammar.WellFormed expected t →
      (∀ cost, p.measure t = .ok cost → cost.IsLeastOf .size (p.Completes · t) ∧
        (cost = .infinite ↔ ∀ u, ¬ p.Completes u t) ∧ (t.Complete → cost = .finite t.size)) ∧
      ∀ halt, p.measure t = .error halt →
        halt = .overflow ∧ (¬ p.grammar.Modest ∨ ∀ u, ¬ p.Completes u t)) ∧
    ∀ (b c : Branch) commands before after, p.grammar.WellFormed none b.tree → b.Ran p commands c →
      p.measure b.tree = .ok before → p.measure c.tree = .ok after → before.atMost after = true := by
  have hsame {t : Tree} {cost : Cost} (h : p.measure t = .ok cost) : cost = p.leastSize t :=
    (Problem.measure_reckons hg.regular t).reckons.eq_of_ok h
  refine ⟨fun expected t hw => ⟨fun cost hcost => ?_, fun _ => Problem.measure_eq_error hg.regular hw⟩, ?_⟩
  · obtain rfl := hsame hcost
    have hleast := p.leastSize_isLeastOf hg.regular hw
    exact ⟨hleast, hleast.eq_infinite_iff, Problem.leastSize_of_complete⟩
  · intro b c commands before after hw hrun hbefore hafter
    obtain ⟨hwc, hlasts⟩ := hrun.lasts hg.regular hw
    rw [hsame hbefore, hsame hafter]
    exact p.leastSize_of_refines hg.regular hwc hlasts.refines

section Twins

-- Two open positions that become one node more than before each.
theorem measure_exact_twins :
    Problem.twins.measure twinsOpen.tree = .ok (.finite 3) ∧
      (∃ u, Problem.twins.Completes u twinsOpen.tree ∧ u.size = 3) ∧
      (∀ u, Problem.twins.Completes u twinsOpen.tree → 3 ≤ u.size) ∧
      twinsOpen.Ran .twins [.request (.equate [0] [1]), .request (.fill [0] 1)] twinsFilled ∧
      Problem.twins.measure twinsFilled.tree = .ok (.finite 7) ∧
      (Cost.finite 3).atMost (.finite 7) = true := by
  have hsize : Problem.twins.measure twinsOpen.tree = .ok (.finite 3) := by
    decide +kernel
  have hfilled : Problem.twins.measure twinsFilled.tree = .ok (.finite 7) := by
    decide +kernel
  have hequate : ((Command.request (.equate [0] [1])).work .twins 2).run twinsOpen = .ok () twinsUnited := by
    decide +kernel
  have hfill : ((Command.request (.fill [0] 1)).work .twins 2).run twinsUnited = .ok () twinsFilled := by
    decide +kernel
  have hrun : twinsOpen.Ran .twins [.request (.equate [0] [1]), .request (.fill [0] 1)] twinsFilled :=
    .command _ (.command _ .refl hequate) hfill
  have hw : Grammar.twins.WellFormed none twinsOpen.tree :=
    (Grammar.check_ofTree Grammar.reachable_twins.regular 0).mp rfl
  obtain ⟨hexact, hmonotone⟩ := measure_exact (p := .twins) Grammar.reachable_twins
  obtain ⟨hleast, -, -⟩ := (hexact none twinsOpen.tree hw).1 _ hsize
  exact ⟨hsize, hleast.1, hleast.2, hrun, hfilled, hmonotone _ _ _ _ _ hw hrun hsize hfilled⟩

end Twins

end Branch

end TreeSearch
