import TreeSearch.Proofs.Search.Exactness

namespace TreeSearch

namespace Enumerator

variable (e : Enumerator)

-- The branches of a frontier wait in the order of their smallest completions.
structure Ranked (frontier : Frontier) : Prop where
  measured : ∀ entry ∈ frontier, entry.size = e.problem.leastSize entry.branch.tree
  sorted : frontier.Pairwise fun x y => x.size.atMost y.size = true

variable {e} {fuel : Nat} {frontier : Frontier} {pass next last : Pass} {t u : Tree}

section Frontiers

theorem Ranked.tail {entry : Waiting} (h : e.Ranked (entry :: frontier)) : e.Ranked frontier :=
  ⟨fun x hx => h.measured x (List.mem_cons_of_mem entry hx), (List.pairwise_cons.mp h.sorted).2⟩

theorem measured_of_waiting (hg : e.problem.grammar.Regular) (hs : e.strategy = .breadthFirst)
    {b : Branch} {entry : Waiting} (h : e.waiting b = .ok entry) :
    entry.size = e.problem.leastSize entry.branch.tree := by
  rw [branch_of_waiting h]
  unfold waiting at h
  rw [hs] at h
  obtain ⟨size, hsize, h⟩ := Except.bind_eq_ok.mp h
  obtain rfl := Except.ok.inj h
  exact (Problem.measure_reckons hg b.tree).reckons.eq_of_ok hsize

theorem Ranked.enqueue (h : e.Ranked frontier) {entry : Waiting}
    (hentry : entry.size = e.problem.leastSize entry.branch.tree) :
    e.Ranked (frontier.enqueue entry) := by
  refine ⟨fun x hx => ?_, ?_⟩
  · rcases List.mem_cons.mp ((Frontier.enqueue_perm frontier entry).subset hx) with rfl | hx
    · exact hentry
    · exact h.measured x hx
  · induction frontier with
    | nil => exact List.pairwise_singleton _ _
    | cons first rest ih =>
        obtain ⟨hfirst, -⟩ := List.pairwise_cons.mp h.sorted
        unfold Frontier.enqueue
        split
        · rename_i hle
          refine List.pairwise_cons.mpr ⟨fun x hx => ?_, ih h.tail⟩
          have hin := (Frontier.enqueue_perm rest entry).subset hx
          rcases List.mem_cons.mp hin with rfl | hin
          · exact hle
          · exact hfirst x hin
        · rename_i hlt
          have hle := Cost.atMost_of_not hlt
          refine List.pairwise_cons.mpr ⟨fun x hx => ?_, h.sorted⟩
          rcases List.mem_cons.mp hx with rfl | hx
          · exact hle
          · exact Cost.atMost_trans hle (hfirst x hx)

theorem Ranked.addAll (hg : e.problem.grammar.Regular) (hs : e.strategy = .breadthFirst)
    (h : e.Ranked frontier) {children : List Branch} {entries : Frontier}
    (hentries : children.mapM e.waiting = .ok entries) :
    e.Ranked (Frontier.addAll frontier e.strategy entries) := by
  rw [hs]
  show e.Ranked (entries.foldl Frontier.enqueue frontier)
  induction Except.mapM_eq_ok.mp hentries generalizing frontier with
  | nil => exact h
  | cons hfirst hrest ih =>
      exact ih (h.enqueue (measured_of_waiting hg hs hfirst)) (Except.mapM_eq_ok.mpr hrest)

-- Whatever tree is still to come, it has as many nodes as the first branch asks for.
theorem Ranked.fits_of_awaits (hg : e.problem.grammar.Regular) {entry : Waiting}
    (h : e.Ranked (entry :: frontier)) (ha : e.Awaits (entry :: frontier) u) :
    entry.size.Fits u.size := by
  obtain ⟨other, hin, hu⟩ := ha
  obtain ⟨hsolves, hcovers⟩ := Problem.admissible_iff.mp hu
  have hother : other.size.Fits u.size := by
    rw [h.measured other hin]
    exact Problem.leastSize_fits hg (hsolves.completes hcovers)
  rcases List.mem_cons.mp hin with rfl | hin
  · exact hother
  · exact Cost.atMost_iff.mp ((List.pairwise_cons.mp h.sorted).1 other hin) u.size hother

end Frontiers

section Steps

-- A step keeps the order of the frontier, and it yields the smallest tree still to come.
theorem step_ranked (hg : e.problem.grammar.Regular) (hs : e.strategy = .breadthFirst)
    {progress : Progress} (ho : e.Orderly pass.frontier) (hr : e.Ranked pass.frontier)
    (h : e.step fuel pass = .ok progress) :
    match progress with
    | .finished => True
    | .yielded tree next => e.Ranked next.frontier ∧
        ∀ u, e.Awaits pass.frontier u → tree.size ≤ u.size
    | .expanded next => e.Ranked next.frontier := by
  have hstep := step_eq_ok h
  cases progress with
  | finished => trivial
  | yielded tree next =>
      obtain ⟨entry, hf, hc, rfl⟩ := hstep
      rw [hf] at ho hr ⊢
      refine ⟨hr.tail, fun u hu => ?_⟩
      have hentry := ho.settled entry List.mem_cons_self
      have hcomplete := (Grammar.WellFormed.isComplete_iff hentry.ready.sound.wellFormed).mp hc
      have hfits := hr.fits_of_awaits hg hu
      rw [hr.measured entry List.mem_cons_self, Problem.leastSize_of_complete hcomplete] at hfits
      exact (Cost.finite_fits _ _).mp hfits
  | expanded next =>
      obtain ⟨entry, rest, outcomes, entries, hf, -, -, hentries, hnext⟩ := hstep
      rw [hf] at hr
      show e.Ranked next.frontier
      rw [hnext]
      exact hr.tail.addAll hg hs hentries

end Steps

section Runs

-- Trees that come one after the other, all smaller ones of those that were still to come first.
structure BestFirst (awaited : Tree → Prop) (trees : List Tree) : Prop where
  ascending : trees.Pairwise fun s t => s.size ≤ t.size
  smaller : ∀ before t after, trees = before ++ t :: after →
    ∀ u, awaited u → u.size < t.size → u ∈ before

theorem BestFirst.cons {awaited : Tree → Prop} {trees : List Tree}
    (hleast : ∀ u, awaited u → t.size ≤ u.size) (hin : ∀ s ∈ trees, awaited s)
    (hrest : BestFirst (fun u => awaited u ∧ u ≠ t) trees) : BestFirst awaited (t :: trees) := by
  refine ⟨List.pairwise_cons.mpr ⟨fun s hs => hleast s (hin s hs), hrest.ascending⟩,
    fun before s after he u hu hlt => ?_⟩
  cases before with
  | nil =>
      obtain ⟨rfl, -⟩ := List.cons.inj he
      have := hleast u hu
      omega
  | cons first before =>
      obtain ⟨rfl, htrees⟩ := List.cons.inj he
      by_cases hne : u = t
      · exact hne ▸ List.mem_cons_self
      · exact List.mem_cons_of_mem t (hrest.smaller before s after htrees u ⟨hu, hne⟩ hlt)

theorem pull_best_first (hg : e.problem.grammar.Regular) (hs : e.strategy = .breadthFirst)
    {limit : Option Nat} {trees : List Tree} (ho : e.Orderly pass.frontier)
    (hr : e.Ranked pass.frontier) (h : e.pull fuel limit pass = .ok (trees, last)) :
    BestFirst (e.Awaits pass.frontier) trees := by
  induction fuel generalizing limit pass trees with
  | zero =>
      rcases pull_eq_ok h with ⟨-, rfl, -⟩ | ⟨steps, progress, he, -⟩
      · exact ⟨.nil, by simp⟩
      · cases he
  | succ fuel ih =>
      rcases pull_eq_ok h with ⟨-, rfl, -⟩ | ⟨steps, progress, he, hstep, hrest⟩
      · exact ⟨.nil, by simp⟩
      · obtain rfl : fuel = steps := by omega
        have hranked := step_ranked hg hs ho hr hstep
        have hspec := step_spec hg ho hstep
        cases progress with
        | finished =>
            obtain ⟨rfl, -⟩ := hrest
            exact ⟨.nil, by simp⟩
        | expanded next =>
            obtain ⟨hnext, hsame⟩ := hspec
            have hbest := ih hnext hranked hrest
            exact ⟨hbest.ascending, fun before t after he u hu =>
              hbest.smaller before t after he u ((hsame u).mp hu)⟩
        | yielded tree next =>
            obtain ⟨hnext, -, hsame⟩ := hspec
            obtain ⟨hranked, hleast⟩ := hranked
            obtain ⟨rest, rfl, hpull⟩ := hrest
            have hbest := ih hnext hranked hpull
            obtain ⟨-, -, -, hall⟩ := pull_spec hg hnext hpull
            refine .cons hleast (fun s hs => (hsame s).mpr (Or.inr ((hall s).mpr (Or.inl hs)))) ?_
            refine ⟨hbest.ascending, fun before t after he u ⟨hu, hne⟩ => ?_⟩
            exact hbest.smaller before t after he u (((hsame u).mp hu).resolve_left hne)

theorem firstPass_ranked (hg : e.problem.grammar.Regular) (hs : e.strategy = .breadthFirst)
    (h : e.firstPass fuel = .ok pass) : e.Ranked pass.frontier := by
  obtain ⟨found, -, hentries, -⟩ := firstPass_eq_ok h
  refine ⟨fun entry hin => ?_, pairwise_of_waiting _ hentries⟩
  obtain ⟨b, -, hb⟩ := exists_of_forall₂ (Except.mapM_eq_ok.mp hentries).flip hin
  exact measured_of_waiting hg hs hb

-- Whatever part of a breadth-first pass is taken, its trees never get smaller, and in front of
-- each of them stand all solutions with fewer nodes.
theorem trees_best_first (hg : e.problem.grammar.Reachable) (hs : e.strategy = .breadthFirst)
    (limit : Option Nat) {trees : List Tree} (h : e.trees fuel limit = .ok (trees, pass)) :
    trees.Pairwise (fun s t => s.size ≤ t.size) ∧
      ∀ before t after, trees = before ++ t :: after →
        ∀ u, e.problem.Solution e.start u → u.size < t.size → u ∈ before := by
  obtain ⟨first, hfirst, hpull⟩ := Except.bind_eq_ok.mp h
  obtain ⟨ho, hsolutions⟩ := firstPass_spec hg.regular hfirst
  have hbest := pull_best_first hg.regular hs ho (firstPass_ranked hg.regular hs hfirst) hpull
  exact ⟨hbest.ascending, fun before t after he u hu =>
    hbest.smaller before t after he u ((hsolutions u).mpr hu)⟩

theorem trees_best_first_chains :
    (∃ pass, (chains .breadthFirst).trees 8 (some 3) =
      .ok ([.node 0 [], .node 1 [.node 0 []], .node 1 [.node 1 [.node 0 []]]], pass)) ∧
      ∀ u, (chains .breadthFirst).problem.Solution "S" u → u.size < 3 →
        u ∈ [Tree.node 0 [], .node 1 [.node 0 []]] := by
  have hrun : Prod.fst <$> (chains .breadthFirst).trees 8 (some 3) =
      .ok [.node 0 [], .node 1 [.node 0 []], .node 1 [.node 1 [.node 0 []]]] := by
    decide +kernel
  obtain ⟨⟨_, pass⟩, hpass, rfl⟩ := Except.map_eq_ok.mp hrun
  obtain ⟨-, hsmaller⟩ := trees_best_first (.clearConstraints Grammar.reachable_endless) rfl
    (some 3) hpass
  exact ⟨⟨pass, hpass⟩, hsmaller [.node 0 [], .node 1 [.node 0 []]] _ [] rfl⟩

end Runs

end Enumerator

end TreeSearch
