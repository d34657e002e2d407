import TreeSearch.Proofs.Branch.Forks
import TreeSearch.Proofs.Branch.Tightness
import TreeSearch.Proofs.Search.Termination

namespace TreeSearch

variable {p : Problem} {b c : Branch} {rules : Domain} {path : Path} {category : String} {d : Domain}
  {r : Nat}

namespace BranchM

-- Work that does not lose a tree keeps within its depth.
theorem contained_of_covers {α : Type} {work : Nat → BranchM α} {T : Tree → Prop} {t : Tree}
    {Q : α → Branch → Prop} {limit : Nat → Nat → Prop}
    (h : ∀ steps, (work steps).Meets b Q (Stops p T (limit steps) b)) (ht : T t) (hb : b.Covers t) :
    Contained work b := by
  refine ⟨t.depth, fun steps c hr => ?_⟩
  obtain ⟨hproceeds, -⟩ := (h steps).error hr
  exact (hproceeds.covers ht hb).2.depth_le

-- There is nothing to show a position to.
theorem announce_of_free (hfree : p.grammar.constraints = []) (fill : Filler)
    (unifying : Bool) (path : Path) : announce p fill unifying path = pure () := by
  rw [announce, hfree]
  rfl

-- A tree that is too large from the start is given up at once.
theorem settle_of_not_sized (hg : p.grammar.Regular) (hf : b.feasible = true)
    (hidle : b.queue.pop.1 = none) (hno : ¬ p.Sized b.tree) :
    (settle p 2).Meets b (fun _ _ => True) fun halt _ => halt ≠ .outOfFuel := by
  have hlimit : ¬ (p.bounds.maxSize.isNone ∧ p.bounds.maxDepth.isNone) := by
    rintro ⟨hnone, -⟩
    exact hno (by simp [Problem.Sized, Option.isNone_iff_eq_none.mp hnone])
  have hmeasure := (Problem.measure_reckons hg b.popped.tree).reckons
  unfold settle
  rw [meets_bind]
  unfold fixPoint
  rw [meets_bind, meets_isFeasible, if_neg (by simp [hf]), meets_bind, meets_pop, hidle]
  show ((tighten p >>= fun again => if again then fixPoint p 0 else isFeasible)).Meets b.popped _ _
  unfold tighten
  rw [if_neg hlimit, meets_bind, meets_bind, meets_get]
  refine .reckon_bind (fun analysis _ => .reckon_bind (fun total htotal => ?_) fun halt hh => ?_) fun halt hh => ?_
  · obtain rfl := hmeasure.eq_of_ok htotal
    rw [if_pos ((any_not_within_iff b.popped.tree).mpr hno)]
    exact trivial
  · simp [hmeasure.halt_of_error hh]
  · simp [(Problem.measured_reckons hg).reckons.halt_of_error hh]

end BranchM

namespace Enumerator

variable {e : Enumerator} {work : Nat → BranchM Bool} {steps : Nat} {feasible : Bool}

-- All work of a pass ends with settling.
theorem Visits.tight (hg : e.problem.grammar.Regular) (h : e.Visits b) : e.problem.Tight b.tree := by
  obtain ⟨work, first, steps, hwork, hr⟩ := h
  obtain ⟨m, hsettle⟩ : ∃ m, (BranchM.settle e.problem steps).run m = .ok true b := by
    cases hwork with
    | opening =>
        obtain ⟨_, m, -, hsettle⟩ := BranchM.run_bind_eq_ok.mp hr
        exact ⟨m, hsettle⟩
    | rule =>
        obtain ⟨_, m, -, hsettle⟩ := BranchM.run_bind_eq_ok.mp hr
        exact ⟨m, hsettle⟩
  obtain ⟨steps', n, hfixed⟩ := Branch.fixPoint_of_settle hsettle
  exact ((BranchM.meets_fixPoint_tight hg steps').ok hfixed rfl).2

section OneLimit

variable (hg : e.problem.grammar.Regular)
  (hone : e.problem.bounds.maxDepth = none ∨ e.problem.bounds.maxSize = none)

include hg hone

-- With one limit at most, a rule that is left has a completion within the limits.
theorem Visits.exists_completes (h : e.Visits b) (hs : b.tree.get? path = some (.hole category d))
    (hr : r ∈ d) : ∃ t cs, e.problem.Completes t b.tree ∧ t.get? path = some (.node r cs) ∧
      e.problem.bounds.Admits t := by
  have hsettled := h.settled hg
  have hw := hsettled.ready.sound.wellFormed
  cases hl : e.problem.bounds.maxSize with
  | some limit =>
      have hdepth : e.problem.bounds.maxDepth = none := hone.resolve_right (by simp [hl])
      obtain ⟨t, cs, ht, hplace, hsize⟩ := (h.tight hg).exists_completes_at hg hw hl hs hr
      exact ⟨t, cs, ht, hplace, by simp [hdepth], by simpa [hl] using hsize⟩
  | none =>
      obtain ⟨t, cs, ht, hplace, hdepth⟩ := (h.roomy hg).exists_completes_at hg hw
        hsettled.hopeful.shallow hsettled.hopeful.rules hs hr
      exact ⟨t, cs, ht, hplace, hdepth, by simp [hl]⟩

-- So has the first hole, if its smallest tree is within the size limit.
theorem Opens.exists_completes (h : e.Opens rules) (hsized : e.problem.Sized (.hole e.start rules)) :
    ∃ t, e.problem.Completes t (.hole e.start rules) ∧ e.problem.bounds.Admits t := by
  cases hl : e.problem.bounds.maxSize with
  | some limit =>
      have hdepth : e.problem.bounds.maxDepth = none := hone.resolve_right (by simp [hl])
      have hwithin := hsized limit hl
      cases hleast : e.problem.leastSize (.hole e.start rules) with
      | infinite =>
          rw [hleast] at hwithin
          cases hwithin
      | finite n =>
          rw [hleast] at hwithin
          obtain ⟨t, ht, rfl⟩ := Problem.exists_completes hg (h.wellFormed hg) hleast
          exact ⟨t, ht, by simp [hdepth], by simpa [hl, Cost.within] using hwithin⟩
  | none =>
      obtain ⟨hopen, d, -, rfl⟩ := h
      obtain ⟨r, hr⟩ := (Domain.isEmpty_eq_false_iff _).mp hopen
      obtain ⟨t, ⟨ht, hc, cs, rfl⟩, hdepth⟩ :=
        (Problem.mem_shallowRules_iff hg).mp ((Domain.mem_inter _ _ _).mp hr).2
      exact ⟨_, ⟨ht, hc, .filled hr⟩, by simpa using hdepth, by simp [hl]⟩

variable (hfree : e.problem.grammar.constraints = [])

include hfree

theorem Visits.exists_admissible_with (h : e.Visits b) (hs : b.tree.get? path = some (.hole category d))
    (hr : r ∈ d) : ∃ t, e.problem.Admissible b t ∧ ∃ cs, t.get? path = some (.node r cs) := by
  obtain ⟨t, cs, ht, hplace, hadmits⟩ := h.exists_completes hg hone hs hr
  exact ⟨t, ⟨(h.settled hg).feasible, ht.wellFormed, ht.complete, ht.refines, hadmits, by simp [hfree]⟩,
    cs, hplace⟩

theorem Visits.exists_admissible (h : e.Visits b) : ∃ t, e.problem.Admissible b t := by
  have hsettled := h.settled hg
  cases hc : b.isComplete with
  | true => exact ⟨b.tree, (hsettled.admissible_iff_eq hc).mpr rfl⟩
  | false =>
      obtain ⟨path, category, d, -, hs⟩ := e.strategy.hole?_eq_some hc
      obtain ⟨r, hr⟩ := (Domain.isEmpty_eq_false_iff d).mp (hsettled.hopeful.rules path category d hs)
      obtain ⟨t, ht, -⟩ := h.exists_admissible_with hg hone hfree hs hr
      exact ⟨t, ht⟩

theorem Visits.attempt_finishes (h : e.Visits b) (hs : b.tree.get? path = some (.hole category d))
    (hr : r ∈ d) : e.problem.Finishes fun steps => (e.attempt path r steps).runOn b.fork := by
  have hsettled := h.settled hg
  obtain ⟨t, ht, hplace⟩ := h.exists_admissible_with hg hone hfree hs hr
  obtain ⟨hsolves, hcovers⟩ := Problem.admissible_iff.mp ht
  refine (gradual_attempt hg hsettled (h.roomy hg) hs r).finishes_of_contained hg ?_
  exact BranchM.contained_of_covers (attempt_proceeds hg hsettled hs fun _ h => h) ⟨hsolves, hplace⟩ hcovers

-- An attempt with any rule that is left comes to a branch.
theorem Visits.survives (hrange : e.problem.InRange) (h : e.Visits b)
    (hs : b.tree.get? path = some (.hole category d)) (hr : r ∈ d) :
    ∃ c, Eventually (fun fuel => e.tryRule fuel b path r) (.ok (some c)) := by
  obtain ⟨found, N, hN⟩ :=
    (tryRule_finishes (h.attempt_finishes hg hone hfree hs hr)).eventually_ok hrange
  obtain ⟨t, ht⟩ := h.exists_admissible_with hg hone hfree hs hr
  obtain ⟨-, hshare⟩ := tryRule_spec hg (h.settled hg) hs (hN N (Nat.le_refl N))
  obtain ⟨c, hc, -⟩ := (hshare t).mpr ht
  obtain rfl : found = some c := hc
  exact ⟨c, N, hN⟩

theorem opening_finishes (h : e.Opens rules) :
    e.problem.Finishes fun steps => (e.opening rules steps).runOn (.of (.hole e.start rules)) := by
  by_cases hsized : e.problem.Sized (.hole e.start rules)
  · obtain ⟨t, ht, hadmits⟩ := h.exists_completes hg hone hsized
    have hsolves : e.problem.Solves t := ⟨ht.wellFormed, ht.complete, hadmits, by simp [hfree]⟩
    refine (gradual_opening hg h).finishes_of_contained hg ?_
    exact BranchM.contained_of_covers (opening_proceeds hg h fun _ h => h) hsolves ⟨rfl, ht.refines⟩
  · have hgiven : (e.opening rules 2).Meets (.of (.hole e.start rules))
        (fun _ _ => True) fun halt _ => halt ≠ .outOfFuel := by
      unfold opening
      rw [BranchM.meets_bind]
      refine (BranchM.Preserves.forM (E := fun _ => False) (I := (· = .of (.hole e.start rules)))
        (fun x _ => ?_) _ rfl).mono ?_ fun _ _ hh => hh.elim
      · show BranchM.Preserves _ _ (BranchM.whenFeasible (BranchM.announce e.problem _ false x.1))
        rw [BranchM.announce_of_free hfree]
        exact .whenFeasible (.pure ())
      · rintro _ _ rfl
        exact BranchM.settle_of_not_sized hg rfl rfl hsized
    refine (gradual_opening hg h).finishes hg 2 fun hout => ?_
    obtain ⟨c, hrun⟩ := BranchM.runOn_eq_error.mp hout
    exact hgiven.error hrun rfl

theorem Attempts.finishes (h : e.Attempts work b) :
    e.problem.Finishes fun steps => (work steps).runOn b := by
  cases h with
  | opening opens => exact opening_finishes hg hone hfree opens
  | rule before done chosen found mem =>
      exact Visits.attempt_finishes hg hone hfree ⟨_, _, _, before, done⟩ found mem

-- So no branch of an expansion is missing.
theorem Visits.expand_keeps (h : e.Visits b) (hc : b.isComplete = false) {fuel : Nat}
    {outcomes : List (Option Branch)} (he : e.expand fuel b = .ok outcomes) :
    (outcomes.filterMap id).length = outcomes.length := by
  obtain ⟨path, category, d, -, hs, hexpand⟩ := e.exists_expand_eq hc
  rw [hexpand] at he
  refine List.filterMap_length_eq_length.mpr fun found hin => ?_
  obtain ⟨r, hr, hfound⟩ := exists_of_forall₂ (Except.mapM_eq_ok.mp he).flip hin
  obtain ⟨t, ht⟩ := h.exists_admissible_with hg hone hfree hs ((Domain.mem_rules r d).mp hr)
  obtain ⟨c, hfound, -⟩ := ((tryRule_spec hg (h.settled hg) hs hfound).2 t).mpr ht
  exact Option.isSome_iff_exists.mpr ⟨c, hfound⟩

end OneLimit

section Moments

variable {fuel : Nat} {pass next last : Pass}

-- The states that a pass goes through.
inductive Moment (e : Enumerator) : Pass → Prop
  | first {fuel : Nat} {pass : Pass} (done : e.firstPass fuel = .ok pass) : Moment e pass
  | yielded {fuel : Nat} {pass next : Pass} {tree : Tree} (h : Moment e pass)
      (done : e.step fuel pass = .ok (.yielded tree next)) : Moment e next
  | expanded {fuel : Nat} {pass next : Pass} (h : Moment e pass)
      (done : e.step fuel pass = .ok (.expanded next)) : Moment e next

theorem Moment.of_pull {limit : Option Nat} {trees : List Tree} (h : e.Moment pass)
    (hpull : e.pull fuel limit pass = .ok (trees, last)) : e.Moment last := by
  induction fuel generalizing pass limit trees with
  | zero =>
      rcases pull_eq_ok hpull with ⟨-, -, rfl⟩ | ⟨_, _, he, -⟩
      · exact h
      · cases he
  | succ fuel ih =>
      rcases pull_eq_ok hpull with ⟨-, -, rfl⟩ | ⟨steps, progress, he, hstep, hrest⟩
      · exact h
      · obtain rfl : fuel = steps := by omega
        cases progress with
        | finished =>
            obtain ⟨-, rfl⟩ := hrest
            exact h
        | expanded next => exact ih (h.expanded hstep) hrest
        | yielded tree next =>
            obtain ⟨rest, -, hpull⟩ := hrest
            exact ih (h.yielded hstep) hpull

-- What is taken of a pass ends at one of its moments.
theorem Moment.of_trees {limit : Option Nat} {trees : List Tree}
    (h : e.trees fuel limit = .ok (trees, last)) : e.Moment last := by
  obtain ⟨first, hfirst, hpull⟩ := Except.bind_eq_ok.mp h
  exact (Moment.first hfirst).of_pull hpull

-- The branches that are missing after an expansion are counted.
theorem pruned_of_step {progress : Progress} (h : e.step fuel pass = .ok progress) :
    match progress with
    | .finished => True
    | .yielded _ next => next.statistics.pruned = pass.statistics.pruned
    | .expanded next => ∃ entry rest outcomes, pass.frontier = entry :: rest ∧
        e.expand fuel entry.branch = .ok outcomes ∧ next.statistics.pruned =
          pass.statistics.pruned + (outcomes.length - (outcomes.filterMap id).length) := by
  unfold step at h
  cases hf : pass.frontier with
  | nil =>
      rw [hf] at h
      obtain rfl := Except.ok.inj h
      trivial
  | cons entry rest =>
      rw [hf] at h
      simp only at h
      cases hc : entry.branch.isComplete with
      | true =>
          rw [if_pos hc] at h
          obtain rfl := Except.ok.inj h
          rfl
      | false =>
          rw [if_neg (by simp [hc])] at h
          obtain ⟨outcomes, hexpand, h⟩ := Except.bind_eq_ok.mp h
          obtain ⟨entries, -, h⟩ := Except.bind_eq_ok.mp h
          obtain rfl := Except.ok.inj h
          exact ⟨entry, rest, outcomes, rfl, hexpand, rfl⟩

-- Every branch that waits comes of the work of a pass, and none was given up.
structure Unpruned (e : Enumerator) (pass : Pass) : Prop where
  visits : ∀ entry ∈ pass.frontier, e.Visits entry.branch
  pruned : pass.statistics.pruned = 0

theorem unpruned_first (hg : e.problem.grammar.Regular) (h : e.firstPass fuel = .ok pass) :
    e.Unpruned pass := by
  obtain ⟨-, -, -, hstatistics⟩ := firstPass_eq_ok h
  exact ⟨firstPass_visits hg h, by rw [hstatistics]⟩

-- A pass cannot begin without the tables, and no other numbers are too large for it.
theorem Moment.inRange (hg : e.problem.grammar.Regular) (hfree : e.problem.grammar.constraints = [])
    (h : e.Moment pass) : e.problem.InRange := by
  induction h with
  | first done =>
      obtain ⟨found, hroot, -⟩ := firstPass_eq_ok done
      have hshallow := ((root?_eq_ok hg).mp hroot).1
      obtain ⟨analysis, hmeasured, -⟩ := Except.bind_eq_ok.mp hshallow
      obtain rfl := (Problem.measured_reckons hg).reckons.eq_of_ok hmeasured
      exact ⟨hmeasured, by simp [hfree]⟩
  | yielded _ _ ih => exact ih
  | expanded _ _ ih => exact ih

variable (hg : e.problem.grammar.Regular)
  (hone : e.problem.bounds.maxDepth = none ∨ e.problem.bounds.maxSize = none)
  (hfree : e.problem.grammar.constraints = [])

include hg hone hfree

theorem Unpruned.step (h : e.Unpruned pass) {progress : Progress} (hstep : e.step fuel pass = .ok progress) :
    match progress with
    | .finished => True
    | .yielded _ next => e.Unpruned next
    | .expanded next => e.Unpruned next := by
  have hvisits := step_visits hg h.visits hstep
  have hspec := step_eq_ok hstep
  have hcount := pruned_of_step hstep
  cases progress with
  | finished => trivial
  | yielded tree next => exact ⟨hvisits, hcount.trans h.pruned⟩
  | expanded next =>
      obtain ⟨entry, rest, outcomes, -, hf, hc, hexpand, -⟩ := hspec
      obtain ⟨entry', rest', outcomes', hf', hexpand', hpruned⟩ := hcount
      obtain ⟨rfl, -⟩ := List.cons.inj (hf.symm.trans hf')
      obtain rfl := Except.ok.inj (hexpand.symm.trans hexpand')
      have hentry : e.Visits entry.branch := h.visits entry (hf ▸ List.mem_cons_self)
      refine ⟨hvisits, ?_⟩
      rw [hpruned, h.pruned, hentry.expand_keeps hg hone hfree hc hexpand, Nat.sub_self]

theorem Moment.unpruned (h : e.Moment pass) : e.Unpruned pass := by
  induction h with
  | first done => exact unpruned_first hg done
  | yielded _ done ih => exact ih.step hg hone hfree done
  | expanded _ done ih => exact ih.step hg hone hfree done

-- The next step comes to a result.
theorem Moment.goes_on (h : e.Moment pass) :
    ∃ progress, Eventually (fun fuel => e.step fuel pass) (.ok progress) := by
  have hvisits := (h.unpruned hg hone hfree).visits
  refine (step_finishes hg (fun _ _ hw => ?_) hvisits).eventually_ok (h.inRange hg hfree)
  exact hw.finishes hg hone hfree

end Moments

section Passes

variable {g : Grammar} {start : String} {strategy : Strategy} {maxDepth maxSize : Option Int}
  {config : Option Config} {pass last : Pass}

-- Without constraints and with one limit at most no branch is ever given up. A pass begins, unless a
-- table overflows, and it goes on as long as there are branches, each branch on the way can still become a tree within the limit,
-- and so can each rule of the hole that it is branched on.
theorem never_backtracks (hg : g.Reachable) (hfree : g.constraints = [])
    (he : Enumerator.of g start strategy maxDepth maxSize config = .ok e)
    (hone : e.problem.bounds.maxDepth = none ∨ e.problem.bounds.maxSize = none) :
    (e.problem.Finishes fun fuel => e.firstPass fuel) ∧
    (∀ fuel limit trees pass, e.trees fuel limit = .ok (trees, pass) → e.Moment pass) ∧
    ∀ pass, e.Moment pass → pass.statistics.pruned = 0 ∧
      (∃ progress, Eventually (fun fuel => e.step fuel pass) (.ok progress)) ∧
      ∀ entry ∈ pass.frontier, (∃ t, e.problem.Admissible entry.branch t) ∧
        ∀ path category rules, entry.branch.tree.get? path = some (.hole category rules) →
          ∀ rule ∈ rules, ∃ c, Eventually (fun fuel => e.tryRule fuel entry.branch path rule) (.ok (some c)) := by
  obtain ⟨rfl, rfl, hstart⟩ := of_eq_ok he
  have hregular := hg.regular
  refine ⟨?_, fun _ _ _ _ => .of_trees, fun pass hpass => ?_⟩
  · exact firstPass_finishes hregular hstart fun _ _ hw => hw.finishes hregular hone hfree
  · have h := hpass.unpruned hregular hone hfree
    have hrange := hpass.inRange hregular hfree
    refine ⟨h.pruned, hpass.goes_on hregular hone hfree, fun entry hin => ?_⟩
    have hentry := h.visits entry hin
    exact ⟨hentry.exists_admissible hregular hone hfree,
      fun path category rules hs rule hr => hentry.survives hregular hone hfree hrange hs hr⟩

theorem one_le_five : ∀ n ∈ some 5, 1 ≤ n := by decide

-- Trees of at most five nodes.
def twinsToFive : Enumerator :=
  ⟨.of .twins { Bounds.none with maxSize := some 5, one_le_size := one_le_five }, "S", .breadthFirst⟩

-- When the leaf has been yielded, a pair of open positions waits, and there is room for a pair in one
-- of them.
theorem never_backtracks_twins :
    Enumerator.of .twins "S" .breadthFirst none (some 5) none = .ok twinsToFive ∧
      ∃ pass entry, twinsToFive.trees 9 (some 1) = .ok ([.node 0 []], pass) ∧ pass.frontier = [entry] ∧
        entry.branch.tree = .twins (.hole "S" (.ofList [0, 1])) ∧ pass.statistics.pruned = 0 ∧
          (∃ t, twinsToFive.problem.Admissible entry.branch t) ∧
            ∃ c, Eventually (fun fuel => twinsToFive.tryRule fuel entry.branch [0] 1) (.ok (some c)) := by
  have he : Enumerator.of .twins "S" .breadthFirst none (some 5) none = .ok twinsToFive := rfl
  obtain ⟨-, hmoment, hall⟩ := never_backtracks Grammar.reachable_twins rfl he (Or.inl rfl)
  have hrun : (fun r => (r.1, r.2.frontier.map (·.branch.tree))) <$> twinsToFive.trees 9 (some 1) =
      .ok ([.node 0 []], [.twins (.hole "S" (.ofList [0, 1]))]) := by
    decide +kernel
  obtain ⟨⟨_, pass⟩, htrees, hshown⟩ := Except.map_eq_ok.mp hrun
  obtain ⟨rfl, hfrontier⟩ := Prod.mk.inj hshown
  obtain ⟨entry, hfrontier, htree⟩ := List.map_eq_singleton_iff.mp hfrontier
  obtain ⟨hpruned, -, hentries⟩ := hall pass (hmoment _ _ _ _ htrees)
  obtain ⟨hadmissible, htried⟩ := hentries entry (hfrontier ▸ List.mem_cons_self)
  have hhole : entry.branch.tree.get? [0] = some (.hole "S" (.ofList [0, 1])) := by
    rw [htree]
    rfl
  exact ⟨he, pass, entry, htrees, hfrontier, htree, hpruned, hadmissible,
    htried [0] "S" (.ofList [0, 1]) hhole 1 ((Domain.mem_ofList [0, 1] 1).mpr (by simp))⟩

end Passes

end Enumerator

end TreeSearch
