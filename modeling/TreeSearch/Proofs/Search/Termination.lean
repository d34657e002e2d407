import TreeSearch.Proofs.Search.Attempts
import TreeSearch.Proofs.Search.Exactness

namespace TreeSearch.Enumerator

variable {e : Enumerator} {fuel : Nat} {pass next last : Pass} {b c : Branch}
  {work : Nat → BranchM Bool}

section Trying

theorem tryRule_finishes {path : Path} {rule : Nat}
    (h : e.problem.Finishes fun fuel => (e.attempt path rule fuel).runOn b.fork) :
    e.problem.Finishes fun fuel => e.tryRule fuel b path rule :=
  h.bind fun _ _ => .of_ok (.of_forall fun _ => rfl)

theorem Attempts.of_visits {path : Path} {category : String} {rules : Domain} {rule : Nat}
    (hv : e.Visits b) (hchosen : e.strategy.hole? b.tree = some path)
    (hs : b.tree.get? path = some (.hole category rules)) (hr : rule ∈ rules) :
    e.Attempts (e.attempt path rule) b.fork := by
  obtain ⟨work, first, steps, hwork, hdone⟩ := hv
  exact .rule hwork hdone hchosen hs hr

theorem Visits.of_attempt {path : Path} {category : String} {rules : Domain} {rule : Nat}
    (hv : e.Visits b) (hchosen : e.strategy.hole? b.tree = some path)
    (hs : b.tree.get? path = some (.hole category rules)) (hr : rule ∈ rules)
    (h : e.tryRule fuel b path rule = .ok (some c)) : e.Visits c := by
  obtain ⟨feasible, d, hrun, hd⟩ := tryRule_eq_ok.mp h
  have hattempt := Attempts.of_visits hv hchosen hs hr
  cases feasible with
  | false => cases hd
  | true =>
      obtain rfl : c = d := Option.some.inj hd
      exact ⟨_, _, fuel, hattempt, hrun⟩

-- Expanding a branch tries every rule of a hole.
theorem expand_finishes
    (hends : ∀ work b, e.Attempts work b → e.problem.Finishes fun steps => (work steps).runOn b)
    (hv : e.Visits b) (hc : b.isComplete = false) : e.problem.Finishes fun fuel => e.expand fuel b := by
  obtain ⟨path, category, d, hchosen, hs, hexpand⟩ := e.exists_expand_eq hc
  simp only [hexpand]
  refine .mapM fun rule hr => tryRule_finishes (hends _ _ ?_)
  exact .of_visits hv hchosen hs ((Domain.mem_rules rule d).mp hr)

theorem expand_visits (hg : e.problem.grammar.Regular) (hv : e.Visits b) (hc : b.isComplete = false)
    {outcomes : List (Option Branch)} (h : e.expand fuel b = .ok outcomes) :
    outcomes.length ≤ e.problem.grammar.rules.length ∧
      ∀ c ∈ outcomes.filterMap id, e.Visits c := by
  obtain ⟨path, category, d, hchosen, hs, hexpand⟩ := e.exists_expand_eq hc
  rw [hexpand] at h
  have htried := Except.mapM_eq_ok.mp h
  refine ⟨?_, fun c hc => ?_⟩
  · rw [← htried.length_eq]
    exact ((hv.settled hg).ready.sound.wellFormed.get? hs).domain_size_le
  · obtain ⟨found, hin, rfl⟩ := List.mem_filterMap.mp hc
    obtain ⟨rule, hr, hf⟩ := exists_of_forall₂ htried.flip hin
    exact hv.of_attempt hchosen hs ((Domain.mem_rules rule d).mp hr) hf

end Trying

section Bulk

-- Fewer summands than the base, all of smaller powers, do not come up to a power.
theorem sum_pow_lt {n k : Nat} {l : List Nat} (hlen : l.length ≤ n) (hlt : ∀ j ∈ l, j < k) :
    (l.map fun j => (n + 1) ^ j).sum < (n + 1) ^ k := by
  have hsum : (n + 1) * (l.map fun j => (n + 1) ^ j).sum ≤ l.length * (n + 1) ^ k := by
    clear hlen
    induction l with
    | nil => simp
    | cons j l ih =>
        have hfirst : (n + 1) * (n + 1) ^ j ≤ (n + 1) ^ k := by
          rw [← Nat.pow_succ']
          exact Nat.pow_le_pow_right (Nat.succ_pos n) (hlt j List.mem_cons_self)
        have hrest := ih fun i hi => hlt i (List.mem_cons_of_mem j hi)
        rw [List.map_cons, List.sum_cons, List.length_cons, Nat.mul_add, Nat.succ_mul l.length,
          Nat.add_comm]
        exact Nat.add_le_add hrest hfirst
  have hpos : 0 < (n + 1) ^ k := Nat.pow_pos (Nat.succ_pos n)
  refine Nat.lt_of_mul_lt_mul_left (a := n + 1) ?_
  calc (n + 1) * (l.map fun j => (n + 1) ^ j).sum ≤ l.length * (n + 1) ^ k := hsum
    _ ≤ n * (n + 1) ^ k := Nat.mul_le_mul_right _ hlen
    _ < (n + 1) * (n + 1) ^ k := Nat.mul_lt_mul_of_pos_right (Nat.lt_succ_self n) hpos

-- What can still come of the branches of a frontier whose trees keep within some depth.
def bulk (e : Enumerator) (D : Nat) (frontier : Frontier) : Nat :=
  (frontier.map fun entry =>
    (e.problem.grammar.rules.length + 1) ^ e.problem.weight D entry.branch.tree).sum

theorem bulk_perm {D : Nat} {frontier other : Frontier} (h : frontier.Perm other) :
    e.bulk D frontier = e.bulk D other :=
  (h.map _).sum_eq

theorem bulk_append (D : Nat) (frontier other : Frontier) :
    e.bulk D (frontier ++ other) = e.bulk D frontier + e.bulk D other := by
  simp [bulk]

theorem bulk_cons (D : Nat) (entry : Waiting) (frontier : Frontier) :
    e.bulk D (entry :: frontier) =
      (e.problem.grammar.rules.length + 1) ^ e.problem.weight D entry.branch.tree +
        e.bulk D frontier := by
  simp [bulk]

theorem bulk_tail_lt (D : Nat) (entry : Waiting) (frontier : Frontier) :
    e.bulk D frontier < e.bulk D (entry :: frontier) := by
  rw [bulk_cons]
  exact Nat.lt_add_of_pos_left (Nat.pow_pos (Nat.succ_pos _))

-- Lighter branches, no more than there are rules, are less than the branch they come from.
theorem bulk_children_lt {D : Nat} {entry : Waiting} {entries frontier : Frontier}
    (hlen : entries.length ≤ e.problem.grammar.rules.length)
    (hlight : ∀ x ∈ entries, e.problem.weight D x.branch.tree < e.problem.weight D entry.branch.tree) :
    e.bulk D (entries ++ frontier) < e.bulk D (entry :: frontier) := by
  have hsum := sum_pow_lt (n := e.problem.grammar.rules.length)
    (l := entries.map fun x => e.problem.weight D x.branch.tree) (by rwa [List.length_map])
    (List.forall_mem_map.mpr hlight)
  rw [List.map_map] at hsum
  rw [bulk_append, bulk_cons]
  exact Nat.add_lt_add_right hsum _

end Bulk

section Pulling

-- Two numbers are all that there is to see of an entry.
theorem waiting_finishes (hg : e.problem.grammar.Regular) (hv : e.Visits b) :
    e.problem.Finishes fun _ => e.waiting b := by
  unfold waiting
  cases e.strategy with
  | depthFirst => exact .of_ok (.of_forall fun _ => rfl)
  | breadthFirst =>
      have hmeasured := (Problem.measure_reckons hg b.tree).mono ((hv.promising hg).not_inRange hg)
      exact .bind (.of_reckons hmeasured) fun _ _ => .of_ok (.of_forall fun _ => rfl)

theorem pull_succ {limit : Option Nat} (hlimit : limit ≠ some 0) (fuel : Nat) (pass : Pass) :
    e.pull (fuel + 1) limit pass = e.step fuel pass >>= fun progress => match progress with
      | .finished => .ok ([], pass)
      | .expanded next => e.pull fuel limit next
      | .yielded tree next => e.pull fuel (limit.map (· - 1)) next >>= fun (trees, last) =>
          .ok (tree :: trees, last) := by
  obtain _ | _ | n := limit
  · rfl
  · exact absurd rfl hlimit
  · rfl

-- A step takes one branch from the frontier, and whatever it adds has been visited.
theorem step_finishes (hg : e.problem.grammar.Regular)
    (hends : ∀ work b, e.Attempts work b → e.problem.Finishes fun steps => (work steps).runOn b)
    (hvisits : ∀ entry ∈ pass.frontier, e.Visits entry.branch) :
    e.problem.Finishes fun fuel => e.step fuel pass := by
  unfold step
  cases hf : pass.frontier with
  | nil => exact .of_ok (.of_forall fun _ => rfl)
  | cons entry rest =>
      have hentry : e.Visits entry.branch := hvisits entry (hf ▸ List.mem_cons_self)
      cases hc : entry.branch.isComplete with
      | true =>
          simp only [hc, if_true]
          exact .of_ok (.of_forall fun _ => rfl)
      | false =>
          simp only [hc, Bool.false_eq_true, if_false]
          refine (expand_finishes hends hentry hc).bind fun outcomes ⟨N, hexpand⟩ => ?_
          obtain ⟨-, hchildren⟩ := expand_visits hg hentry hc (hexpand N (Nat.le_refl N))
          refine .bind (.mapM fun c hin => waiting_finishes hg (hchildren c hin)) fun _ _ => ?_
          exact .of_ok (.of_forall fun _ => rfl)

theorem step_visits (hg : e.problem.grammar.Regular)
    (hvisits : ∀ entry ∈ pass.frontier, e.Visits entry.branch) {progress : Progress}
    (h : e.step fuel pass = .ok progress) :
    match progress with
    | .finished => True
    | .yielded _ next | .expanded next => ∀ entry ∈ next.frontier, e.Visits entry.branch := by
  have hstep := step_eq_ok h
  cases progress with
  | finished => trivial
  | yielded tree next =>
      obtain ⟨entry, hf, -, -⟩ := hstep
      exact fun x hx => hvisits x (hf ▸ List.mem_cons_of_mem entry hx)
  | expanded next =>
      obtain ⟨entry, rest, outcomes, entries, hf, hc, hexpand, hentries, hnext⟩ := hstep
      obtain ⟨-, hchildren⟩ := expand_visits hg (hvisits entry (hf ▸ List.mem_cons_self)) hc hexpand
      intro x hx
      rw [hnext] at hx
      rcases List.mem_append.mp ((Frontier.addAll_perm rest e.strategy entries).subset hx) with hx | hx
      · exact hchildren x.branch (mem_of_waiting hentries hx)
      · exact hvisits x (hf ▸ List.mem_cons_of_mem entry hx)

-- With the branches of an expansion the frontier is less than it was.
theorem step_bulk_lt (hg : e.problem.grammar.Regular) {D : Nat}
    (hshallow : ∀ b, e.Visits b → b.tree.depth ≤ D)
    (hvisits : ∀ entry ∈ pass.frontier, e.Visits entry.branch) {progress : Progress}
    (h : e.step fuel pass = .ok progress) :
    match progress with
    | .finished => True
    | .yielded _ next | .expanded next => e.bulk D next.frontier < e.bulk D pass.frontier := by
  have hstep := step_eq_ok h
  cases progress with
  | finished => trivial
  | yielded tree next =>
      obtain ⟨entry, hf, -, -⟩ := hstep
      rw [hf]
      exact bulk_tail_lt D entry next.frontier
  | expanded next =>
      obtain ⟨entry, rest, outcomes, entries, hf, hc, hexpand, hentries, hnext⟩ := hstep
      have hentry := hvisits entry (hf ▸ List.mem_cons_self)
      obtain ⟨hlen, hchildren⟩ := expand_visits hg hentry hc hexpand
      obtain ⟨hlight, -⟩ := expand_spec hg (hentry.settled hg) hc hexpand
      show e.bulk D next.frontier < e.bulk D pass.frontier
      rw [hf, hnext, bulk_perm (Frontier.addAll_perm rest e.strategy entries)]
      refine bulk_children_lt ?_ fun x hx => ?_
      · rw [← (Except.mapM_eq_ok.mp hentries).length_eq]
        exact Nat.le_trans (List.length_filterMap_le _ _) hlen
      · have hin := mem_of_waiting hentries hx
        exact (hlight x.branch hin).2 D (hshallow x.branch (hchildren x.branch hin))

-- A pass goes through a frontier of branches that it visits, and comes to its end.
theorem pull_finishes (hg : e.problem.grammar.Regular)
    (hends : ∀ work b, e.Attempts work b → e.problem.Finishes fun steps => (work steps).runOn b)
    {D : Nat} (hshallow : ∀ b, e.Visits b → b.tree.depth ≤ D)
    (hvisits : ∀ entry ∈ pass.frontier, e.Visits entry.branch) (limit : Option Nat) :
    e.problem.Finishes fun fuel => e.pull fuel limit pass := by
  induction hn : e.bulk D pass.frontier using Nat.strong_induction_on generalizing pass limit with
  | _ n ih =>
      subst hn
      by_cases hlimit : limit = some 0
      · subst hlimit
        exact .of_ok (.of_forall fun fuel => by cases fuel <;> rfl)
      · refine .succ (pull_succ hlimit · pass) ((step_finishes hg hends hvisits).bind ?_)
        rintro progress ⟨N, hstep⟩
        have hvisited := step_visits hg hvisits (hstep N (Nat.le_refl N))
        have hbulk := step_bulk_lt hg hshallow hvisits (hstep N (Nat.le_refl N))
        cases progress with
        | finished => exact .of_ok (.of_forall fun _ => rfl)
        | expanded next => exact ih _ hbulk hvisited limit rfl
        | yielded tree next =>
            refine (ih _ hbulk hvisited (limit.map (· - 1)) rfl).bind fun _ _ => ?_
            exact .of_ok (.of_forall fun _ => rfl)

end Pulling

section Passes

theorem root?_visits (hg : e.problem.grammar.Regular) {found : Option Branch}
    (h : e.root? fuel = .ok found) (hin : b ∈ found) : e.Visits b := by
  obtain ⟨-, ⟨_, -, -, rfl⟩ | ⟨rules, feasible, c, ho, hrun, rfl⟩⟩ := (root?_eq_ok hg).mp h
  · cases hin
  · cases feasible with
    | false => cases hin
    | true =>
        obtain rfl : c = b := Option.some.inj hin
        exact ⟨_, _, fuel, .opening ho, hrun⟩

theorem root?_finishes (hg : e.problem.grammar.Regular) (hstart : e.start ∈ e.problem.grammar.categories)
    (hends : ∀ work b, e.Attempts work b → e.problem.Finishes fun steps => (work steps).runOn b) :
    e.problem.Finishes fun fuel => e.root? fuel := by
  rcases Problem.shallow_reckons hg (p := e.problem) [] with hshallow | ⟨hover, hmeasured⟩
  · obtain ⟨d, hd⟩ := Grammar.domainFor_eq_ok hstart
    by_cases hempty : (d ∩ e.problem.shallowRules []).isEmpty = true
    · refine .of_ok (a := none) (.of_forall fun fuel => ?_)
      exact (root?_eq_ok hg).mpr ⟨hshallow, Or.inl ⟨d, hd, hempty, rfl⟩⟩
    · have ho : e.Opens (d ∩ e.problem.shallowRules []) := ⟨by simpa using hempty, d, hd, rfl⟩
      simp only [root?_of_opens hg hshallow ho]
      exact (hends _ _ (.opening ho)).bind fun _ _ => .of_ok (.of_forall fun _ => rfl)
  · refine Or.inr ⟨.of_forall fun fuel => ?_, Problem.not_inRange_of_overflow hmeasured⟩
    unfold root?
    rw [hover]
    rfl

theorem firstPass_visits (hg : e.problem.grammar.Regular) (h : e.firstPass fuel = .ok pass) :
    ∀ entry ∈ pass.frontier, e.Visits entry.branch := by
  obtain ⟨found, hroot, hentries, -⟩ := firstPass_eq_ok h
  exact fun entry hin => root?_visits hg hroot (Option.mem_toList.mp (mem_of_waiting hentries hin))

theorem firstPass_finishes (hg : e.problem.grammar.Regular)
    (hstart : e.start ∈ e.problem.grammar.categories)
    (hends : ∀ work b, e.Attempts work b → e.problem.Finishes fun steps => (work steps).runOn b) :
    e.problem.Finishes fun fuel => e.firstPass fuel := by
  refine (root?_finishes hg hstart hends).bind fun found ⟨N, hroot⟩ => ?_
  refine .bind (.mapM fun b hin => ?_) fun _ _ => .of_ok (.of_forall fun _ => rfl)
  exact waiting_finishes hg (root?_visits hg (hroot N (Nat.le_refl N)) (Option.mem_toList.mp hin))

-- A pass of branches within some depth comes to its end, when all of its work does.
theorem trees_finish (hg : e.problem.grammar.Regular)
    (hstart : e.start ∈ e.problem.grammar.categories)
    (hends : ∀ work b, e.Attempts work b → e.problem.Finishes fun steps => (work steps).runOn b)
    {D : Nat} (hshallow : ∀ b, e.Visits b → b.tree.depth ≤ D) (limit : Option Nat) :
    e.problem.Finishes fun fuel => e.trees fuel limit := by
  refine (firstPass_finishes hg hstart hends).bind fun first ⟨N, hfirst⟩ => ?_
  exact pull_finishes hg hends hshallow (firstPass_visits hg (hfirst N (Nat.le_refl N))) limit

-- A branch has been gone through when its work has come to a result, and so on for the branches
-- that have come of it.
inductive Explored (e : Enumerator) : Branch → Prop
  | complete {b : Branch} (h : b.isComplete = true) : Explored e b
  | expanded {b : Branch} {fuel : Nat} {outcomes : List (Option Branch)}
      (unfinished : b.isComplete = false) (done : e.expand fuel b = .ok outcomes)
      (below : ∀ c ∈ outcomes.filterMap id, Explored e c) : Explored e b

-- A pass that ends goes through its frontier.
theorem explored_of_pull {trees : List Tree} (h : e.pull fuel none pass = .ok (trees, last)) :
    ∀ entry ∈ pass.frontier, e.Explored entry.branch := by
  induction fuel generalizing pass trees with
  | zero => rcases pull_eq_ok h with ⟨he, -⟩ | ⟨_, _, he, -⟩ <;> cases he
  | succ fuel ih =>
      rcases pull_eq_ok h with ⟨he, -⟩ | ⟨steps, progress, he, hstep, hrest⟩
      · cases he
      · obtain rfl : fuel = steps := by omega
        have hspec := step_eq_ok hstep
        cases progress with
        | finished =>
            have hspec : pass.frontier = [] := hspec
            rw [hspec]
            nofun
        | yielded tree next =>
            obtain ⟨entry, hf, hc, -⟩ := hspec
            obtain ⟨rest, -, hpull⟩ := hrest
            rw [hf]
            intro x hx
            rcases List.mem_cons.mp hx with rfl | hx
            · exact .complete hc
            · exact ih hpull x hx
        | expanded next =>
            obtain ⟨entry, rest, outcomes, entries, hf, hc, hexpand, hentries, hnext⟩ := hspec
            have hall := ih hrest
            have hperm := Frontier.addAll_perm rest e.strategy entries
            rw [hnext] at hall
            rw [hf]
            intro x hx
            rcases List.mem_cons.mp hx with rfl | hx
            · refine .expanded hc hexpand fun c hin => ?_
              obtain ⟨entry, hentry, rfl⟩ := exists_of_waiting hentries hin
              exact hall entry (hperm.symm.subset (List.mem_append_left _ hentry))
            · exact hall x (hperm.symm.subset (List.mem_append_right _ hx))

theorem Explored.tried (h : e.Explored b) {path : Path} {category : String} {rules : Domain}
    {rule : Nat} (hchosen : e.strategy.hole? b.tree = some path)
    (hs : b.tree.get? path = some (.hole category rules)) (hr : rule ∈ rules) :
    ∃ fuel found, e.tryRule fuel b path rule = .ok found ∧ ∀ c ∈ found, e.Explored c := by
  cases h with
  | complete hc =>
      have hin := (Tree.mem_holes b.tree path category rules).mpr hs
      rw [List.isEmpty_iff.mp hc] at hin
      cases hin
  | @expanded _ fuel outcomes hopen done below =>
      obtain ⟨path', category', d, hchosen', hs', hexpand⟩ := e.exists_expand_eq hopen
      obtain rfl : path = path' := Option.some.inj (hchosen.symm.trans hchosen')
      obtain ⟨rfl, rfl⟩ := Tree.hole.inj (Option.some.inj (hs.symm.trans hs'))
      rw [hexpand] at done
      obtain ⟨found, hin, hf⟩ := exists_of_forall₂ (Except.mapM_eq_ok.mp done)
        ((Domain.mem_rules rule rules).mpr hr)
      exact ⟨fuel, found, hf, fun c hc => below c (List.mem_filterMap.mpr ⟨found, hin, hc⟩)⟩

-- All work of a pass that ends comes to a result.
theorem Attempts.of_trees (hg : e.problem.grammar.Regular) {trees : List Tree}
    (h : e.trees fuel none = .ok (trees, last)) (hw : e.Attempts work b) :
    ∃ steps feasible c, (work steps).run b = .ok feasible c ∧
      (feasible = true → e.Explored c) := by
  unfold Enumerator.trees at h
  obtain ⟨first, hfirst, hpull⟩ := Except.bind_eq_ok.mp h
  obtain ⟨found, hroot, hentries, -⟩ := firstPass_eq_ok hfirst
  have hexplored (c : Branch) (hc : c ∈ found) : e.Explored c := by
    obtain ⟨entry, hin, rfl⟩ := exists_of_waiting hentries (Option.mem_toList.mpr hc)
    exact explored_of_pull hpull entry hin
  induction hw with
  | opening opens =>
      rcases ((root?_eq_ok hg).mp hroot).2 with ⟨d, hd, hempty, -⟩ | ⟨rules, feasible, c, ho, hrun, rfl⟩
      · obtain ⟨hne, d', hd', rfl⟩ := opens
        obtain rfl : d = d' := Except.ok.inj (hd.symm.trans hd')
        rw [hempty] at hne
        cases hne
      · obtain ⟨-, d, hd, rfl⟩ := id opens
        obtain ⟨-, d', hd', rfl⟩ := id ho
        obtain rfl : d = d' := Except.ok.inj (hd.symm.trans hd')
        exact ⟨fuel, feasible, c, hrun, fun hf => hexplored c (by simp [hf])⟩
  | @rule work b c steps path category rules rule before done chosen found_ mem ih =>
      obtain ⟨steps', feasible, c', hrun, hc'⟩ := ih
      obtain ⟨rfl, rfl⟩ := (before.gradual hg).ok_unique hrun done
      obtain ⟨fuel', tried, htried, hbelow⟩ := (hc' rfl).tried chosen found_ mem
      obtain ⟨feasible, d, hd, rfl⟩ := tryRule_eq_ok.mp htried
      exact ⟨fuel', feasible, d, hd, fun hf => hbelow d (by simp [hf])⟩

end Passes

section Limits

section Depth

variable {depth : Nat} (hg : e.problem.grammar.Regular) (hl : e.problem.bounds.maxDepth = some depth)

include hg hl

theorem Attempts.finishes_of_maxDepth (h : e.Attempts work b) :
    e.problem.Finishes fun steps => (work steps).runOn b :=
  (h.gradual hg).finishes_of_contained hg ((h.gradual hg).contained_of_maxDepth hg hl)

theorem trees_finish_within (hstart : e.start ∈ e.problem.grammar.categories) (limit : Option Nat) :
    e.problem.Finishes fun fuel => e.trees fuel limit :=
  trees_finish hg hstart (fun _ _ hw => hw.finishes_of_maxDepth hg hl)
    (fun _ hv => (hv.settled hg).hopeful.shallow depth hl) limit

end Depth

variable {g : Grammar} {start : String} {strategy : Strategy} {maxDepth maxSize : Option Int}
  {config : Option Config}

theorem of_eq_ok (h : Enumerator.of g start strategy maxDepth maxSize config = .ok e) :
    e.problem.grammar = g ∧ e.start = start ∧ start ∈ g.categories := by
  unfold Enumerator.of at h
  by_cases hs : start ∈ g.categories
  · rw [if_neg (by simpa using hs)] at h
    obtain ⟨bounds, -, h⟩ := Except.bind_eq_ok.mp h
    obtain rfl := Except.ok.inj h
    exact ⟨rfl, rfl, hs⟩
  · rw [if_pos hs] at h
    cases h

-- With a depth limit every piece of work comes to a result, and so does every part of a pass, unless
-- a table overflows. A full pass leaves the frontier empty.
theorem trees_finish_of_maxDepth (hg : g.Reachable)
    (he : Enumerator.of g start strategy maxDepth maxSize config = .ok e) {depth : Nat}
    (hl : e.problem.bounds.maxDepth = some depth) :
    (∀ work b, e.Attempts work b → e.problem.Finishes fun steps => (work steps).runOn b) ∧
      (∀ limit, e.problem.Finishes fun fuel => e.trees fuel limit) ∧
      ∀ fuel trees pass, e.trees fuel none = .ok (trees, pass) → pass.frontier = [] := by
  obtain ⟨rfl, rfl, hstart⟩ := of_eq_ok he
  refine ⟨fun _ _ hw => hw.finishes_of_maxDepth hg.regular hl,
    trees_finish_within hg.regular hl hstart, fun fuel trees pass h => ?_⟩
  obtain ⟨hend, -⟩ := trees_spec hg.regular h
  exact hend rfl

theorem inRange_endless (bounds : Bounds) : (Problem.of .endless bounds).InRange := by
  have hmodest : Grammar.endless.Modest := by decide
  exact Problem.inRange_of_modest Grammar.reachable_endless.regular hmodest

theorem trees_finish_endless :
    Enumerator.of .endless "S" .depthFirst (some 3) none none = .ok endlessShallow ∧
      ∃ trees pass, pass.frontier = [] ∧
        Eventually (fun fuel => endlessShallow.trees fuel none) (.ok (trees, pass)) := by
  have he : Enumerator.of .endless "S" .depthFirst (some 3) none none = .ok endlessShallow := rfl
  obtain ⟨-, hfinishes, hend⟩ := trees_finish_of_maxDepth Grammar.reachable_endless he rfl
  obtain ⟨⟨trees, pass⟩, N, hN⟩ := (hfinishes none).eventually_ok (inRange_endless _)
  exact ⟨he, trees, pass, hend N trees pass (hN N (Nat.le_refl N)), N, hN⟩

end Limits

end TreeSearch.Enumerator
