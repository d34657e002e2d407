import TreeSearch.Proofs.Search.Branching

namespace TreeSearch

namespace Frontier

theorem enqueue_perm (frontier : Frontier) (entry : Waiting) :
    (frontier.enqueue entry).Perm (entry :: frontier) := by
  induction frontier with
  | nil => exact .refl _
  | cons first rest ih =>
      unfold enqueue
      split
      · exact (ih.cons first).trans (.swap entry first rest)
      · exact .refl _

theorem addAll_perm (frontier : Frontier) (strategy : Strategy) (entries : List Waiting) :
    (frontier.addAll strategy entries).Perm (entries ++ frontier) := by
  cases strategy with
  | depthFirst => exact .refl _
  | breadthFirst =>
      show (entries.foldl enqueue frontier).Perm _
      induction entries generalizing frontier with
      | nil => exact .refl _
      | cons entry entries ih =>
          refine (ih (frontier.enqueue entry)).trans ?_
          exact ((enqueue_perm frontier entry).append_left entries).trans List.perm_middle

end Frontier

namespace Enumerator

variable (e : Enumerator)

-- The trees that are still to come from a frontier.
def Awaits (frontier : Frontier) (t : Tree) : Prop :=
  ∃ entry ∈ frontier, e.problem.Admissible entry.branch t

-- The branches of a frontier have settled, and no two of them have a tree in common.
structure Orderly (frontier : Frontier) : Prop where
  settled : ∀ entry ∈ frontier, entry.branch.Settled e.problem
  apart : frontier.Pairwise fun x y =>
    ∀ t, e.problem.Admissible x.branch t → ¬ e.problem.Admissible y.branch t

variable {e} {fuel : Nat} {frontier : Frontier} {pass next last : Pass} {t : Tree}

section Frontiers

theorem Orderly.perm {other : Frontier} (h : e.Orderly frontier) (hp : other.Perm frontier) :
    e.Orderly other := by
  refine ⟨fun entry hin => h.settled entry (hp.subset hin), (hp.pairwise_iff ?_).mpr h.apart⟩
  exact fun hxy t hy hx => hxy t hx hy

theorem awaits_perm {other : Frontier} (hp : other.Perm frontier) :
    e.Awaits other t ↔ e.Awaits frontier t :=
  ⟨fun ⟨entry, hin, ht⟩ => ⟨entry, hp.subset hin, ht⟩,
    fun ⟨entry, hin, ht⟩ => ⟨entry, hp.symm.subset hin, ht⟩⟩

theorem Orderly.tail {entry : Waiting} (h : e.Orderly (entry :: frontier)) : e.Orderly frontier :=
  ⟨fun x hx => h.settled x (List.mem_cons_of_mem entry hx), (List.pairwise_cons.mp h.apart).2⟩

theorem awaits_cons {entry : Waiting} :
    e.Awaits (entry :: frontier) t ↔ e.problem.Admissible entry.branch t ∨ e.Awaits frontier t := by
  simp [Awaits]

theorem awaits_append {other : Frontier} :
    e.Awaits (frontier ++ other) t ↔ e.Awaits frontier t ∨ e.Awaits other t := by
  simp [Awaits, or_and_right, exists_or]

-- The tree of a branch is not awaited anywhere else.
theorem Orderly.not_awaits {entry : Waiting} (h : e.Orderly (entry :: frontier))
    (ht : e.problem.Admissible entry.branch t) : ¬ e.Awaits frontier t := by
  rintro ⟨other, hin, hother⟩
  exact (List.pairwise_cons.mp h.apart).1 other hin t ht hother

-- Branches that share out the trees of the first one take its place.
theorem Orderly.replace {entry : Waiting} {entries : Frontier} (h : e.Orderly (entry :: frontier))
    (hentries : e.Orderly entries)
    (hshare : ∀ t, e.Awaits entries t ↔ e.problem.Admissible entry.branch t) :
    e.Orderly (entries ++ frontier) ∧
      ∀ t, e.Awaits (entries ++ frontier) t ↔ e.Awaits (entry :: frontier) t := by
  refine ⟨⟨fun x hx => ?_, List.pairwise_append.mpr ⟨hentries.apart, h.tail.apart, ?_⟩⟩, fun t => ?_⟩
  · exact (List.mem_append.mp hx).elim (hentries.settled x) (h.tail.settled x)
  · intro x hx y hy t hxt hyt
    exact h.not_awaits ((hshare t).mp ⟨x, hx, hxt⟩) ⟨y, hy, hyt⟩
  · rw [awaits_append, awaits_cons, hshare t]

end Frontiers

section Entries

variable {b : Branch} {children : List Branch} {entry : Waiting} {entries : Frontier}

theorem branch_of_waiting (h : e.waiting b = .ok entry) : entry.branch = b := by
  unfold waiting at h
  split at h
  · obtain ⟨size, -, h⟩ := Except.bind_eq_ok.mp h
    exact Except.ok.inj h ▸ rfl
  · exact Except.ok.inj h ▸ rfl

theorem branches_of_waiting (h : children.mapM e.waiting = .ok entries) :
    entries.map (·.branch) = children := by
  induction Except.mapM_eq_ok.mp h with
  | nil => rfl
  | cons hfirst _ ih => rw [List.map_cons, branch_of_waiting hfirst, ih (Except.mapM_eq_ok.mpr ‹_›)]

theorem mem_of_waiting (h : children.mapM e.waiting = .ok entries) (hin : entry ∈ entries) :
    entry.branch ∈ children :=
  branches_of_waiting h ▸ List.mem_map_of_mem hin

theorem exists_of_waiting (h : children.mapM e.waiting = .ok entries) (hin : b ∈ children) :
    ∃ entry ∈ entries, entry.branch = b :=
  List.mem_map.mp (branches_of_waiting h ▸ hin)

theorem orderly_of_waiting (h : children.mapM e.waiting = .ok entries)
    (hsettled : ∀ c ∈ children, c.Settled e.problem)
    (hapart : children.Pairwise fun c d =>
      ∀ t, e.problem.Admissible c t → ¬ e.problem.Admissible d t) : e.Orderly entries := by
  refine ⟨fun x hx => hsettled x.branch (mem_of_waiting h hx), ?_⟩
  rw [← branches_of_waiting h] at hapart
  exact List.pairwise_map.mp hapart

theorem awaits_of_waiting (h : children.mapM e.waiting = .ok entries) :
    e.Awaits entries t ↔ ∃ c ∈ children, e.problem.Admissible c t := by
  rw [← branches_of_waiting h]
  simp [Awaits]

-- A first branch waits alone.
theorem pairwise_of_waiting {found : Option Branch} (R : Waiting → Waiting → Prop)
    (h : found.toList.mapM e.waiting = .ok entries) : entries.Pairwise R := by
  cases found with
  | none =>
      cases Except.mapM_eq_ok.mp h
      exact .nil
  | some b =>
      obtain _ | ⟨-, hrest⟩ := Except.mapM_eq_ok.mp h
      cases hrest
      exact List.pairwise_singleton R _

theorem firstPass_eq_ok (h : e.firstPass fuel = .ok pass) :
    ∃ found, e.root? fuel = .ok found ∧ found.toList.mapM e.waiting = .ok pass.frontier ∧
      pass.statistics = ⟨0, 0, 0, 0, 0⟩ := by
  unfold firstPass at h
  obtain ⟨found, hroot, h⟩ := Except.bind_eq_ok.mp h
  obtain ⟨entries, hentries, h⟩ := Except.bind_eq_ok.mp h
  obtain rfl := Except.ok.inj h
  exact ⟨found, hroot, hentries, rfl⟩

end Entries

section Steps

-- What a step of a pass comes to.
theorem step_eq_ok {progress : Progress} (h : e.step fuel pass = .ok progress) :
    match progress with
    | .finished => pass.frontier = []
    | .yielded tree next => ∃ entry, pass.frontier = entry :: next.frontier ∧
        entry.branch.isComplete = true ∧ tree = entry.branch.tree
    | .expanded next => ∃ entry rest outcomes entries, pass.frontier = entry :: rest ∧
        entry.branch.isComplete = false ∧ e.expand fuel entry.branch = .ok outcomes ∧
          (outcomes.filterMap id).mapM e.waiting = .ok entries ∧
            next.frontier = Frontier.addAll rest e.strategy entries := by
  unfold step at h
  cases hf : pass.frontier with
  | nil =>
      rw [hf] at h
      obtain rfl := Except.ok.inj h
      rfl
  | cons entry rest =>
      rw [hf] at h
      simp only at h
      cases hc : entry.branch.isComplete with
      | true =>
          rw [if_pos hc] at h
          obtain rfl := Except.ok.inj h
          exact ⟨entry, rfl, hc, rfl⟩
      | false =>
          rw [if_neg (by simp [hc])] at h
          obtain ⟨outcomes, hexpand, h⟩ := Except.bind_eq_ok.mp h
          obtain ⟨entries, hentries, h⟩ := Except.bind_eq_ok.mp h
          obtain rfl := Except.ok.inj h
          exact ⟨entry, rest, outcomes, entries, rfl, hc, hexpand, hentries, rfl⟩

-- A step keeps the trees that are still to come, except the one that it yields.
theorem step_spec (hg : e.problem.grammar.Regular) {progress : Progress}
    (ho : e.Orderly pass.frontier) (h : e.step fuel pass = .ok progress) :
    match progress with
    | .finished => pass.frontier = []
    | .yielded tree next => e.Orderly next.frontier ∧ ¬ e.Awaits next.frontier tree ∧
        ∀ t, e.Awaits pass.frontier t ↔ t = tree ∨ e.Awaits next.frontier t
    | .expanded next => e.Orderly next.frontier ∧
        ∀ t, e.Awaits pass.frontier t ↔ e.Awaits next.frontier t := by
  have hstep := step_eq_ok h
  cases progress with
  | finished => exact hstep
  | yielded tree next =>
      obtain ⟨entry, hf, hc, rfl⟩ := hstep
      rw [hf] at ho ⊢
      have hentry := ho.settled entry List.mem_cons_self
      refine ⟨ho.tail, ho.not_awaits ((hentry.admissible_iff_eq hc).mpr rfl), fun t => ?_⟩
      rw [awaits_cons, hentry.admissible_iff_eq hc]
  | expanded next =>
      obtain ⟨entry, rest, outcomes, entries, hf, hc, hexpand, hentries, hnext⟩ := hstep
      rw [hf] at ho ⊢
      obtain ⟨hsettled, hapart, hshare⟩ := expand_spec hg (ho.settled entry List.mem_cons_self) hc hexpand
      obtain ⟨hchildren, hawaits⟩ := ho.replace
        (orderly_of_waiting hentries (fun c hc => (hsettled c hc).1) hapart)
        fun t => (awaits_of_waiting hentries).trans (hshare t)
      have hperm := Frontier.addAll_perm rest e.strategy entries
      show e.Orderly next.frontier ∧ ∀ t, e.Awaits (entry :: rest) t ↔ e.Awaits next.frontier t
      rw [hnext]
      exact ⟨hchildren.perm hperm, fun t => ((awaits_perm hperm).trans (hawaits t)).symm⟩

end Steps

section Runs

-- What pulling comes to.
theorem pull_eq_ok {limit : Option Nat} {trees : List Tree}
    (h : e.pull fuel limit pass = .ok (trees, last)) :
    (limit = some 0 ∧ trees = [] ∧ last = pass) ∨
      ∃ steps progress, fuel = steps + 1 ∧ e.step steps pass = .ok progress ∧ match progress with
        | .finished => trees = [] ∧ last = pass
        | .expanded next => e.pull steps limit next = .ok (trees, last)
        | .yielded tree next => ∃ rest, trees = tree :: rest ∧
            e.pull steps (limit.map (· - 1)) next = .ok (rest, last) := by
  unfold pull at h
  split at h
  · obtain ⟨rfl, rfl⟩ := Prod.mk.inj (Except.ok.inj h)
    exact Or.inl ⟨rfl, rfl, rfl⟩
  · cases h
  · rename_i steps _
    obtain ⟨progress, hstep, h⟩ := Except.bind_eq_ok.mp h
    refine Or.inr ⟨steps, progress, rfl, hstep, ?_⟩
    cases progress with
    | finished =>
        obtain ⟨rfl, rfl⟩ := Prod.mk.inj (Except.ok.inj h)
        exact ⟨rfl, rfl⟩
    | expanded next => exact h
    | yielded tree next =>
        obtain ⟨⟨rest, last'⟩, hpull, h⟩ := Except.bind_eq_ok.mp h
        obtain ⟨rfl, rfl⟩ := Prod.mk.inj (Except.ok.inj h)
        exact ⟨rest, rfl, hpull⟩

-- The trees that were still to come are those that have been yielded and those that are still
-- to come. Without a limit on their number none are.
theorem pull_spec (hg : e.problem.grammar.Regular) {limit : Option Nat} {trees : List Tree}
    (ho : e.Orderly pass.frontier) (h : e.pull fuel limit pass = .ok (trees, last)) :
    (limit = none → last.frontier = []) ∧ trees.Nodup ∧ (∀ t ∈ trees, ¬ e.Awaits last.frontier t) ∧
      ∀ t, e.Awaits pass.frontier t ↔ t ∈ trees ∨ e.Awaits last.frontier t := by
  induction fuel generalizing limit pass trees with
  | zero =>
      rcases pull_eq_ok h with ⟨rfl, rfl, rfl⟩ | ⟨steps, progress, he, -⟩
      · exact ⟨nofun, List.nodup_nil, nofun, by simp⟩
      · cases he
  | succ fuel ih =>
      rcases pull_eq_ok h with ⟨rfl, rfl, rfl⟩ | ⟨steps, progress, he, hstep, hrest⟩
      · exact ⟨nofun, List.nodup_nil, nofun, by simp⟩
      · obtain rfl : fuel = steps := by omega
        have hspec := step_spec hg ho hstep
        cases progress with
        | finished =>
            obtain ⟨rfl, rfl⟩ := hrest
            exact ⟨fun _ => hspec, List.nodup_nil, nofun, by simp⟩
        | expanded next =>
            obtain ⟨hnext, hsame⟩ := hspec
            obtain ⟨hend, hnodup, hgone, hall⟩ := ih hnext hrest
            exact ⟨hend, hnodup, hgone, fun t => (hsame t).trans (hall t)⟩
        | yielded tree next =>
            obtain ⟨hnext, hnot, hsame⟩ := hspec
            obtain ⟨rest, rfl, hpull⟩ := hrest
            obtain ⟨hend, hnodup, hgone, hall⟩ := ih hnext hpull
            refine ⟨fun hl => hend (by simp [hl]), List.nodup_cons.mpr ⟨fun hin => ?_, hnodup⟩,
              fun t ht => ?_, fun t => ?_⟩
            · exact hnot ((hall tree).mpr (Or.inl hin))
            · rcases List.mem_cons.mp ht with rfl | ht
              · exact fun ha => hnot ((hall t).mpr (Or.inr ha))
              · exact hgone t ht
            · rw [hsame t, hall t, List.mem_cons, or_assoc]

theorem firstPass_spec (hg : e.problem.grammar.Regular) (h : e.firstPass fuel = .ok pass) :
    e.Orderly pass.frontier ∧ ∀ t, e.Awaits pass.frontier t ↔ e.problem.Solution e.start t := by
  obtain ⟨found, hroot, hentries, -⟩ := firstPass_eq_ok h
  obtain ⟨hsettled, hall⟩ := root?_spec hg hroot
  refine ⟨⟨fun entry hin => ?_, pairwise_of_waiting _ hentries⟩, fun t => ?_⟩
  · exact hsettled _ (Option.mem_toList.mp (mem_of_waiting hentries hin))
  · rw [← hall t]
    simp [awaits_of_waiting hentries]

-- Each solution has been yielded or is still to come, and not both.
theorem trees_spec (hg : e.problem.grammar.Regular) {limit : Option Nat} {trees : List Tree}
    (h : e.trees fuel limit = .ok (trees, pass)) :
    (limit = none → pass.frontier = []) ∧ trees.Nodup ∧ (∀ t ∈ trees, ¬ e.Awaits pass.frontier t) ∧
      ∀ t, e.problem.Solution e.start t ↔ t ∈ trees ∨ e.Awaits pass.frontier t := by
  obtain ⟨first, hfirst, hpull⟩ := Except.bind_eq_ok.mp h
  obtain ⟨ho, hsolutions⟩ := firstPass_spec hg hfirst
  obtain ⟨hend, hnodup, hgone, hall⟩ := pull_spec hg ho hpull
  exact ⟨hend, hnodup, hgone, fun t => (hsolutions t).symm.trans (hall t)⟩

-- Whatever part of a pass is taken, its trees are solutions, each of them once. A pass that has
-- come to its end has yielded all solutions, and it comes to its end when the number of trees to
-- take is not limited.
theorem trees_exact (hg : e.problem.grammar.Reachable) (limit : Option Nat) {trees : List Tree}
    (h : e.trees fuel limit = .ok (trees, pass)) :
    trees.Nodup ∧ (∀ t ∈ trees, e.problem.Solution e.start t) ∧
      (limit = none → pass.frontier = []) ∧
      (pass.frontier = [] → ∀ t, t ∈ trees ↔ e.problem.Solution e.start t) := by
  obtain ⟨hend, hnodup, -, hall⟩ := trees_spec hg.regular h
  refine ⟨hnodup, fun t ht => (hall t).mpr (Or.inl ht), hend, fun he t => ?_⟩
  rw [hall t, he]
  simp [Awaits]

-- Chains of any length, with no limit to them.
def chains (strategy : Strategy) : Enumerator :=
  ⟨.of Grammar.endless.clearConstraints .none, "S", strategy⟩

def endlessShallow : Enumerator :=
  ⟨.of .endless ⟨some 3, none, Bounds.one_le_three, Bounds.none.one_le_size⟩, "S", .depthFirst⟩

theorem trees_exact_endless :
    endlessShallow.trees 9 none = .ok ([.node 0 []], ⟨[], ⟨1, 2, 1, 1, 1⟩⟩) ∧
      ∀ t, t ∈ [Tree.node 0 []] ↔ endlessShallow.problem.Solution "S" t := by
  have hrun : endlessShallow.trees 9 none = .ok ([.node 0 []], ⟨[], ⟨1, 2, 1, 1, 1⟩⟩) := by
    decide +kernel
  obtain ⟨-, -, -, hall⟩ := trees_exact Grammar.reachable_endless none hrun
  exact ⟨hrun, hall rfl⟩

end Runs

end Enumerator

end TreeSearch
