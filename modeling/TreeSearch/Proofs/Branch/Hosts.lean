import TreeSearch.Proofs.Branch.LeastSize
import TreeSearch.Proofs.Branch.WithinLimits

namespace TreeSearch

variable {p : Problem}

namespace Problem

variable {expected : Option String} {category : String} {d targets : Domain} {path : Path} {t u : Tree}
  {r : Nat}

-- A completion with a rule at a path, and with one of some rules from there on.
def Hosts (p : Problem) (t : Tree) (path : Path) (targets : Domain) (r : Nat) (u : Tree) : Prop :=
  p.Completes u t ∧ ∃ cs, u.get? path = some (.node r cs) ∧ (Tree.node r cs).Carries targets

theorem Hosts.mem (h : p.Hosts t path targets r u) (ht : t.get? path = some (.hole category d)) :
    r ∈ d := by
  obtain ⟨hu, cs, hs, -⟩ := h
  obtain ⟨v, hv, hcompletes⟩ := hu.get? ht
  obtain rfl := Option.some.inj (hs.symm.trans hv)
  exact hcompletes.refines.root_mem rfl

theorem Hosts.roots (h : p.Hosts t path targets r u) :
    ∃ s, u.get? path = some s ∧ p.grammar.Roots r s ∧ s.Carries targets := by
  obtain ⟨hu, cs, hs, hcarries⟩ := h
  exact ⟨_, hs, ⟨hu.wellFormed.get? hs, hu.complete.get? hs, cs, rfl⟩, hcarries⟩

-- The least costs of trees with a target, by the rule at the root.
theorem containing_isLeastOf (hg : p.grammar.Regular) (m : Measure) (targets : Domain) (r : Nat) :
    (((p.grammar.analysis.containing targets).ruleCosts m).cost r).IsLeastOf m
      fun t => p.grammar.Roots r t ∧ t.Carries targets :=
  hg.containing_isLeastOf targets m r

-- The size test asks for a completion within the limit. Its other holes can take smallest trees.
theorem sizeFits_iff (hg : p.grammar.Regular) (hw : p.grammar.WellFormed expected t)
    (ht : t.get? path = some (.hole category d)) (hr : r ∈ d) :
    p.sizeFits (p.leastSize t) (p.grammar.analysis.leastSize d)
        ((p.grammar.analysis.containing targets).ruleSizes.cost r) = true ↔
      ∀ limit ∈ p.bounds.maxSize, ∃ u, p.Hosts t path targets r u ∧ u.size ≤ limit := by
  have hexact := containing_isLeastOf hg .size targets r
  constructor
  · intro h limit hl
    obtain hl : p.bounds.maxSize = some limit := hl
    unfold sizeFits at h
    rw [hl] at h
    cases htotal : p.leastSize t with
    | infinite =>
        rw [htotal] at h
        cases h
    | finite total =>
        obtain ⟨hole, hhole⟩ := exists_leastSize_eq ht htotal
        rw [htotal, hhole] at h
        obtain ⟨s, ⟨⟨hs, hc, cs, rfl⟩, hcarries⟩, hsize⟩ := hexact.within_iff.mp h
        obtain ⟨u, hu, hplace, hsum⟩ :=
          exists_completes_with hg hw ht htotal hhole ⟨hs, hc, .filled hr⟩
        refine ⟨u, ⟨hu, cs, hplace, hcarries⟩, ?_⟩
        rw [Measure.of] at hsize
        omega
  · intro h
    cases hl : p.bounds.maxSize with
    | none =>
        unfold sizeFits
        rw [hl]
    | some limit =>
        obtain ⟨u, hu, hsize⟩ := h limit hl
        obtain ⟨s, hs, hroots, hcarries⟩ := hu.roots
        refine sizeFits_of_completes hg hu.1 (fun other hother => ?_) ht hs ?_
        · obtain rfl : limit = other := Option.some.inj (hl.symm.trans hother)
          exact hsize
        · exact (Cost.isLeastOf_iff.mp hexact).1 s ⟨hroots, hcarries⟩

-- A host passes the size test and the depth test, each on its own.
theorem mem_viableHosts_iff (hg : p.grammar.Regular) (hw : p.grammar.WellFormed expected t)
    (ht : t.get? path = some (.hole category d)) :
    r ∈ p.viableHosts targets path d (p.leastSize t) ↔ r ∈ d ∧
      (∀ limit ∈ p.bounds.maxSize, ∃ u, p.Hosts t path targets r u ∧ u.size ≤ limit) ∧
        ∀ limit ∈ p.bounds.maxDepth, ∃ s, p.grammar.Roots r s ∧ s.Carries targets ∧
          path.length + s.depth ≤ limit := by
  rw [viableHosts, Domain.mem_filter]
  refine and_congr_right fun hr => ?_
  rw [Bool.and_eq_true, sizeFits_iff hg hw ht hr, levels_covers_iff]
  refine and_congr_right fun _ => forall₂_congr fun limit _ => ?_
  refine (containing_isLeastOf hg .depth targets r).within_iff.trans (exists_congr fun s => ?_)
  rw [and_assoc]
  refine and_congr_right fun _ => and_congr_right fun _ => ?_
  rw [Measure.of]
  omega

-- Numbers grow too large only where a table can, or where there is no completion.
theorem hostsAt_reckons (hg : p.grammar.Regular) (hw : p.grammar.WellFormed expected t)
    (ht : t.get? path = some (.hole category d)) :
    ReckonsUnless (¬ p.grammar.Modest ∨ ∀ u, ¬ p.Completes u t) (p.hostsAt t path targets)
      (p.viableHosts targets path d (p.leastSize t)) := by
  have hstrained : p.Strained t → ¬ p.grammar.Modest ∨ ∀ u, ¬ p.Completes u t := by
    refine Or.imp (fun hrange hmodest => hrange (inRange_of_modest hg hmodest)) ?_
    exact (leastSize_isLeastOf hg hw).eq_infinite_iff.mp
  rw [hostsAt, Tree.get_eq_ok ht]
  refine ((measure_reckons hg t).mono hstrained).bind (hosts_reckons_at hg ht hstrained fun ho => ?_)
  refine Or.inl fun hmodest => ?_
  rw [p.contain_eq, (hmodest.contain hg targets)] at ho
  cases ho

end Problem

namespace Branch

variable {a b : Branch} {root : Tree}

theorem Ran.wellFormed (hg : p.grammar.Regular) {fuel : Nat} {commands : List Command}
    (start : Branch.start p fuel root = .ok a) (past : a.Ran p commands b) :
    p.grammar.WellFormed none b.tree := by
  have hedit {path : Path} {old new t u : Tree} (_ : Edit p path old new)
      (_ : Tree.Replaced old new path t u) (_ : True) : True := trivial
  exact (past.keeps hedit hg (Branch.start_keeps hedit hg start trivial)).1

-- The hosts of a hole are among its rules. Where there is a limit each of them can grow a target, and
-- no rule that is left out can within the limits. With a limit on the size alone that decides which
-- rules are hosts. Where there is no limit at all nothing is too large, not even what has no tree, and
-- every rule is a host. Only where numbers grow too large there is no answer.
theorem Ran.hosts_exact (hg : p.grammar.Reachable) {fuel : Nat} {commands : List Command}
    (start : Branch.start p fuel root = .ok a) (past : a.Ran p commands b) {path : Path}
    {category : String} {d : Domain} (hole : b.tree.get? path = some (.hole category d))
    (targets : Domain) :
    (∀ hosts, p.hostsAt b.tree path targets = .ok hosts → (∀ r ∈ hosts, r ∈ d) ∧
      (p.bounds.maxSize ≠ none ∨ p.bounds.maxDepth ≠ none →
        ∀ r ∈ hosts, ∃ t, p.grammar.Roots r t ∧ t.Carries targets) ∧
      (∀ r ∈ d, r ∉ hosts → ∀ u, p.Hosts b.tree path targets r u → ¬ p.bounds.Admits u) ∧
      (p.bounds.maxDepth = none → ∀ limit ∈ p.bounds.maxSize, ∀ r : Nat,
        r ∈ hosts ↔ ∃ u, p.Hosts b.tree path targets r u ∧ u.size ≤ limit) ∧
      (p.bounds.maxSize = none → p.bounds.maxDepth = none → hosts = d)) ∧
    ∀ halt, p.hostsAt b.tree path targets = .error halt →
      halt = .overflow ∧ (¬ p.grammar.Modest ∨ ∀ u, ¬ p.Completes u b.tree) := by
  have hw := past.wellFormed hg.regular start
  have hiff (r : Nat) : r ∈ p.viableHosts targets path d (p.leastSize b.tree) ↔ _ :=
    Problem.mem_viableHosts_iff hg.regular hw hole
  have hreckons : ReckonsUnless _ (p.hostsAt b.tree path targets) _ :=
    Problem.hostsAt_reckons hg.regular hw hole
  refine ⟨fun hosts hhosts => ?_, fun halt herror => ?_⟩
  case refine_2 =>
    rcases hreckons with hok | ⟨hover, hreason⟩
    · cases hok.symm.trans herror
    · exact ⟨(Except.error.inj (hover.symm.trans herror)).symm, hreason⟩
  obtain rfl := hreckons.reckons.eq_of_ok hhosts
  refine ⟨fun r hr => ((hiff r).mp hr).1, fun hlimit r hr => ?_, fun r _ hno u hu hadmits => ?_,
    fun hdepth limit hl r => ?_, fun hsize hdepth => ?_⟩
  · obtain ⟨-, hsize, hdepth⟩ := (hiff r).mp hr
    rcases hlimit with hne | hne
    · obtain ⟨limit, hl⟩ := Option.ne_none_iff_exists'.mp hne
      obtain ⟨u, hu, -⟩ := hsize limit hl
      obtain ⟨s, -, hs⟩ := hu.roots
      exact ⟨s, hs⟩
    · obtain ⟨limit, hl⟩ := Option.ne_none_iff_exists'.mp hne
      obtain ⟨s, hroots, hcarries, -⟩ := hdepth limit hl
      exact ⟨s, hroots, hcarries⟩
  · obtain ⟨hcompletes, cs, hs, hcarries⟩ := hu
    exact hno (Problem.mem_viableHosts hg.regular hcompletes hadmits hole hs hcarries)
  · rw [hiff]
    constructor
    · rintro ⟨-, hsize, -⟩
      exact hsize limit hl
    · rintro ⟨u, hu, hle⟩
      refine ⟨hu.mem hole, fun other hother => ?_, by simp [hdepth]⟩
      obtain rfl : limit = other := Option.some.inj (hl.symm.trans hother)
      exact ⟨u, hu, hle⟩
  · exact Domain.ext fun r => (hiff r).trans (by simp [hsize, hdepth])

-- A limit on the size alone, which leaves room for one pair.
def twinsSized : Problem :=
  .of .twins { Bounds.none with maxSize := some 3, one_le_size := pairBounds.one_le_size }

theorem hosts_exact_twins :
    Branch.start twinsSized 3 (.hole "S" (.ofList [0, 1])) = .ok twinsSeed ∧
      twinsSized.hostsAt twinsSeed.tree [] {1} = .ok {1} ∧
        (∃ u, twinsSized.Hosts twinsSeed.tree [] {1} 1 u ∧ u.size ≤ 3) ∧
          ¬ ∃ u, twinsSized.Hosts twinsSeed.tree [] {1} 0 u ∧ u.size ≤ 3 := by
  have hstart : Branch.start twinsSized 3 (.hole "S" (.ofList [0, 1])) = .ok twinsSeed := rfl
  have hhosts : twinsSized.hostsAt twinsSeed.tree [] {1} = .ok {1} := by
    decide +kernel
  have hhole : twinsSeed.tree.get? [] = some (.hole "S" (.ofList [0, 1])) := rfl
  obtain ⟨-, -, -, hexact, -⟩ :=
    (Ran.hosts_exact Grammar.reachable_twins hstart .refl hhole {1}).1 _ hhosts
  exact ⟨hstart, hhosts, (hexact rfl 3 rfl 1).mp (by decide), mt (hexact rfl 3 rfl 0).mpr (by decide)⟩

-- A leaf can hold no pair. Without limits it counts as a host all the same.
example : (Problem.of .twins .none).hostsAt twinsSeed.tree [] {1} = .ok (.ofList [0, 1]) := by
  decide +kernel

end Branch

end TreeSearch
