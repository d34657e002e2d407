import TreeSearch.Proofs.Grammar.Containment
import TreeSearch.Proofs.Limits

namespace TreeSearch

variable {α β : Type} {P : Prop}

-- What comes to the exact value, or overflows for a reason.
def ReckonsUnless (P : Prop) (result : Except Halt α) (exact : α) : Prop :=
  result = .ok exact ∨ result = .error .overflow ∧ P

namespace ReckonsUnless

variable {result : Except Halt α} {a b : α} {c : β}

theorem pure (a : α) : ReckonsUnless P (.ok a) a := Or.inl rfl

theorem mono {Q : Prop} (h : ReckonsUnless P result a) (hpq : P → Q) : ReckonsUnless Q result a :=
  h.imp_right (And.imp_right hpq)

theorem bind {next : α → Except Halt β} (h : ReckonsUnless P result a)
    (hn : ReckonsUnless P (next a) c) : ReckonsUnless P (result >>= next) c := by
  rcases h with rfl | ⟨rfl, hp⟩
  · exact hn
  · exact Or.inr ⟨rfl, hp⟩

theorem reckons (h : ReckonsUnless P result a) : Reckons result a := h.imp_right And.left

end ReckonsUnless

theorem Reckons.unless {result : Except Halt α} {a : α} (h : Reckons result a)
    (hp : result = .error .overflow → P) : ReckonsUnless P result a :=
  h.imp_right fun ho => ⟨ho, hp ho⟩

namespace Budget

theorem plus_finite (m : Int) (n : Nat) : (finite m).plus (.finite n) = .ok (finite (m + n)) := rfl

theorem plus_eq_finite {budget : Budget} {cost : Cost} {n : Int} (h : budget.plus cost = .ok (finite n)) :
    ∃ m k, budget = finite m ∧ cost = .finite k := by
  have hset {n' : Nat} (hne : budget ≠ finite n) : Cost.againstInfinity n' budget ≠ .ok (finite n) := by
    unfold Cost.againstInfinity
    split
    · exact fun he => hne (Except.ok.inj he)
    · exact nofun
  cases budget with
  | finite m =>
      cases cost with
      | finite k => exact ⟨m, k, rfl, rfl⟩
      | infinite =>
          rcases Cost.againstInfinity_reckons m.natAbs infinite with hr | hr <;> cases hr.symm.trans h
  | infinite | minusInfinite | undefined =>
      cases cost with
      | finite k => exact absurd h (hset nofun)
      | infinite => cases h

theorem minus_eq_finite {budget : Budget} {cost : Cost} {n : Int} (h : budget.minus cost = .ok (finite n)) :
    ∃ m k, budget = finite m ∧ cost = .finite k := by
  obtain ⟨opposite, hplus, ho⟩ := Except.map_eq_ok.mp h
  obtain ⟨m, rfl⟩ : ∃ m, opposite = finite m := by
    cases opposite with
    | finite m => exact ⟨m, rfl⟩
    | infinite | minusInfinite | undefined => cases ho
  obtain ⟨m, k, hb, rfl⟩ := plus_eq_finite hplus
  cases budget with
  | finite l => exact ⟨l, k, rfl, rfl⟩
  | infinite | minusInfinite | undefined => cases hb

theorem whole_eq_ok {budget : Budget} {n : Int} (h : budget.whole = .ok n) : budget = finite n := by
  cases budget with
  | finite m => exact congrArg finite (Except.ok.inj h)
  | infinite | minusInfinite | undefined => cases h

theorem minus_finite (m : Int) (n : Nat) : (finite m).minus (.finite n) = .ok (finite (m - n)) := by
  show Except.ok (finite (-(-m + n))) = _
  rw [show -(-m + (n : Int)) = m - n by omega]

end Budget

namespace Problem

variable {p : Problem} {t : Tree} {path : Path} {category : String} {d targets : Domain}
  {total hole : Cost}

-- All tables that the search looks at can be made.
structure InRange (p : Problem) : Prop where
  measured : p.measured = .ok p.grammar.analysis
  tables : ∀ c ∈ p.grammar.constraints, ∀ targets, c.targets? = some targets →
    p.contain targets = .ok (p.grammar.analysis.containing targets)

theorem not_inRange_of_overflow (h : p.measured = .error .overflow) : ¬ p.InRange :=
  fun hrange => nomatch h.symm.trans hrange.measured

-- Where a number can be too large to be set against infinity.
def Strained (p : Problem) (t : Tree) : Prop := ¬ p.InRange ∨ p.leastSize t = .infinite

theorem not_strained_iff : ¬ p.Strained t ↔ p.InRange ∧ ∃ n, p.leastSize t = .finite n := by
  unfold Strained
  rw [not_or, not_not]
  cases p.leastSize t <;> simp

theorem inRange_of_modest (hg : p.grammar.Regular) (h : p.grammar.Modest) : p.InRange :=
  ⟨p.measured_eq.trans (h.analyse hg).1, fun _ _ targets _ =>
    (p.contain_eq targets).trans (h.contain hg targets)⟩

section Tables

variable (hg : p.grammar.Regular)

include hg

theorem measured_reckons : ReckonsUnless (¬ p.InRange) p.measured p.grammar.analysis :=
  (p.measured_eq ▸ hg.analyse_reckons : Reckons _ _).unless fun ho hrange =>
    nomatch ho.symm.trans hrange.measured

theorem contain_reckons (targets : Domain) :
    Reckons (p.contain targets) (p.grammar.analysis.containing targets) :=
  p.contain_eq targets ▸ hg.grammar_contain_reckons targets

theorem shallow_reckons (path : Path) :
    ReckonsUnless (p.measured = .error .overflow) (p.shallow path) (p.shallowRules path) :=
  ((measured_reckons hg).reckons.unless id).bind (.pure _)

-- Finite sizes add up.
theorem measure_reckons (t : Tree) : ReckonsUnless (p.Strained t) (p.measure t) (p.leastSize t) := by
  refine ((measured_reckons hg).mono Or.inl).bind ((Cost.total_reckons _).unless fun ho => ?_)
  by_contra hs
  obtain ⟨-, n, hn⟩ := not_strained_iff.mp hs
  exact nomatch ho.symm.trans (Cost.total_of_finite hn)

end Tables

section Hosts

-- What is left for the place of a hole covers just what the exact numbers say.
theorem sizeBudget_covers (p : Problem) (total hole : Cost) :
    (∃ budget, p.sizeBudget total hole = .ok budget ∧ ∀ c, budget.covers c = p.sizeFits total hole c) ∨
      p.sizeBudget total hole = .error .overflow ∧ (total = .infinite ∨ hole = .infinite) := by
  unfold sizeBudget sizeFits
  cases p.bounds.maxSize with
  | none => exact Or.inl ⟨.infinite, rfl, fun _ => rfl⟩
  | some limit =>
      cases total with
      | finite n =>
          simp only [Budget.minus_finite, Except.ok_bind]
          cases hole with
          | finite k => exact Or.inl ⟨_, rfl, fun _ => rfl⟩
          | infinite =>
              exact (Cost.againstInfinity_reckons _ _).imp (fun h => ⟨.infinite, h, fun _ => rfl⟩)
                fun h => ⟨h, Or.inr rfl⟩
      | infinite =>
          have hless : Reckons ((Budget.finite limit).minus .infinite) .minusInfinite :=
            (Cost.againstInfinity_reckons _ _).map Budget.opposite
          have hplus : ∃ budget, Reckons (Budget.minusInfinite.plus hole) budget ∧
              ∀ c, budget.covers c = false := by
            cases hole with
            | finite k => exact ⟨.minusInfinite, Cost.againstInfinity_reckons _ _, fun _ => rfl⟩
            | infinite => exact ⟨.undefined, .pure _, fun _ => rfl⟩
          obtain ⟨budget, hbudget, hcovers⟩ := hplus
          exact (hless.bind hbudget).imp (fun h => ⟨budget, h, hcovers⟩) fun h => ⟨h, Or.inl rfl⟩

theorem hosts_reckons (hg : p.grammar.Regular) {rules : Domain} (hrange : ¬ p.InRange → P)
    (htable : p.contain targets = .error .overflow → P)
    (hsize : total = .infinite ∨ p.grammar.analysis.leastSize rules = .infinite → P) :
    ReckonsUnless P (p.hosts targets path rules total) (p.viableHosts targets path rules total) := by
  refine ((measured_reckons hg).mono hrange).bind (((contain_reckons hg targets).unless htable).bind ?_)
  rcases p.sizeBudget_covers total (p.grammar.analysis.leastSize rules) with ⟨budget, hb, hcovers⟩ | ⟨hb, ho⟩
  · rw [hb, Except.ok_bind]
    simp only [hcovers]
    exact .pure _
  · rw [hb]
    exact Or.inr ⟨rfl, hsize ho⟩

-- The hosts of a hole of the tree.
theorem hosts_reckons_at (hg : p.grammar.Regular) (ht : t.get? path = some (.hole category d))
    (hstrained : p.Strained t → P) (htable : p.contain targets = .error .overflow → P) :
    ReckonsUnless P (p.hosts targets path d (p.leastSize t))
      (p.viableHosts targets path d (p.leastSize t)) := by
  refine hosts_reckons hg (fun h => hstrained (Or.inl h)) htable fun h => hstrained (Or.inr ?_)
  rcases h with h | h
  · exact h
  · cases hleast : p.leastSize t with
    | infinite => rfl
    | finite n =>
        obtain ⟨k, hk⟩ := exists_leastSize_eq ht hleast
        exact nomatch h.symm.trans hk

end Hosts

section Fitting

-- A tree that can still become small enough has finite numbers only.
theorem fitting_reckons (hg : p.grammar.Regular)
    (hfinite : p.bounds.maxSize ≠ none → ∃ n k, total = .finite n ∧ hole = .finite k) :
    ReckonsUnless (¬ p.InRange) (p.fitting total path hole) (p.fittingRules total path hole) := by
  refine ((shallow_reckons hg path).mono not_inRange_of_overflow).bind ?_
  unfold fittingRules
  cases hl : p.bounds.maxSize with
  | none => exact .pure _
  | some limit =>
      obtain ⟨n, k, rfl, rfl⟩ := hfinite (by simp [hl])
      simp only [Budget.ofCost, Budget.plus_finite, Budget.minus_finite, Except.ok_bind]
      exact (measured_reckons hg).bind (.pure _)

-- Whatever the numbers are, what is found to fit does fit.
theorem fitting_eq_ok (hg : p.grammar.Regular) {rules : Domain}
    (h : p.fitting total path hole = .ok rules) : rules = p.fittingRules total path hole := by
  refine (fitting_reckons hg fun hl => ?_).reckons.eq_of_ok h
  obtain ⟨limit, hl⟩ := Option.ne_none_iff_exists'.mp hl
  unfold fitting at h
  obtain ⟨shallow, -, h⟩ := Except.bind_eq_ok.mp h
  rw [hl] at h
  obtain ⟨sum, hsum, h⟩ := Except.bind_eq_ok.mp h
  obtain ⟨budget, hbudget, h⟩ := Except.bind_eq_ok.mp h
  obtain ⟨analysis, -, h⟩ := Except.bind_eq_ok.mp h
  obtain ⟨n, hn, -⟩ := Except.bind_eq_ok.mp h
  obtain rfl := Budget.whole_eq_ok hn
  obtain ⟨m, k, rfl, rfl⟩ := Budget.minus_eq_finite hbudget
  obtain ⟨l, -, hl, -⟩ := Budget.plus_eq_finite hsum
  cases hole with
  | finite j => exact ⟨k, j, rfl, rfl⟩
  | infinite => cases hl

end Fitting

end Problem

end TreeSearch
