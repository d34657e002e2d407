import TreeSearch.Proofs.Grammar.Gauges

namespace TreeSearch

-- The most children that a rule has.
def Outline.width (o : Outline) : Nat := (o.shapes.map (·.children.length)).foldr max 0

theorem Outline.length_le_width {o : Outline} {s : Shape} (hs : s ∈ o.shapes) :
    s.children.length ≤ o.width := by
  have hle (l : List Nat) (n : Nat) (hn : n ∈ l) : n ≤ l.foldr max 0 := by
    induction l with
    | nil => cases hn
    | cons k l ih =>
        rcases List.mem_cons.mp hn with rfl | hn
        · exact le_max_left _ _
        · exact (ih hn).trans (le_max_right _ _)
  exact hle _ _ (List.mem_map_of_mem hs)

-- A grammar in which no sum that is worked out can be too large. With as many levels as there are
-- categories, a least tree has at most so many nodes, and one more such tree leads to a target.
def Grammar.Modest (g : Grammar) : Prop :=
  (g.outline.width + 1) ^ (2 * g.outline.categories + 2) ≤ Cost.ceiling

instance (g : Grammar) : Decidable g.Modest := inferInstanceAs (Decidable (_ ≤ _))

namespace CostTable

variable {table : CostTable} {start base k : Nat} {c : Cost}

def finiteEntries (table : CostTable) : Finset Nat :=
  (Finset.range table.size).filter fun n => (table.cost n).isFinite = true

theorem mem_finiteEntries {n : Nat} : n ∈ table.finiteEntries ↔ (table.cost n).isFinite = true := by
  rw [finiteEntries, Finset.mem_filter, Finset.mem_range, and_iff_right_iff_imp]
  intro h
  by_contra hn
  simp [CostTable.cost, hn, Cost.isFinite] at h

theorem card_finiteEntries_le (table : CostTable) : table.finiteEntries.card ≤ table.size :=
  (Finset.card_filter_le _ _).trans (Finset.card_range _).le

-- A bound that grows with the number of entries that are finite already.
def Tame (start base : Nat) (table : CostTable) : Prop :=
  ∀ n, (table.cost n).known ≤ start * base ^ table.finiteEntries.card

theorem finiteEntries_lower_subset (table : CostTable) (k : Nat) (c : Cost) :
    table.finiteEntries ⊆ (table.lower k c).1.finiteEntries := by
  intro n hn
  rw [mem_finiteEntries] at hn ⊢
  have hle := table.atMost_lower k c n
  cases htable : table.cost n with
  | infinite => simp [htable, Cost.isFinite] at hn
  | finite m =>
      rw [htable] at hle
      exact (Cost.atMost_iff.mp hle m ⟨m, Nat.le_refl m, rfl⟩).isFinite

-- An entry that becomes finite makes room for the cost that is entered.
theorem Tame.lower (h : table.Tame start base) (hbase : 0 < base)
    (hc : c.known ≤ start * base ^ (table.finiteEntries.card + 1)) :
    (table.lower k c).1.Tame start base := by
  intro n
  have hsubset := table.finiteEntries_lower_subset k c
  have hgrows := Nat.mul_le_mul_left start (Nat.pow_le_pow_right hbase (Finset.card_le_card hsubset))
  rcases table.cost_lower k c n with he | ⟨-, he, hle⟩
  · rw [he]
    exact (h n).trans hgrows
  · rw [he]
    cases htable : table.cost n with
    | finite m =>
        rw [htable] at hle
        obtain ⟨i, hi, rfl⟩ := Cost.atMost_iff.mp hle m ⟨m, Nat.le_refl m, rfl⟩
        have hm := h n
        rw [htable] at hm
        exact (hi.trans hm).trans hgrows
    | infinite =>
        cases c with
        | infinite => exact Nat.zero_le _
        | finite i =>
            have hnew : n ∈ (table.lower k (.finite i)).1.finiteEntries :=
              mem_finiteEntries.mpr (by rw [he]; rfl)
            have hold : n ∉ table.finiteEntries := fun hmem => by
              rw [mem_finiteEntries, htable] at hmem
              cases hmem
            have hcard := Finset.card_lt_card
              ((Finset.ssubset_iff_of_subset hsubset).mpr ⟨n, hnew, hold⟩)
            exact hc.trans (Nat.mul_le_mul_left start (Nat.pow_le_pow_right hbase hcard))

end CostTable

namespace Ledgers

-- Sizes that stay within a bound.
structure Tame (o : Outline) (start base : Nat) (ledgers : Ledgers) : Prop where
  size : ledgers.sizes.categories.size = o.categories
  categories : ledgers.sizes.categories.Tame start base
  rules (n : Nat) : (ledgers.sizes.rules.cost n).known ≤ start * base ^ (o.categories + 1)

variable {o : Outline} {start base : Nat} {cost : Measure → CostTable → Shape → Except Halt Cost}

theorem tame_blank (o : Outline) (start base : Nat) : (blank o).Tame o start base := by
  have hcost (k n : Nat) : CostTable.cost (Array.replicate k .infinite) n = .infinite := by
    by_cases hn : n < k <;> simp [CostTable.cost, hn]
  refine ⟨by simp [blank, Ledger.blank], fun n => ?_, fun n => ?_⟩
  · simp [blank, Ledger.blank, hcost, Cost.known]
  · simp [blank, Ledger.blank, hcost, Cost.known]

theorem Tame.known_le {ledgers : Ledgers} (h : ledgers.Tame o start base) (hbase : 0 < base) (n : Nat) :
    (ledgers.sizes.categories.cost n).known ≤ start * base ^ o.categories := by
  refine (h.categories n).trans (Nat.mul_le_mul_left start (Nat.pow_le_pow_right hbase ?_))
  exact h.size ▸ CostTable.card_finiteEntries_le _

-- What is worked out for a shape is at most so many times as large as the entries that it is worked
-- out from.
structure Grows (o : Outline) (start base : Nat)
    (cost : Measure → CostTable → Shape → Except Halt Cost) : Prop where
  positive : 0 < base
  limit : start * base ^ (o.categories + 1) ≤ Cost.ceiling
  size {table : CostTable} {s : Shape} {bound : Nat} (hs : s ∈ o.shapes) (enough : start ≤ bound)
    (limit : bound * base ≤ Cost.ceiling) (below : ∀ n, (table.cost n).known ≤ bound) :
    ∃ c, cost .size table s = .ok c ∧ c.known ≤ bound * base
  depth (table : CostTable) (s : Shape) : ∃ c, cost .depth table s = .ok c

variable (h : Grows o start base cost) {a : Ledgers} {s : Shape}

include h

-- A visit to tame ledgers succeeds, and leaves them tame.
theorem Grows.enter (ha : a.Tame o start base) (hs : s ∈ o.shapes) :
    ∃ b changed, Ledgers.enter cost a s = .ok (b, changed) ∧ b.Tame o start base := by
  have hcard : a.sizes.categories.finiteEntries.card ≤ o.categories :=
    ha.size ▸ CostTable.card_finiteEntries_le _
  have hlimit := Nat.mul_le_mul_left start
    (Nat.pow_le_pow_right (n := base) h.positive (Nat.succ_le_succ hcard))
  obtain ⟨size, hsize, hle⟩ := h.size hs (Nat.le_mul_of_pos_right start (Nat.pow_pos h.positive))
    (by rw [Nat.mul_assoc, ← Nat.pow_succ]; exact hlimit.trans h.limit) ha.categories
  obtain ⟨depth, hdepth⟩ := h.depth a.depths.categories s
  rw [Nat.mul_assoc, ← Nat.pow_succ] at hle
  refine ⟨_, _, by rw [Ledgers.enter, hsize, Except.ok_bind, hdepth]; rfl, ?_, ?_, fun n => ?_⟩
  · exact CostTable.size_lower.trans ha.size
  · exact ha.categories.lower h.positive hle
  · rcases a.sizes.rules.cost_lower s.index size n with he | ⟨-, he, -⟩
    · exact he.symm ▸ ha.rules n
    · exact he.symm ▸ hle.trans hlimit

theorem Grows.advances (still : ∀ {a b s}, Ledgers.enter cost a s = .ok (b, false) → b = a) :
    Advances (Ledgers.enter cost) o.shapes (Ledgers.Tame o start base) fun _ _ => True where
  refl _ := trivial
  trans _ _ := trivial
  leads hs ha hr := by
    obtain ⟨b, changed, hb, htame⟩ := h.enter ha hs
    obtain ⟨rfl, -⟩ := Prod.mk.inj (Except.ok.inj (hb.symm.trans hr))
    exact ⟨htame, trivial⟩
  still := still

end Ledgers

theorem CostTable.sum_known_le {table : CostTable} {bound : Nat}
    (below : ∀ n, (table.cost n).known ≤ bound) (children : List Nat) :
    ((children.map table.cost).map Cost.known).sum ≤ children.length * bound := by
  induction children with
  | nil => exact Nat.zero_le _
  | cons n children ih =>
      rw [List.map_cons, List.map_cons, List.sum_cons, List.length_cons, Nat.succ_mul, Nat.add_comm]
      exact Nat.add_le_add ih (below n)

namespace Grammar

variable {g : Grammar} {kind : Tree → Prop} {start base : Nat}
  {cost : Measure → CostTable → Shape → Except Halt Cost} {exact : Measure → CostTable → Shape → Cost}

-- Passes end in tame ledgers where what is worked out does not grow too fast.
theorem exists_settle_eq_ok (hg : g.Regular) (h : ∀ m, g.Gauges m kind (exact m))
    (reckons : ∀ m table s, Reckons (cost m table s) (exact m table s))
    (hgrows : Ledgers.Grows g.outline start base cost) :
    ∃ final, g.outline.settle (Ledgers.enter cost) (.blank g.outline) = .ok final ∧
      final.Tame g.outline start base := by
  have hadvances := hgrows.advances (advances_recorded hg h reckons).still
  have hblank := Ledgers.tame_blank g.outline start base
  cases hr : g.outline.settle (Ledgers.enter cost) (.blank g.outline) with
  | ok final => exact ⟨final, rfl, (hadvances.passes_ok hblank hr).1⟩
  | error halt =>
      obtain ⟨k, a, hp, hrun⟩ := exists_of_settle_error hg h reckons hr
      refine (hadvances.sweep_error (P := fun _ => False) (fun a ha s hs halt herror => ?_)
        (hadvances.passed hblank hp) hrun).elim
      obtain ⟨b, changed, hok, -⟩ := hgrows.enter ha hs
      exact nomatch herror.symm.trans hok

-- Costs above the children multiply by at most their number.
theorem Modest.grows_raise (hm : g.Modest) : Ledgers.Grows g.outline 1 (g.outline.width + 1)
    fun m table s => m.raise (s.children.map table.cost) where
  positive := Nat.succ_pos _
  limit := by
    rw [Nat.one_mul]
    exact (Nat.pow_le_pow_right (Nat.succ_pos _) (by omega)).trans hm
  size {table s bound} hs enough limit below := by
    have hsum := CostTable.sum_known_le below s.children
    have hwidth := Nat.mul_le_mul_right bound (Outline.length_le_width hs)
    have hexpand : bound * (g.outline.width + 1) = g.outline.width * bound + bound := by
      rw [Nat.mul_succ, Nat.mul_comm]
    refine ⟨_, congrArg ((1 + ·) <$> ·) (Cost.total_eq_ok (by omega)), ?_⟩
    have hone := Cost.known_add_le 1 (Cost.sum (s.children.map table.cost))
    have hknown := Cost.known_sum_le (s.children.map table.cost)
    have : Cost.known 1 = 1 := rfl
    dsimp only
    omega
  depth _ _ := ⟨_, rfl⟩

end Grammar

end TreeSearch
