import TreeSearch.Proofs.Grammar.Minimums

namespace TreeSearch

-- An item that has been singled out goes back to its place among the others.
theorem forall₂_of_singledOut {α β : Type} {R : α → β → Prop} {a : α} {b : β} {l others : List α}
    {rest : List β} (hm : (a, others) ∈ singledOut l) (ha : R a b)
    (h : List.Forall₂ R others rest) : ∃ k, List.Forall₂ R l k ∧ (b :: rest).Perm k := by
  induction l generalizing others rest with
  | nil => cases hm
  | cons c l ih =>
      rcases List.mem_cons.mp hm with he | hm
      · obtain ⟨rfl, rfl⟩ := Prod.mk.inj he
        exact ⟨b :: rest, .cons ha h, .refl _⟩
      · obtain ⟨⟨x, xs⟩, hx, he⟩ := List.mem_map.mp hm
        obtain ⟨rfl, rfl⟩ := Prod.mk.inj he
        cases h with
        | @cons _ d _ rest hc h =>
            obtain ⟨k, hk, hp⟩ := ih hx h
            exact ⟨d :: k, .cons hc hk, (List.Perm.swap d b rest).trans (hp.cons d)⟩

theorem mem_of_mem_singledOut {α : Type} {a : α} {l others : List α} (h : (a, others) ∈ singledOut l) :
    a ∈ l ∧ ∀ b ∈ others, b ∈ l := by
  induction l generalizing others with
  | nil => cases h
  | cons c l ih =>
      rcases List.mem_cons.mp h with he | hm
      · obtain ⟨rfl, rfl⟩ := Prod.mk.inj he
        exact ⟨List.mem_cons_self, fun b hb => List.mem_cons_of_mem a hb⟩
      · obtain ⟨⟨x, xs⟩, hx, he⟩ := List.mem_map.mp hm
        obtain ⟨rfl, rfl⟩ := Prod.mk.inj he
        obtain ⟨ha, hsub⟩ := ih hx
        refine ⟨List.mem_cons_of_mem c ha, fun b hb => ?_⟩
        rcases List.mem_cons.mp hb with rfl | hb
        · exact List.mem_cons_self
        · exact List.mem_cons_of_mem c (hsub b hb)

namespace Grammar

variable {g : Grammar} {m : Measure} {kind : Tree → Prop} {targets : Domain}

section Gauge

-- Costs are only asked for the shapes of live rules.
theorem Gauges.congr {cost other : CostTable → Shape → Cost} (h : g.Gauges m kind cost)
    (same : ∀ (table : CostTable) (n : Nat) (r : Rule), g.rule? n = some r → r.removed = false →
      other table (g.shape r) = cost table (g.shape r)) : g.Gauges m kind other where
  underbids table i r cs hr hd hk below := by
    obtain ⟨n, rfl, -⟩ := rule?_eq_some hr
    obtain ⟨q, hq, live, -, -⟩ := derives_node_iff.mp hd
    obtain rfl : r = q := Option.some.inj (hr.symm.trans hq)
    rw [same table n r hr live]
    exact h.underbids table n r cs hr hd hk below
  attained table n r hr live below := by
    rw [same table n r hr live]
    exact h.attained table n r hr live below

theorem Regular.containingCost_gauges (hg : g.Regular) (m : Measure) (targets : Domain) :
    g.Gauges m (·.Carries targets)
      (containingCost m targets (g.outline.categoryMinimums m)) where
  underbids := hg.containingCost_underbids m targets
  attained table n r hr live below k hk := by
    have hleast := fun category (hm : category ∈ g.categories) =>
      attained_of_numbered hm ((hg.leastCost_gauges m).settled_attained hg (number_lt hm))
    unfold containingCost at hk
    split at hk
    · -- The rule itself is a target, so the cheapest tree above it holds one.
      rename_i hroot
      obtain ⟨t, ⟨hroots, -⟩, hcost⟩ := (hg.leastCost_gauges m).attained _ n r hr live hleast k hk
      obtain ⟨cs, rfl⟩ := hroots.2.2
      rw [hg.shape_index hr] at hroot
      exact ⟨_, ⟨hroots, Tree.carries_node.mpr (Or.inl ⟨n, rfl, hroot⟩)⟩, hcost⟩
    · obtain ⟨⟨child, others⟩, hsingled, hk⟩ := List.mem_map.mp (Cost.exists_of_leastOf_eq_finite hk)
      obtain ⟨hchild, hothers⟩ := mem_of_mem_singledOut hsingled
      have hknown := hg.numbered_children hr
      obtain ⟨ns, hns⟩ := m.exists_of_above_eq_finite hk
      obtain ⟨own, rest, rfl, hown, hrest⟩ := List.map_eq_cons_iff.mp hns.symm
      obtain ⟨category, hcategory, rfl⟩ := hknown child hchild
      obtain ⟨c, ⟨hd, hcarries⟩, rfl⟩ := below category hcategory own hown.symm
      obtain ⟨ts, hts, hcosts⟩ :=
        exists_children (fun n hn => hknown n (hothers n hn)) hleast hrest.symm
      obtain ⟨cs, hcs, hp⟩ := forall₂_of_singledOut hsingled ⟨category, hcategory, rfl, hd⟩ hts
      refine ⟨.node n cs, ⟨roots_iff.mpr ⟨r, cs, hr, live, rfl, derives_node hr live hcs⟩, ?_⟩, ?_⟩
      · exact Tree.carries_node.mpr (Or.inr ⟨c, hp.subset List.mem_cons_self, hcarries⟩)
      · rw [← m.of_perm n hp]
        have habove := m.above_of n (c :: ts)
        rw [List.map_cons, hown, ← hcosts] at habove
        exact Cost.finite.inj (habove.symm.trans hk)

-- The cost in a pass over the rules, without a limit on the numbers.
def exactTargetCost (g : Grammar) (targets : Domain) (m : Measure) (table : CostTable) (s : Shape) : Cost :=
  if s.index ∈ targets then (g.analysis.ruleCosts m).cost s.index
  else Cost.leastOf ((singledOut s.children).map fun (child, others) =>
    m.above (table.cost child :: others.map (g.analysis.categoryCosts m).cost))

theorem targetCost_reckons (targets : Domain) (m : Measure) (table : CostTable) (s : Shape) :
    Reckons (g.analysis.targetCost targets m table s) (g.exactTargetCost targets m table s) := by
  unfold Analysis.targetCost exactTargetCost
  split
  · exact .pure _
  · exact (Reckons.mapM fun _ _ => m.raiseBeside_reckons _ _).map Cost.leastOf

-- It is the one of which the tables say how it is least.
theorem Regular.exactTargetCost_gauges (hg : g.Regular) (targets : Domain) (m : Measure) :
    g.Gauges m (·.Carries targets) (g.exactTargetCost targets m) := by
  refine (hg.containingCost_gauges m targets).congr fun table n r hr live => ?_
  have hown : (g.analysis.ruleCosts m).cost (g.shape r).index =
      Outline.leastCost m (g.outline.categoryMinimums m) (g.shape r) := by
    rw [outline_ruleCosts, hg.shape_index hr, hg.cost_ruleCosts _ hr live]
  rw [exactTargetCost, containingCost, hown, outline_categoryCosts]

end Gauge

section Exact

theorem outline_containing (g : Grammar) (m : Measure) (targets : Domain) :
    (g.analysis.containing targets).ruleCosts m = g.outline.ruleCosts (containingCost m targets
      (g.outline.categoryMinimums m) (g.outline.settled (containingCost m targets
        (g.outline.categoryMinimums m)))) := by
  cases m <;> rfl

theorem Regular.containing_isLeastOf (hg : g.Regular) (targets : Domain) (m : Measure) (n : Nat) :
    (((g.analysis.containing targets).ruleCosts m).cost n).IsLeastOf m
      fun t => g.Roots n t ∧ t.Carries targets := by
  rw [outline_containing]
  exact (hg.containingCost_gauges m targets).ruleCosts_exact hg n

-- Passes over the rules in place end with the same tables, unless a number is too large.
theorem Regular.contain_reckons (hg : g.Regular) (targets : Domain) :
    Reckons (g.analysis.contain targets) (g.analysis.containing targets) := by
  have hgauges := hg.exactTargetCost_gauges targets
  have hreckons := targetCost_reckons (g := g) targets
  cases hr : g.outline.settle (Ledgers.enter (g.analysis.targetCost targets)) (.blank g.outline) with
  | error halt =>
      obtain rfl := settle_error hg hgauges hreckons hr
      exact Or.inr (congrArg (· >>= _) hr)
  | ok final =>
      have hfinal := gauged_of_settle hg hgauges hreckons hr
      have hrules (m : Measure) : (final.of m).rules = (g.analysis.containing targets).ruleCosts m := by
        refine CostTable.ext ((hfinal m).rules.trans ?_) fun n _ => ?_
        · rw [outline_containing, Outline.size_ruleCosts]
        · exact ((hfinal m).rule n).unique (hg.containing_isLeastOf targets m n)
      have hok : g.analysis.contain targets = .ok ⟨targets, (final.of .size).rules, (final.of .depth).rules⟩ :=
        congrArg (· >>= _) hr
      rw [hrules, hrules] at hok
      exact Or.inl hok

theorem Regular.grammar_contain_reckons (hg : g.Regular) (targets : Domain) :
    Reckons (g.contain targets) (g.analysis.containing targets) :=
  hg.analyse_reckons.bind (hg.contain_reckons targets)

section Modest

theorem length_of_mem_singledOut {α : Type} {a : α} {l others : List α} (h : (a, others) ∈ singledOut l) :
    others.length + 1 = l.length := by
  induction l generalizing others with
  | nil => cases h
  | cons c l ih =>
      rcases List.mem_cons.mp h with he | hm
      · obtain ⟨-, rfl⟩ := Prod.mk.inj he
        rfl
      · obtain ⟨⟨x, xs⟩, hx, he⟩ := List.mem_map.mp hm
        obtain ⟨rfl, rfl⟩ := Prod.mk.inj he
        exact congrArg Nat.succ (ih hx)

-- A child with a target, of at most some size, above others that are least.
theorem Modest.raiseBeside_eq_ok (hm : g.Modest) (hg : g.Regular) {table : CostTable} {s : Shape}
    {bound : Nat} (hs : s ∈ g.outline.shapes)
    (enough : (g.outline.width + 1) ^ (g.outline.categories + 1) ≤ bound)
    (limit : bound * (g.outline.width + 1) ≤ Cost.ceiling) (below : ∀ n, (table.cost n).known ≤ bound)
    {child : Nat} {others : List Nat} (hmem : (child, others) ∈ singledOut s.children) :
    ∃ c, Measure.size.raiseBeside (table.cost child) (others.map g.analysis.categorySizes.cost) = .ok c ∧
      c.known ≤ bound * (g.outline.width + 1) := by
  have hlength : others.length + 1 ≤ g.outline.width :=
    (length_of_mem_singledOut hmem).trans_le (Outline.length_le_width hs)
  have hsum := CostTable.sum_known_le (hm.analyse hg).2.1 others
  generalize g.outline.width = w at *
  -- Another child is smaller by far than one with a target may be.
  have hothers : ((others.map g.analysis.categorySizes.cost).map Cost.known).sum + bound ≤ bound * w := by
    have hleast : (w + 1) ^ g.outline.categories ≤ bound :=
      (Nat.pow_le_pow_right (Nat.succ_pos w) (Nat.le_succ _)).trans enough
    calc ((others.map g.analysis.categorySizes.cost).map Cost.known).sum + bound
        ≤ others.length * bound + bound :=
          Nat.add_le_add_right (hsum.trans (Nat.mul_le_mul_left _ hleast)) _
      _ = bound * (others.length + 1) := by rw [Nat.mul_succ, Nat.mul_comm]
      _ ≤ bound * w := Nat.mul_le_mul_left bound hlength
  have htwo : 2 ≤ bound := by
    have hpow : 2 ^ 1 ≤ (w + 1) ^ (g.outline.categories + 1) :=
      (Nat.pow_le_pow_left (by omega) 1).trans (Nat.pow_le_pow_right (Nat.succ_pos w) (by omega))
    omega
  have hown := (Cost.known_add_le 1 (table.cost child)).trans (Nat.add_le_add_left (below child) 1)
  have hone : Cost.known 1 = 1 := rfl
  have htotal := Cost.known_sum_le (others.map g.analysis.categorySizes.cost)
  rw [Nat.mul_succ] at limit ⊢
  have hraised := Cost.known_add_le (1 + table.cost child) (Cost.sum (others.map g.analysis.categorySizes.cost))
  refine ⟨_, ?_, hraised.trans (by omega)⟩
  rw [Measure.raiseBeside, Cost.total_eq_ok (by omega), Except.ok_bind]
  exact Cost.plus_eq_ok (by omega) (by omega)

theorem Modest.grows_targetCost (hm : g.Modest) (hg : g.Regular) (targets : Domain) :
    Ledgers.Grows g.outline ((g.outline.width + 1) ^ (g.outline.categories + 1)) (g.outline.width + 1)
      (g.analysis.targetCost targets) where
  positive := Nat.succ_pos _
  limit := by
    rw [← Nat.pow_add]
    exact (Nat.pow_le_pow_right (Nat.succ_pos _) (by omega)).trans hm
  size {table s bound} hs enough limit below := by
    unfold Analysis.targetCost
    split
    · refine ⟨_, rfl, ((hm.analyse hg).2.2 s.index).trans (enough.trans ?_)⟩
      exact Nat.le_mul_of_pos_right bound (Nat.succ_pos _)
    · have hone (beside : Nat × List Nat) (hmem : beside ∈ singledOut s.children) :=
        hm.raiseBeside_eq_ok hg hs enough limit below hmem
      obtain ⟨costs, hcosts⟩ := Except.exists_mapM_eq_ok fun beside hmem =>
        (hone beside hmem).imp fun _ hc => hc.1
      refine ⟨_, congrArg (Cost.leastOf <$> ·) hcosts, ?_⟩
      cases hleast : Cost.leastOf costs with
      | infinite => exact Nat.zero_le _
      | finite k =>
          obtain ⟨beside, hmem, hbeside⟩ := exists_of_forall₂ (Except.mapM_eq_ok.mp hcosts).flip
            (Cost.exists_of_leastOf_eq_finite hleast)
          obtain ⟨c, hc, hle⟩ := hone beside hmem
          obtain rfl := Except.ok.inj (hbeside.symm.trans hc)
          exact hle
  depth table s := by
    unfold Analysis.targetCost
    split
    · exact ⟨_, rfl⟩
    · obtain ⟨costs, hcosts⟩ := Except.exists_mapM_eq_ok
        (f := fun beside : Nat × List Nat => Measure.depth.raiseBeside (table.cost beside.1)
          (beside.2.map (g.analysis.categoryCosts .depth).cost))
        (l := singledOut s.children) fun _ _ => ⟨_, rfl⟩
      exact ⟨_, congrArg (Cost.leastOf <$> ·) hcosts⟩

theorem Modest.contain (hm : g.Modest) (hg : g.Regular) (targets : Domain) :
    g.contain targets = .ok (g.analysis.containing targets) := by
  obtain ⟨final, hr, -⟩ := exists_settle_eq_ok hg (hg.exactTargetCost_gauges targets)
    (targetCost_reckons targets) (hm.grows_targetCost hg targets)
  have hok : g.contain targets = .ok ⟨targets, final.sizes.rules, final.depths.rules⟩ := by
    rw [Grammar.contain, (hm.analyse hg).1, Except.ok_bind]
    exact congrArg (· >>= _) hr
  exact (hg.grammar_contain_reckons targets).eq_of_ok hok ▸ hok

theorem Modest.leastContaining (hm : g.Modest) (hg : g.Regular) (m : Measure) (rule : Nat)
    {category : String} (hmem : category ∈ g.categories) : g.leastContaining m rule category =
      .ok (Cost.leastOf ((g.indicesFor category).map ((g.analysis.containing {rule}).ruleCosts m).cost)) := by
  have hrules : g.rulesFor category = .ok (g.indicesFor category) := if_pos hmem
  have hcontain := hm.contain hg {rule}
  rw [Grammar.contain, (hm.analyse hg).1, Except.ok_bind] at hcontain
  rw [Grammar.leastContaining, (hm.analyse hg).1, Except.ok_bind, Domain.single_natCast, hrules]
  show (g.analysis.contain {rule} >>= fun table =>
    Except.ok (Cost.leastOf ((g.indicesFor category).map (table.ruleCosts m).cost))) = _
  rw [hcontain, Except.ok_bind]

end Modest

end Exact

end Grammar

end TreeSearch
