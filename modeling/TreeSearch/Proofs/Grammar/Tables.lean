import Mathlib.Data.Finset.Card
import Mathlib.Data.Finset.Range
import Mathlib.Logic.Function.Iterate
import TreeSearch.Proofs.Cost
import TreeSearch.Proofs.Grammar.Trees

namespace TreeSearch

-- Stopping early changes nothing: from then on a step has no effect.
theorem rounds_eq_iterate {α : Type} [DecidableEq α] (step : α → α) (n : Nat) (start : α) :
    rounds step n start = step^[n] start := by
  induction n generalizing start with
  | zero => rfl
  | succ n ih =>
      rw [rounds]
      split
      · rename_i h
        exact (Function.iterate_fixed h (n + 1)).symm
      · rw [ih, Function.iterate_succ_apply]

-- In the order of their cheapest trees, every round gets one more category right. So there are
-- never more rounds to wait for than categories.
theorem right_of_rounds (Costs : Nat → Nat → Prop) (Right : Nat → Nat → Nat → Prop) {bound : Nat}
    (range : ∀ c v, Costs c v → c < bound)
    (mono : ∀ k c v w, v ≤ w → Right k c v → Right k c w)
    (next : ∀ k c v, Costs c v → (∀ i w, w < v → Costs i w → Right k i w) → Right (k + 1) c v)
    {c v : Nat} (h : Costs c v) : Right bound c v := by
  classical
  let cheap (v : Nat) := (Finset.range bound).filter fun c => ∃ w ≤ v, Costs c w
  have hmono (v w : Nat) (hw : w ≤ v) : cheap w ⊆ cheap v := by
    intro c hc
    obtain ⟨hr, u, hu, hcu⟩ := Finset.mem_filter.mp hc
    exact Finset.mem_filter.mpr ⟨hr, u, Nat.le_trans hu hw, hcu⟩
  have hrounds : ∀ v k, (cheap v).card ≤ k → ∀ c, Costs c v → Right k c v := by
    intro v
    induction v using Nat.strong_induction_on with
    | _ v ih =>
        intro k hk c hc
        by_cases hcheaper : ∃ w < v, Costs c w
        · obtain ⟨w, hw, hcw⟩ := hcheaper
          have hcard := Finset.card_le_card (hmono v w (by omega))
          exact mono k c w v (by omega) (ih w hw k (by omega) c hcw)
        · have hmem : c ∈ cheap v :=
            Finset.mem_filter.mpr ⟨Finset.mem_range.mpr (range c v hc), v, Nat.le_refl v, hc⟩
          obtain ⟨k, rfl⟩ : ∃ j, k = j + 1 := by
            have := Finset.card_pos.mpr ⟨c, hmem⟩
            exact ⟨k - 1, by omega⟩
          refine next k c v hc fun i w hw hiw => ih w hw k ?_ i hiw
          have hss : cheap w ⊂ cheap v := by
            refine ⟨hmono v w (by omega), fun hsub => hcheaper ?_⟩
            obtain ⟨-, u, hu, hcu⟩ := Finset.mem_filter.mp (hsub hmem)
            exact ⟨u, by omega, hcu⟩
          have := Finset.card_lt_card hss
          omega
  refine hrounds v _ ?_ c h
  have := Finset.card_filter_le (Finset.range bound) fun c => ∃ w ≤ v, Costs c w
  simpa using this

section Settled

variable {o : Outline} {cost : CostTable → Shape → Cost}

-- A table by category is settled after its rounds, where the cost of a shape follows from cheaper
-- trees.
theorem Outline.settled_fits (Costs : Nat → Nat → Prop)
    (shape : ∀ c v, Costs c v → c < o.categories ∧ ∃ s ∈ o.shapes, s.category = c ∧
      ∀ table : CostTable, (∀ i w, w < v → Costs i w → (table.cost i).Fits w) →
        (cost table s).Fits v)
    {c v : Nat} (h : Costs c v) : ((o.settled cost).cost c).Fits v := by
  rw [Outline.settled, rounds_eq_iterate]
  refine right_of_rounds Costs (fun k c v => (CostTable.cost ((fun table =>
    o.categoryCosts (cost table))^[k] (Array.replicate o.categories .infinite)) c).Fits v)
    (fun c v hc => (shape c v hc).1) (fun _ _ _ _ hvw hfits => hfits.mono hvw) ?_ h
  intro k c v hc hcheaper
  obtain ⟨hlt, s, hs, hcategory, hcost⟩ := shape c v hc
  rw [Function.iterate_succ_apply', Outline.cost_categoryCosts _ _ _ hlt, Cost.leastOf_fits]
  exact ⟨_, List.mem_map_of_mem (List.mem_filter.mpr ⟨hs, by simpa using hcategory⟩), hcost _ hcheaper⟩

end Settled

-- One of some rules occurs in a tree.
def Tree.Carries (t : Tree) (targets : Domain) : Prop :=
  ∃ (path : Path) (r : Nat) (cs : List Tree), t.get? path = some (.node r cs) ∧ r ∈ targets

theorem Tree.carries_node {i : Int} {cs : List Tree} {targets : Domain} :
    (node i cs).Carries targets ↔
      (∃ n : Nat, i = n ∧ n ∈ targets) ∨ ∃ c ∈ cs, c.Carries targets := by
  constructor
  · rintro ⟨path, r, ds, hp, hr⟩
    cases path with
    | nil =>
        obtain ⟨rfl, -⟩ : i = r ∧ cs = ds := by simpa using hp
        exact Or.inl ⟨r, rfl, hr⟩
    | cons k path =>
        rw [get?_cons] at hp
        obtain ⟨c, hk, hc⟩ := Option.bind_eq_some_iff.mp hp
        obtain ⟨n, rfl, hn⟩ := child?_eq_some.mp hk
        exact Or.inr ⟨c, List.mem_of_getElem? hn, path, r, ds, hc, hr⟩
  · rintro (⟨n, rfl, hn⟩ | ⟨c, hc, path, r, ds, hp, hr⟩)
    · exact ⟨[], n, cs, by simp, hn⟩
    · obtain ⟨k, hk⟩ := List.mem_iff_getElem?.mp hc
      exact ⟨(k : Int) :: path, r, ds, by simp [get?_cons, hk, hp], hr⟩

theorem Tree.Carries.of_get? {t s : Tree} {path : Path} {targets : Domain}
    (hs : t.get? path = some s) (h : s.Carries targets) : t.Carries targets := by
  obtain ⟨rest, r, cs, hr, hm⟩ := h
  exact ⟨path ++ rest, r, cs, by rw [get?_append_of_get? hs, hr], hm⟩

-- The shape of a rule.
def Grammar.shape (g : Grammar) (r : Rule) : Shape :=
  ⟨r.index, g.number r.category, r.children.map g.number⟩

namespace Grammar

variable {g : Grammar}

theorem mem_liveRules {i : Int} {r : Rule} (h : g.rule? i = some r) (live : r.removed = false) :
    r ∈ g.liveRules := by
  obtain ⟨n, -, hn⟩ := rule?_eq_some h
  exact List.mem_filter.mpr ⟨List.mem_of_getElem? hn, by simp [live]⟩

theorem number_lt {category : String} (h : category ∈ g.categories) :
    g.number category < g.outline.categories :=
  List.idxOf_lt_length_of_mem h

-- The table by rule lists the cost of every live rule.
theorem Regular.cost_ruleCosts (hg : g.Regular) (cost : Shape → Cost) {n : Nat} {r : Rule}
    (h : g.rule? n = some r) (live : r.removed = false) :
    (g.outline.ruleCosts cost).cost n = cost (g.shape r) := by
  have hindex : r.index = n := by
    have := hg.rule?_index h
    omega
  have hlast (l : List Shape) (table : CostTable) (hn : n < table.size) (hm : g.shape r ∈ l)
      (hone : ∀ s ∈ l, s.index = n → s = g.shape r) :
      (l.foldl (fun table s => table.modify s.index fun _ => cost s) table).size = table.size ∧
        CostTable.cost (l.foldl (fun table s => table.modify s.index fun _ => cost s) table) n =
          cost (g.shape r) := by
    have hsize (l : List Shape) :
        (l.foldl (fun (table : CostTable) s => table.modify s.index fun _ => cost s) table).size =
          table.size := by
      induction l using List.reverseRecOn with
      | nil => rfl
      | append_singleton l s ih => simp [ih]
    refine ⟨hsize l, ?_⟩
    induction l using List.reverseRecOn with
    | nil => cases hm
    | append_singleton l s ih =>
        rw [List.foldl_append, List.foldl_cons, List.foldl_nil,
          CostTable.cost_modify _ _ _ _ (by rw [hsize]; exact hn)]
        split
        · rename_i hs
          rw [hone s (by simp) hs]
        · rename_i hs
          refine ih ?_ fun s hm => hone s (List.mem_append_left _ hm)
          rcases List.mem_append.mp hm with hm | hm
          · exact hm
          · obtain rfl : g.shape r = s := by simpa using hm
            exact absurd hindex hs
  have hn : n < g.outline.rules := rule?_lt h
  refine (hlast _ _ (by simpa using hn) ?_ ?_).2
  · exact List.mem_map_of_mem (mem_liveRules h live)
  · intro s hs he
    obtain ⟨q, hq, rfl⟩ := List.mem_map.mp hs
    obtain ⟨i, hi⟩ := List.mem_iff_getElem?.mp (List.mem_filter.mp hq).1
    have hqi : q.index = n := he
    rw [hg.index i q hi] at hqi
    subst hqi
    rw [rule?_natCast, hi] at h
    cases h
    rfl

theorem derives_iff {category : String} {t : Tree} :
    g.Derives category t ↔ ∃ (i : Int) (r : Rule) (cs : List Tree), t = .node i cs ∧
      g.rule? i = some r ∧ r.removed = false ∧ r.category = category ∧
      List.Forall₂ g.Derives r.children cs := by
  constructor
  · rintro ⟨hw, hc⟩
    obtain ⟨i, cs, rfl, hcs⟩ := Tree.complete_iff.mp hc
    obtain ⟨r, hr, live, fits, arity, below⟩ := wellFormed_node_iff.mp hw
    refine ⟨i, r, cs, rfl, hr, live, fits category rfl, ?_⟩
    refine List.forall₂_iff_get.mpr ⟨arity.symm, fun k hk hk' => ⟨?_, hcs _ (List.getElem_mem hk')⟩⟩
    exact below k _ _ (List.getElem?_eq_getElem hk) (List.getElem?_eq_getElem hk')
  · rintro ⟨i, r, cs, rfl, hr, live, rfl, hcs⟩
    have hlen := hcs.length_eq.symm
    have hget (k : Nat) (category : String) (c : Tree) (hk : r.children[k]? = some category)
        (hck : cs[k]? = some c) : g.Derives category c :=
      List.forall₂_zip hcs (List.mem_of_getElem? (List.getElem?_zip_eq_some.mpr ⟨hk, hck⟩))
    refine ⟨.node hr live (by simp) hlen fun k category c hk hck => (hget k category c hk hck).1,
      .node fun c hc => ?_⟩
    obtain ⟨k, hk⟩ := List.mem_iff_getElem?.mp hc
    have hlt : k < r.children.length := hlen ▸ (List.getElem?_eq_some_iff.mp hk).1
    exact (hget k _ c (List.getElem?_eq_getElem hlt) hk).2

theorem derives_node_iff {category : String} {i : Int} {cs : List Tree} :
    g.Derives category (.node i cs) ↔ ∃ r, g.rule? i = some r ∧ r.removed = false ∧
      r.category = category ∧ List.Forall₂ g.Derives r.children cs := by
  rw [derives_iff]
  constructor
  · rintro ⟨_, r, _, he, h⟩
    obtain ⟨rfl, rfl⟩ := Tree.node.inj he
    exact ⟨r, h⟩
  · rintro ⟨r, h⟩
    exact ⟨i, r, cs, rfl, h⟩

-- A complete tree derives from the category of the rule at its root.
theorem WellFormed.derives {expected : Option String} {i : Int} {cs : List Tree}
    (h : g.WellFormed expected (.node i cs)) (hc : (Tree.node i cs).Complete) :
    ∃ r, g.rule? i = some r ∧ r.removed = false ∧ g.Derives r.category (.node i cs) := by
  obtain ⟨r, hr, live, -, arity, below⟩ := wellFormed_node_iff.mp h
  exact ⟨r, hr, live, .node hr live (by simp) arity below, hc⟩

-- The children of a node derive from known categories. Here these are given by number.
theorem Regular.forall₂_children (hg : g.Regular) {i : Int} {r : Rule} {cs : List Tree}
    (hr : g.rule? i = some r) (h : g.Derives r.category (.node i cs)) :
    List.Forall₂ (fun n c => ∃ category ∈ g.categories, g.number category = n ∧
      g.Derives category c ∧ c ∈ cs) (g.shape r).children cs := by
  obtain ⟨q, hq, -, -, hcs⟩ := derives_node_iff.mp h
  obtain rfl : r = q := Option.some.inj (hr.symm.trans hq)
  obtain ⟨n, -, hn⟩ := rule?_eq_some hr
  rw [shape, List.forall₂_map_left_iff]
  refine List.forall₂_iff_zip.mpr ⟨hcs.length_eq, fun {category c} hm => ?_⟩
  have hmem := List.of_mem_zip hm
  exact ⟨category, hg.children r (List.mem_of_getElem? hn) category hmem.1, rfl,
    List.forall₂_zip hcs hm, hmem.2⟩

section Settled

-- Above costs of the children that no tree of some kind is cheaper than, the cost of a shape is
-- one that no tree of that kind is cheaper than.
def Underbids (g : Grammar) (m : Measure) (kind : Tree → Prop) (cost : CostTable → Shape → Cost) :
    Prop :=
  ∀ (table : CostTable) (i : Int) (r : Rule) (cs : List Tree), g.rule? i = some r →
    g.Derives r.category (.node i cs) → kind (.node i cs) →
      (∀ category ∈ g.categories, ∀ c ∈ cs, g.Derives category c → kind c →
        (table.cost (g.number category)).Fits (m.of c)) →
          (cost table (g.shape r)).Fits (m.of (.node i cs))

variable {m : Measure} {kind : Tree → Prop} {cost : CostTable → Shape → Cost}

-- In a settled table no tree is cheaper than its category.
theorem Underbids.settled_fits (h : g.Underbids m kind cost) {category : String} {t : Tree}
    (hm : category ∈ g.categories) (hd : g.Derives category t) (hk : kind t) :
    ((g.outline.settled cost).cost (g.number category)).Fits (m.of t) := by
  refine Outline.settled_fits (fun c v => ∃ category ∈ g.categories, ∃ t,
    g.number category = c ∧ g.Derives category t ∧ kind t ∧ m.of t = v) ?_
    ⟨category, hm, t, rfl, hd, hk, rfl⟩
  rintro c v ⟨category, hm, t, rfl, hd, hk, rfl⟩
  obtain ⟨i, r, cs, rfl, hr, live, rfl, -⟩ := derives_iff.mp hd
  refine ⟨number_lt hm, g.shape r, List.mem_map_of_mem (mem_liveRules hr live), rfl, ?_⟩
  intro table htable
  refine h table i r cs hr hd hk fun category hm c hc hd hk => ?_
  exact htable _ _ (m.of_child_lt hc) ⟨category, hm, c, rfl, hd, hk, rfl⟩

-- The same of the table by rule that follows from it.
theorem Underbids.ruleCosts_fits (h : g.Underbids m kind cost) (hg : g.Regular)
    {expected : Option String} {n : Nat} {cs : List Tree} (hw : g.WellFormed expected (.node n cs))
    (hc : (Tree.node n cs).Complete) (hk : kind (.node n cs)) :
    ((g.outline.ruleCosts (cost (g.outline.settled cost))).cost n).Fits (m.of (.node n cs)) := by
  obtain ⟨r, hr, live, hd⟩ := hw.derives hc
  rw [hg.cost_ruleCosts _ hr live]
  exact h _ _ r cs hr hd hk fun _ hm _ _ hd hk => h.settled_fits hm hd hk

end Settled

section Minimums

theorem Regular.leastCost_underbids (hg : g.Regular) (m : Measure) :
    g.Underbids m (fun _ => True) (Outline.leastCost m) := by
  intro table i r cs hr h _ htable
  refine m.above_fits (List.forall₂_map_left_iff.mpr ?_) (List.Perm.refl cs) i
  refine (hg.forall₂_children hr h).imp ?_
  rintro n c ⟨category, hm, rfl, hd, hc⟩
  exact htable category hm c hc hd trivial

-- The least costs by category, for either measure.
theorem Regular.categoryMinimums_fits (hg : g.Regular) (m : Measure) {category : String} {t : Tree}
    (hm : category ∈ g.categories) (h : g.Derives category t) :
    ((g.outline.categoryMinimums m).cost (g.number category)).Fits (m.of t) :=
  (hg.leastCost_underbids m).settled_fits hm h trivial

-- The least costs by rule.
theorem Regular.ruleMinimums_fits (hg : g.Regular) (m : Measure) {expected : Option String}
    {n : Nat} {cs : List Tree} (h : g.WellFormed expected (.node n cs))
    (hc : (Tree.node n cs).Complete) :
    ((g.outline.ruleCosts (Outline.leastCost m (g.outline.categoryMinimums m))).cost n).Fits
      (m.of (.node n cs)) :=
  (hg.leastCost_underbids m).ruleCosts_fits hg h hc trivial

end Minimums

section Containing

-- One child is singled out along with its category.
theorem singledOut_of_forall₂ {α β : Type} {R : α → β → Prop} {l : List α} {k : List β}
    (h : List.Forall₂ R l k) {b : β} (hb : b ∈ k) :
    ∃ a others rest, (a, others) ∈ singledOut l ∧ R a b ∧ List.Forall₂ R others rest ∧
      (b :: rest).Perm k := by
  induction h with
  | nil => cases hb
  | @cons a c l k hac hrest ih =>
      cases hb with
      | head => exact ⟨a, l, k, by simp [singledOut], hac, hrest, List.Perm.refl _⟩
      | tail _ hb =>
          obtain ⟨x, others, rest, hm, hx, hr, hp⟩ := ih hb
          refine ⟨x, a :: others, c :: rest, ?_, hx, .cons hac hr, ?_⟩
          · rw [singledOut]
            exact List.mem_cons_of_mem _ (List.mem_map_of_mem hm)
          · exact (List.Perm.swap c b rest).trans (hp.cons c)

theorem Regular.containingCost_underbids (hg : g.Regular) (m : Measure) (targets : Domain) :
    g.Underbids m (·.Carries targets)
      (containingCost m targets (g.outline.categoryMinimums m)) := by
  intro table i r cs hr h ht htable
  unfold containingCost
  split
  · exact hg.leastCost_underbids m _ i r cs hr h trivial fun _ hm _ _ hd _ =>
      hg.categoryMinimums_fits m hm hd
  · rename_i hroot
    rcases Tree.carries_node.mp ht with ⟨n, rfl, hn⟩ | ⟨c, hc, hcarries⟩
    · have hindex : r.index = n := by
        have := hg.rule?_index hr
        omega
      have hmem : (g.shape r).index ∈ targets := by
        rw [shape, hindex]
        exact hn
      exact absurd hmem hroot
    · obtain ⟨n, others, rest, hm, ⟨category, hcat, rfl, hd, -⟩, hrest, hp⟩ :=
        singledOut_of_forall₂ (hg.forall₂_children hr h) hc
      refine (Cost.leastOf_fits _ _).mpr ⟨_, List.mem_map_of_mem hm, ?_⟩
      refine m.above_fits (.cons (htable category hcat c hc hd hcarries) ?_) hp i
      refine List.forall₂_map_left_iff.mpr (hrest.imp ?_)
      rintro n d ⟨category, hcat, rfl, hd, -⟩
      exact hg.categoryMinimums_fits m hcat hd

-- The least costs by rule of trees with one of some rules in them.
theorem Regular.containingCosts_fits (hg : g.Regular) (m : Measure) {targets : Domain}
    {expected : Option String} {n : Nat} {cs : List Tree}
    (h : g.WellFormed expected (.node n cs)) (hc : (Tree.node n cs).Complete)
    (ht : (Tree.node n cs).Carries targets) :
    ((g.analysis.containingCosts m targets (g.outline.categoryMinimums m)).cost n).Fits
      (m.of (.node n cs)) :=
  (hg.containingCost_underbids m targets).ruleCosts_fits hg h hc ht

end Containing

-- The live rules with a cost that passes a test.
theorem Regular.mem_rulesWhere (hg : g.Regular) (table : CostTable) (test : Cost → Bool)
    (n : Nat) : n ∈ g.analysis.rulesWhere table test ↔
      (∃ r, g.rule? n = some r ∧ r.removed = false) ∧ test (table.cost n) = true := by
  rw [Analysis.rulesWhere, Domain.mem_ofList, List.mem_filter]
  refine and_congr_left fun _ => ?_
  rw [show g.analysis.outline.shapes = g.liveRules.map g.shape from rfl, List.map_map]
  constructor
  · intro h
    obtain ⟨r, hr, rfl⟩ := List.mem_map.mp h
    obtain ⟨hm, hl⟩ := List.mem_filter.mp hr
    obtain ⟨i, hi⟩ := List.mem_iff_getElem?.mp hm
    refine ⟨r, ?_, by simpa using hl⟩
    rw [Function.comp_apply, shape, rule?_natCast, hg.index i r hi, hi]
  · rintro ⟨r, hr, hl⟩
    have hindex := hg.rule?_index hr
    refine List.mem_map.mpr ⟨r, mem_liveRules hr hl, ?_⟩
    show r.index = n
    omega

end Grammar

end TreeSearch
