import TreeSearch.Proofs.Grammar.Modest

namespace TreeSearch

section Entries

variable {α : Type} {g : Grammar}

theorem CostTable.ext {first second : CostTable} (hsize : first.size = second.size)
    (h : ∀ n < first.size, first.cost n = second.cost n) : first = second := by
  refine Array.ext hsize fun n hn hn' => ?_
  have hcost := h n hn
  rwa [cost, cost, Array.getElem?_eq_getElem hn, Array.getElem?_eq_getElem hn'] at hcost

theorem Outline.size_ruleCosts (o : Outline) (cost : Shape → Cost) :
    (o.ruleCosts cost).size = o.rules := by
  have hfold (l : List Shape) (table : CostTable) :
      (l.foldl (fun (table : CostTable) s => table.modify s.index fun _ => cost s) table).size =
        table.size := by
    induction l generalizing table with
    | nil => rfl
    | cons s l ih => rw [List.foldl_cons, ih, Array.size_modify]
  rw [ruleCosts, hfold, Array.size_replicate]

theorem Outline.size_categoryCosts (o : Outline) (cost : Shape → Cost) :
    (o.categoryCosts cost).size = o.categories := by
  have hfold (l : List Shape) (table : CostTable) :
      (l.foldl (fun (table : CostTable) s => table.modify s.category (Cost.least (cost s))) table).size =
        table.size := by
    induction l generalizing table with
    | nil => rfl
    | cons s l ih => rw [List.foldl_cons, ih, Array.size_modify]
  rw [categoryCosts, hfold, Array.size_replicate]

theorem Outline.size_settled (o : Outline) (cost : CostTable → Shape → Cost) :
    (o.settled cost).size = o.categories := by
  rw [settled, rounds_eq_iterate]
  cases hk : o.categories with
  | zero => exact Array.size_replicate
  | succ k => rw [Function.iterate_succ_apply', size_categoryCosts, hk]

namespace Grammar

-- A table by category has an entry for every category, in their order.
theorem map_fst_named {table : Array α} (h : table.size = g.categories.length) :
    (g.named table).map Prod.fst = g.categories :=
  List.map_fst_zip (by simp [h])

theorem Reachable.getElem?_of_mem_named (hg : g.Reachable) {table : Array α} {entry : String × α}
    (h : entry ∈ g.named table) :
    entry.1 ∈ g.categories ∧ table[g.number entry.1]? = some entry.2 := by
  obtain ⟨n, hn⟩ := List.mem_iff_getElem?.mp h
  obtain ⟨hcategory, hvalue⟩ := List.getElem?_zip_eq_some.mp hn
  obtain ⟨hlt, hcategory⟩ := List.getElem?_eq_some_iff.mp hcategory
  have hnumber : g.number entry.1 = n := by
    rw [number, ← hcategory]
    exact hg.nodup_categories.idxOf_getElem n hlt
  exact ⟨hcategory ▸ List.getElem_mem hlt, by simpa [hnumber] using hvalue⟩

end Grammar

-- The tables of an analysis as the passes leave them.
def Analysis.ledgers (a : Analysis) : Ledgers :=
  ⟨⟨a.ruleSizes, a.categorySizes⟩, ⟨a.ruleDepths, a.categoryDepths⟩⟩

theorem Analysis.rules_ledgers (a : Analysis) (m : Measure) : (a.ledgers.of m).rules = a.ruleCosts m := by
  cases m <;> rfl

theorem Analysis.categories_ledgers (a : Analysis) (m : Measure) :
    (a.ledgers.of m).categories = a.categoryCosts m := by
  cases m <;> rfl

end Entries

namespace Grammar

variable {g : Grammar} {m : Measure} {kind : Tree → Prop}

section Gauge

theorem Regular.numbered_children (hg : g.Regular) {n : Nat} {r : Rule} (hr : g.rule? n = some r) :
    ∀ child ∈ (g.shape r).children, ∃ category ∈ g.categories, g.number category = child := by
  intro child hm
  rw [rule?_natCast] at hr
  obtain ⟨category, hc, rfl⟩ := List.mem_map.mp hm
  exact ⟨category, hg.children r (List.mem_of_getElem? hr) category hc, rfl⟩

-- Above trees of its children's categories a live rule makes a tree of its own.
theorem derives_node {n : Nat} {r : Rule} {ts : List Tree}
    (hr : g.rule? n = some r) (live : r.removed = false)
    (h : List.Forall₂ g.Numbered (g.shape r).children ts) : g.Derives r.category (.node n ts) := by
  refine derives_node_iff.mpr ⟨r, hr, live, rfl, ?_⟩
  refine List.forall₂_iff_zip.mpr ⟨by simpa [shape] using h.length_eq, fun {category t} hm => ?_⟩
  obtain ⟨other, hknown, he, hd⟩ := List.forall₂_zip (List.forall₂_map_left_iff.mp h) hm
  exact number_inj hknown he ▸ hd

-- Where the costs of children are finite, trees have them.
theorem exists_children {table : CostTable} {children ns : List Nat}
    (known : ∀ child ∈ children, ∃ category ∈ g.categories, g.number category = child)
    (below : ∀ category ∈ g.categories, (table.cost (g.number category)).Attained m
      fun t => g.Derives category t ∧ kind t)
    (finite : children.map table.cost = ns.map .finite) :
    ∃ ts : List Tree, List.Forall₂ g.Numbered children ts ∧
      children.map table.cost = ts.map fun t => .finite (m.of t) := by
  obtain ⟨ts, hts⟩ := exists_forall₂ (l := children)
    (R := fun child t => g.Numbered child t ∧ table.cost child = .finite (m.of t)) fun child hm => by
      have hcost : table.cost child ∈ ns.map Cost.finite := finite ▸ List.mem_map_of_mem hm
      obtain ⟨n, -, hn⟩ := List.mem_map.mp hcost
      obtain ⟨category, hknown, rfl⟩ := known child hm
      obtain ⟨t, ⟨hd, -⟩, rfl⟩ := below category hknown n hn.symm
      exact ⟨t, ⟨category, hknown, rfl, hd⟩, hn.symm⟩
  exact ⟨ts, hts.imp fun _ _ h => h.1, map_eq_map_of_forall₂ (hts.imp fun _ _ h => h.2)⟩

theorem Regular.leastCost_gauges (hg : g.Regular) (m : Measure) :
    g.Gauges m (fun _ => True) (Outline.leastCost m) where
  underbids := hg.leastCost_underbids m
  attained table n r hr live below k hk := by
    obtain ⟨ns, hns⟩ := m.exists_of_above_eq_finite hk
    obtain ⟨ts, hts, hcosts⟩ := exists_children (hg.numbered_children hr) below hns
    have hcost : Outline.leastCost m table (g.shape r) = .finite (m.of (.node n ts)) :=
      (congrArg m.above hcosts).trans (m.above_of n ts)
    exact ⟨.node n ts, ⟨roots_iff.mpr ⟨r, ts, hr, live, rfl, derives_node hr live hts⟩, trivial⟩,
      Cost.finite.inj (hcost.symm.trans hk)⟩

end Gauge

section Exact

theorem outline_ruleCosts (g : Grammar) (m : Measure) : g.analysis.ruleCosts m =
    g.outline.ruleCosts (Outline.leastCost m (g.outline.categoryMinimums m)) := by
  cases m <;> rfl

theorem outline_categoryCosts (g : Grammar) (m : Measure) :
    g.analysis.categoryCosts m = g.outline.categoryMinimums m := by
  cases m <;> rfl

theorem Regular.ruleCosts_isLeastOf (hg : g.Regular) (m : Measure) (n : Nat) :
    ((g.analysis.ruleCosts m).cost n).IsLeastOf m (g.Roots n) := by
  rw [outline_ruleCosts]
  exact ((hg.leastCost_gauges m).ruleCosts_exact hg n).of_and_true

theorem Regular.categoryCosts_isLeastOf (hg : g.Regular) (m : Measure) {n : Nat}
    (hn : n < g.outline.categories) : ((g.analysis.categoryCosts m).cost n).IsLeastOf m (g.Numbered n) := by
  rw [outline_categoryCosts]
  exact ((hg.leastCost_gauges m).settled_exact hg hn).of_and_true

-- The rules that root some tree. All of their costs are finite.
theorem Regular.mem_producible (hg : g.Regular) (n : Nat) :
    n ∈ g.analysis.producible ↔ ∃ t, g.Roots n t := by
  rw [Analysis.producible, hg.mem_rulesWhere, show g.analysis.ruleSizes = g.analysis.ruleCosts .size from rfl,
    (hg.ruleCosts_isLeastOf .size n).isFinite_iff]
  refine and_iff_right_of_imp fun ⟨t, ht⟩ => ?_
  obtain ⟨r, -, hr, live, -⟩ := roots_iff.mp ht
  exact ⟨r, hr, live⟩

theorem raise_reckons (m : Measure) (table : CostTable) (s : Shape) :
    Reckons (m.raise (s.children.map table.cost)) (Outline.leastCost m table s) :=
  m.raise_reckons _

-- Passes over the rules in place end with the same tables, unless a number is too large.
theorem Regular.settle_minimums (hg : g.Regular) :
    Reckons (g.outline.settle (Ledgers.enter fun m table s => m.raise (s.children.map table.cost))
      (.blank g.outline)) g.analysis.ledgers := by
  cases hr : g.outline.settle (Ledgers.enter fun m table s => m.raise (s.children.map table.cost))
      (.blank g.outline) with
  | error halt =>
      exact Or.inr (congrArg Except.error (settle_error hg hg.leastCost_gauges raise_reckons hr))
  | ok final =>
      have hfinal := gauged_of_settle hg hg.leastCost_gauges raise_reckons hr
      refine Or.inl (congrArg Except.ok (Ledgers.ext_of fun m => Ledger.ext ?_ ?_))
      · rw [g.analysis.rules_ledgers]
        refine CostTable.ext ((hfinal m).rules.trans ?_) fun n _ => ?_
        · rw [outline_ruleCosts, Outline.size_ruleCosts]
        · exact ((hfinal m).rule n).of_and_true.unique (hg.ruleCosts_isLeastOf m n)
      · rw [g.analysis.categories_ledgers]
        refine CostTable.ext ((hfinal m).categories.trans ?_) fun n hn => ?_
        · rw [outline_categoryCosts, Outline.categoryMinimums, Outline.size_settled]
        · exact ((hfinal m).category n).of_and_true.unique
            (hg.categoryCosts_isLeastOf m ((hfinal m).categories ▸ hn))

theorem Regular.analyse_reckons (hg : g.Regular) : Reckons g.analyse g.analysis :=
  hg.settle_minimums.bind (.pure _)

-- The tables of a modest grammar, whose sizes are within a bound.
theorem Modest.analyse (hm : g.Modest) (hg : g.Regular) : g.analyse = .ok g.analysis ∧
    (∀ n, (g.analysis.categorySizes.cost n).known ≤ (g.outline.width + 1) ^ g.outline.categories) ∧
      ∀ n, (g.analysis.ruleSizes.cost n).known ≤ (g.outline.width + 1) ^ (g.outline.categories + 1) := by
  obtain ⟨final, hr, htame⟩ := exists_settle_eq_ok hg hg.leastCost_gauges raise_reckons hm.grows_raise
  obtain rfl := hg.settle_minimums.eq_of_ok hr
  refine ⟨congrArg (· >>= _) hr, fun n => ?_, fun n => ?_⟩
  · have hle := htame.known_le (Nat.succ_pos _) n
    rwa [Nat.one_mul] at hle
  · have hle := htame.rules n
    rwa [Nat.one_mul] at hle

end Exact

section Knot

-- Two categories that need each other, one that never ends, and a rule that has been removed.
def knot : Grammar :=
  ⟨[⟨0, "A", ["B"], none, none, false⟩, ⟨1, "B", ["A", "A"], none, none, false⟩,
      ⟨2, "B", [], none, none, false⟩, ⟨3, "U", ["U"], none, none, false⟩,
      ⟨4, "A", ["U", "A"], none, none, false⟩, ⟨5, "A", [], none, none, true⟩],
    ["A", "B", "U"], [], 10⟩

theorem reachable_knot : knot.Reachable := by
  let draft : Draft := ⟨["A", "B", "U"], [⟨"A", ["B"], none, none⟩, ⟨"B", ["A", "A"], none, none⟩,
    ⟨"B", [], none, none⟩, ⟨"U", ["U"], none, none⟩, ⟨"A", ["U", "A"], none, none⟩,
    ⟨"A", [], none, none⟩], []⟩
  let whole : Grammar :=
    { knot with rules := knot.rules.take 5 ++ [⟨5, "A", [], none, none, false⟩], version := 9 }
  have hdraft : draft.build = .ok whole := rfl
  have hremove : whole.remove 5 = .ok knot := rfl
  exact .remove (.build hdraft) hremove

end Knot

end Grammar

end TreeSearch
