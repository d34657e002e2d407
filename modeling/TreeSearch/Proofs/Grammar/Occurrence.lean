import TreeSearch.Proofs.Domain
import TreeSearch.Proofs.Grammar.Minimums

namespace TreeSearch

section Entries

variable {table : Array Domain} {n r : Nat}

-- What a table lists under a number.
def listed (table : Array Domain) (n : Nat) : Domain := table[n]?.getD ∅

theorem listed_modify (i : Nat) (f : Domain → Domain) (hn : n < table.size) :
    listed (table.modify i f) n = if i = n then f (listed table n) else listed table n := by
  simp only [listed, Array.getElem?_modify, Array.getElem?_eq_getElem hn]
  split <;> rfl

-- What is listed under the children of a shape is added to a set.
theorem mem_merged (children : List Nat) (d : Domain) :
    r ∈ children.foldl (fun rules child => rules ∪ table[child]?.getD ∅) d ↔
      r ∈ d ∨ ∃ child ∈ children, r ∈ listed table child := by
  induction children generalizing d with
  | nil => simp
  | cons child children ih =>
      rw [List.foldl_cons, ih, Domain.mem_union, or_assoc, List.exists_mem_cons_iff]
      rfl

namespace Outline

variable {producible : Domain} {s : Shape}

-- A visit adds what is listed one level further down, and says whether anything was missing.
theorem spread_cases (producible : Domain) (table : Array Domain) (s : Shape) :
    ∃ merged : Domain, (∀ r, r ∈ merged ↔
      r ∈ listed table s.category ∨ ∃ child ∈ s.children, r ∈ listed table child) ∧
        ((s.index ∈ producible ∧ merged ≠ listed table s.category ∧
            spread producible table s = (table.modify s.category fun _ => merged, true)) ∨
          ((s.index ∈ producible → merged = listed table s.category) ∧
            spread producible table s = (table, false))) := by
  refine ⟨_, fun r => mem_merged s.children _, ?_⟩
  by_cases h : s.index ∈ producible ∧ s.children.foldl
      (fun rules child => rules ∪ table[child]?.getD ∅) (listed table s.category) ≠ listed table s.category
  · exact Or.inl ⟨h.1, h.2, if_pos h⟩
  · exact Or.inr ⟨fun hp => not_not.mp fun hne => h ⟨hp, hne⟩, if_neg h⟩

theorem size_spread : (spread producible table s).1.size = table.size := by
  obtain ⟨_, -, ⟨-, -, he⟩ | ⟨-, he⟩⟩ := spread_cases producible table s
  · rw [he]
    exact Array.size_modify
  · rw [he]

theorem mem_spread (hn : n < table.size) : r ∈ listed (spread producible table s).1 n ↔
    r ∈ listed table n ∨ s.index ∈ producible ∧ s.category = n ∧
      ∃ child ∈ s.children, r ∈ listed table child := by
  obtain ⟨merged, hmerged, ⟨hp, -, he⟩ | ⟨hsame, he⟩⟩ := spread_cases producible table s
  · rw [he, listed_modify _ _ hn]
    split
    · rename_i hi
      subst hi
      simpa [hp] using hmerged r
    · rename_i hi
      simp [hi]
  · rw [he]
    refine (or_iff_left_of_imp ?_).symm
    rintro ⟨hp, rfl, hchild⟩
    exact hsame hp ▸ (hmerged r).mpr (Or.inr hchild)

theorem spread_still (h : (spread producible table s).2 = false) :
    (spread producible table s).1 = table := by
  obtain ⟨_, -, ⟨-, -, he⟩ | ⟨-, he⟩⟩ := spread_cases producible table s
  · rw [he] at h
    cases h
  · rw [he]

end Outline

end Entries

-- One of two lists that match takes an item that matches as well.
theorem exists_forall₂_mem {α β : Type} {R : α → β → Prop} {l : List α} {k : List β}
    (h : List.Forall₂ R l k) {a : α} {b : β} (ha : a ∈ l) (hab : R a b) :
    ∃ j, List.Forall₂ R l j ∧ b ∈ j := by
  induction h with
  | nil => cases ha
  | @cons c d l k hcd hrest ih =>
      rcases List.mem_cons.mp ha with rfl | ha
      · exact ⟨b :: k, .cons hab hrest, List.mem_cons_self⟩
      · obtain ⟨j, hj, hb⟩ := ih ha
        exact ⟨d :: j, .cons hcd hj, List.mem_cons_of_mem d hb⟩

namespace Grammar

variable {g : Grammar} {category : String} {table : Array Domain} {r : Nat}

section Occurs

-- A rule occurs in some complete tree of a category.
def Occurs (g : Grammar) (category : String) (r : Nat) : Prop :=
  ∃ t, g.Derives category t ∧ t.Carries {r}

theorem occurs_root {cs : List Tree} (h : g.Derives category (.node r cs)) : g.Occurs category r :=
  ⟨_, h, Tree.carries_node.mpr (Or.inl ⟨r, rfl, (Domain.mem_singleton r r).mpr rfl⟩)⟩

theorem Occurs.lt (h : g.Occurs category r) : r < g.outline.rules := by
  obtain ⟨t, ⟨hw, -⟩, path, i, cs, hp, hi⟩ := h
  obtain rfl := (Domain.mem_singleton i r).mp hi
  obtain ⟨q, hq, -⟩ := wellFormed_node_iff.mp (hw.get? hp)
  exact rule?_lt hq

-- What occurs below one child of a rule occurs below the rule, where some tree has the rule at its
-- root and so a tree for every other child.
theorem occurs_above {n : Nat} {q : Rule} {child : String} (hq : g.rule? n = some q)
    (hroots : ∃ t, g.Roots n t) (hm : child ∈ q.children) (h : g.Occurs child r) :
    g.Occurs q.category r := by
  obtain ⟨t, ht⟩ := hroots
  obtain ⟨q', cs, hq', live, rfl, hd⟩ := roots_iff.mp ht
  obtain rfl : q = q' := Option.some.inj (hq.symm.trans hq')
  obtain ⟨q', hq', -, -, hbelow⟩ := derives_node_iff.mp hd
  obtain rfl : q = q' := Option.some.inj (hq.symm.trans hq')
  obtain ⟨u, hu, hcarries⟩ := h
  obtain ⟨ds, hds, hmem⟩ := exists_forall₂_mem hbelow hm hu
  exact ⟨.node n ds, derives_node_iff.mpr ⟨q, hq, live, rfl, hds⟩,
    Tree.carries_node.mpr (Or.inr ⟨u, hmem, hcarries⟩)⟩

-- The shape at the root of a tree, seen from one of the children.
theorem Regular.exists_shape_above (hg : g.Regular) {i : Int} {cs : List Tree} {c : Tree}
    (h : g.Derives category (.node i cs)) (hc : c ∈ cs) : ∃ s ∈ g.outline.shapes,
      s.index ∈ g.analysis.producible ∧ s.category = g.number category ∧
        ∃ child ∈ g.categories, g.number child ∈ s.children ∧ g.Derives child c := by
  obtain ⟨q, hq, live, rfl, -⟩ := derives_node_iff.mp h
  obtain ⟨n, rfl, -⟩ := rule?_eq_some hq
  obtain ⟨k, hk, child, hchild, rfl, hd, -⟩ := exists_of_forall₂ (hg.forall₂_children hq h).flip hc
  refine ⟨g.shape q, mem_shapes.mpr ⟨n, q, hq, live, rfl⟩, ?_, rfl, child, hchild, hk, hd⟩
  rw [hg.shape_index hq, hg.mem_producible]
  exact ⟨_, roots_iff.mpr ⟨q, cs, hq, live, rfl, h⟩⟩

end Occurs

section Lists

-- A table by category that has the rules at the roots of trees, and no rule that occurs in none.
structure Lists (g : Grammar) (table : Array Domain) : Prop where
  size : table.size = g.outline.categories
  roots : ∀ category ∈ g.categories, ∀ (r : Nat) (cs : List Tree),
    g.Derives category (.node r cs) → r ∈ listed table (g.number category)
  occurs : ∀ category ∈ g.categories, ∀ r ∈ listed table (g.number category), g.Occurs category r

-- Taking up rules from the children of a shape is sound.
theorem Lists.occurs_shape (h : g.Lists table) (hg : g.Regular) {s : Shape} {n : Nat}
    (hs : s ∈ g.outline.shapes) (hp : s.index ∈ g.analysis.producible) (hn : n ∈ s.children)
    (hr : r ∈ listed table n) (he : s.category = g.number category) (hm : category ∈ g.categories) :
    g.Occurs category r := by
  obtain ⟨i, q, hq, -, rfl⟩ := mem_shapes.mp hs
  obtain ⟨child, hchild, rfl⟩ := List.mem_map.mp hn
  obtain rfl : category = q.category := number_inj hm he.symm
  rw [hg.shape_index hq, hg.mem_producible] at hp
  rw [rule?_natCast] at hq
  have hknown := hg.children q (List.mem_of_getElem? hq) child hchild
  exact occurs_above (by rwa [rule?_natCast]) hp hchild (h.occurs child hknown r hr)

theorem Lists.spread (h : g.Lists table) (hg : g.Regular) {s : Shape} (hs : s ∈ g.outline.shapes) :
    g.Lists (Outline.spread g.analysis.producible table s).1 where
  size := Outline.size_spread.trans h.size
  roots category hm r cs hd :=
    (Outline.mem_spread (h.size ▸ number_lt hm)).mpr (Or.inl (h.roots category hm r cs hd))
  occurs category hm r hr := by
    rcases (Outline.mem_spread (h.size ▸ number_lt hm)).mp hr with hr | ⟨hp, he, n, hn, hr⟩
    · exact h.occurs category hm r hr
    · exact h.occurs_shape hg hs hp hn hr he hm

-- Nothing is struck from a table.
def Grown (g : Grammar) (before after : Array Domain) : Prop :=
  ∀ n < g.outline.categories, ∀ r ∈ listed before n, r ∈ listed after n

theorem advances_spread (hg : g.Regular) :
    Advances (Outline.visit g.analysis.producible) g.outline.shapes
      g.Lists g.Grown where
  refl _ _ _ _ hr := hr
  trans h h' n hn r hr := h' n hn r (h n hn r hr)
  leads {a b s changed} hs ha h := by
    have hb : (Outline.spread g.analysis.producible a s).1 = b := congrArg Prod.fst (Except.ok.inj h)
    refine ⟨hb ▸ ha.spread hg hs, fun n hn r hr => ?_⟩
    rw [← hb, Outline.mem_spread (ha.size ▸ hn)]
    exact Or.inl hr
  still {a b s} h := by
    have hb := Except.ok.inj h
    rw [← Outline.spread_still (congrArg Prod.snd hb), hb]

-- A table is complete as soon as no shape has anything to add.
theorem Lists.mem_of_settled (h : g.Lists table) (hg : g.Regular)
    (settled : ∀ s ∈ g.outline.shapes, s.index ∈ g.analysis.producible →
      ∀ n ∈ s.children, ∀ r ∈ listed table n, r ∈ listed table s.category)
    (hm : category ∈ g.categories) (hr : g.Occurs category r) :
    r ∈ listed table (g.number category) := by
  obtain ⟨t, hd, hcarries⟩ := hr
  induction t using Tree.induction generalizing category with
  | node i cs ih =>
      rcases Tree.carries_node.mp hcarries with ⟨n, rfl, hn⟩ | ⟨c, hc, hcarries⟩
      · obtain rfl := (Domain.mem_singleton n r).mp hn
        exact h.roots category hm n cs hd
      · obtain ⟨s, hs, hp, he, child, hchild, hn, hd⟩ := hg.exists_shape_above hd hc
        exact he ▸ settled s hs hp _ hn r (ih c hc hchild hd hcarries)
  | hole => cases hd.2
  | choice => cases hd.2
  | var => cases hd.2

-- Nothing is missing after as many passes as there are categories. A rule that occurs in trees of a
-- category is looked for where it is closest to the root.
theorem Lists.mem_of_passed (h : g.Lists table) (hg : g.Regular) {after : Array Domain}
    (hp : Passed (sweep (Outline.visit g.analysis.producible) g.outline.shapes)
      table g.outline.categories after) (hm : category ∈ g.categories) (hr : g.Occurs category r) :
    r ∈ listed after (g.number category) := by
  have hadvances := advances_spread hg
  obtain ⟨t, hd, path, i, cs, hpath, hi⟩ := hr
  obtain rfl := (Domain.mem_singleton i r).mp hi
  refine right_of_rounds
    (fun n v => ∃ category ∈ g.categories, g.number category = n ∧ ∃ t path cs,
      g.Derives category t ∧ t.get? path = some (.node i cs) ∧ path.length = v)
    (fun k n _ => ∀ after, Passed (sweep (Outline.visit g.analysis.producible) g.outline.shapes) table k after → i ∈ listed after n)
    ?_ (fun _ _ _ _ _ hright => hright) ?_ ⟨category, hm, rfl, t, path, cs, hd, hpath, rfl⟩ after hp
  · rintro n v ⟨category, hm, rfl, -⟩
    exact number_lt hm
  · rintro k n v ⟨category, hm, rfl, t, path, cs, hd, hpath, rfl⟩ hcloser after hp
    cases path with
    | nil =>
        obtain rfl : t = .node i cs := by simpa using hpath
        exact (hadvances.passed h hp).roots category hm i cs hd
    | cons j path =>
        obtain ⟨q, ds, rfl, -⟩ := Tree.complete_iff.mp hd.2
        rw [Tree.get?_cons] at hpath
        obtain ⟨c, hj, hbelow⟩ := Option.bind_eq_some_iff.mp hpath
        obtain ⟨l, rfl, hl⟩ := Tree.child?_eq_some.mp hj
        obtain ⟨s, hs, hproducible, he, child, hchild, hn, hd⟩ :=
          hg.exists_shape_above hd (List.mem_of_getElem? hl)
        obtain ⟨before, changed, hbefore, hrun⟩ := hp.last
        have hswept := hadvances.sweep (hadvances.passed h hbefore) hrun
        obtain ⟨x, y, more, hx, hbx, hvisit, hy⟩ := hswept.visited s hs
        have hi := hbx _ (number_lt hchild) _ (hcloser _ path.length (Nat.lt_succ_self _)
          ⟨child, hchild, rfl, c, path, cs, hd, hbelow, rfl⟩ before hbefore)
        refine hy _ (number_lt hm) i ?_
        obtain rfl : (Outline.spread g.analysis.producible x s).1 = y :=
          congrArg Prod.fst (Except.ok.inj hvisit)
        rw [Outline.mem_spread (hx.size ▸ number_lt hm)]
        exact Or.inr ⟨hproducible, he, _, hn, hi⟩

-- A table that lists all there is has nothing to take up.
theorem Lists.spread_still (h : g.Lists table) (hg : g.Regular)
    (complete : ∀ category ∈ g.categories, ∀ r, g.Occurs category r → r ∈ listed table (g.number category))
    {s : Shape} (hs : s ∈ g.outline.shapes) : (Outline.spread g.analysis.producible table s).2 = false := by
  obtain ⟨merged, hmerged, ⟨hp, hne, -⟩ | ⟨-, he⟩⟩ := Outline.spread_cases g.analysis.producible table s
  · refine absurd (Domain.ext fun r => ?_) hne
    rw [hmerged r]
    refine or_iff_left_of_imp fun ⟨child, hchild, hr⟩ => ?_
    obtain ⟨_, q, hq, -, rfl⟩ := mem_shapes.mp hs
    have hm := hg.mem_categories hq
    exact complete _ hm r (h.occurs_shape hg hs hp hchild hr rfl hm)
  · rw [he]

end Lists

section Exact

-- A rule stands at the root of trees of a category if it produces the category and roots trees at
-- all.
theorem Regular.exists_root_iff (hg : g.Regular) : (∃ cs, g.Derives category (.node r cs)) ↔
    g.Produces r category ∧ r ∈ g.analysis.producible := by
  rw [hg.mem_producible]
  constructor
  · rintro ⟨cs, hd⟩
    obtain ⟨q, hq, live, rfl, -⟩ := derives_node_iff.mp hd
    exact ⟨⟨q, hq, live, rfl⟩, _, roots_iff.mpr ⟨q, cs, hq, live, rfl, hd⟩⟩
  · rintro ⟨⟨q, hq, -, rfl⟩, t, ht⟩
    obtain ⟨q', cs, hq', -, rfl, hd⟩ := roots_iff.mp ht
    obtain rfl : q = q' := Option.some.inj (hq.symm.trans hq')
    exact ⟨cs, hd⟩

-- A table may start from just the rules at the roots of trees.
theorem Regular.lists_of_produces (hg : g.Regular) (hsize : table.size = g.outline.categories)
    (h : ∀ category ∈ g.categories, ∀ r, r ∈ listed table (g.number category) ↔
      g.Produces r category ∧ r ∈ g.analysis.producible) : g.Lists table where
  size := hsize
  roots category hm r cs hd := (h category hm r).mpr (hg.exists_root_iff.mp ⟨cs, hd⟩)
  occurs category hm r hr := by
    obtain ⟨cs, hd⟩ := hg.exists_root_iff.mpr ((h category hm r).mp hr)
    exact occurs_root hd

-- The table before the first pass.
def rootRules (g : Grammar) : Array Domain :=
  (g.categories.map fun category => g.domainOf category ∩ g.analysis.producible).toArray

theorem Regular.lists_rootRules (hg : g.Regular) : g.Lists g.rootRules := by
  refine hg.lists_of_produces (by rw [rootRules, List.size_toArray, List.length_map]; rfl)
    fun category hm r => ?_
  have hentry : listed g.rootRules (g.number category) =
      g.domainOf category ∩ g.analysis.producible := by
    simp [listed, rootRules, number, List.getElem?_idxOf hm]
  rw [hentry, Domain.mem_inter, domainOf, Domain.mem_ofList, hg.mem_indicesFor]

-- The passes end with a table that lists all there is and nothing else.
theorem Regular.exists_settle_spread (hg : g.Regular) : ∃ final : Array Domain,
    g.outline.settle (Outline.visit g.analysis.producible) g.rootRules =
      .ok final ∧ final.size = g.categories.length ∧
        ∀ category ∈ g.categories, ∀ r, r ∈ listed final (g.number category) ↔ g.Occurs category r := by
  have hadvances := advances_spread hg
  cases hr : g.outline.settle (Outline.visit g.analysis.producible)
      g.rootRules with
  | ok final =>
      obtain ⟨hlists, hstill⟩ := hadvances.passes_ok hg.lists_rootRules hr
      refine ⟨final, rfl, hlists.size, fun category hm r => ⟨hlists.occurs category hm r, ?_⟩⟩
      refine hlists.mem_of_settled hg (fun s hs hp n hn r hr => ?_) hm
      obtain ⟨_, q, hq, -, rfl⟩ := mem_shapes.mp hs
      have hlt : (g.shape q).category < final.size := hlists.size ▸ number_lt (hg.mem_categories hq)
      have hmem := (Outline.mem_spread hlt).mpr (Or.inr ⟨hp, rfl, n, hn, hr⟩)
      rwa [congrArg Prod.fst (Except.ok.inj (hstill _ hs))] at hmem
  | error halt =>
      rcases passes_error hr with ⟨k, a, hp, herror⟩ | ⟨-, b, c, hp, hrun⟩
      · exact (hadvances.sweep_error (P := fun _ => False) (fun _ _ _ _ _ herror => nomatch herror)
          (hadvances.passed hg.lists_rootRules hp) herror).elim
      · obtain ⟨a, changed, hbefore, hlast⟩ := hp.last
        have hb := hadvances.sweep (hadvances.passed hg.lists_rootRules hbefore) hlast
        obtain ⟨s, hs, x, y, hx, hbx, hvisit⟩ := (hadvances.sweep hb.kept hrun).stirred rfl
        have hstill := hx.spread_still hg (fun category hm r hr => hbx _ (number_lt hm) r
          (hb.leads _ (number_lt hm) r (hg.lists_rootRules.mem_of_passed hg hbefore hm hr))) hs
        exact nomatch hstill.symm.trans (congrArg Prod.snd (Except.ok.inj hvisit))

theorem Regular.reachable_eq (hg : g.Regular) {result : Except Halt (Array Domain)}
    (hr : g.reachable = result) : g.analyse = .error .overflow ∧ result = .error .overflow ∨
      g.analyse = .ok g.analysis ∧ ∃ final : Array Domain, result = .ok final ∧
        final.size = g.categories.length ∧
          ∀ category ∈ g.categories, ∀ r, r ∈ listed final (g.number category) ↔ g.Occurs category r := by
  obtain ⟨final, hfinal, hexact⟩ := hg.exists_settle_spread
  rcases hg.analyse_reckons with ha | ha
  · refine Or.inr ⟨ha, final, ?_, hexact⟩
    rw [← hr, Grammar.reachable, ha]
    exact hfinal
  · refine Or.inl ⟨ha, ?_⟩
    rw [← hr, Grammar.reachable, ha]
    rfl

-- The passes over the rules end. Where they come to a table, a rule is listed under a category just
-- when it occurs in some complete tree of it. They come to none only where a number is too large to be
-- set against infinity when the rules that root trees are worked out.
theorem Reachable.reachable_exact (hg : g.Reachable) :
    (∀ table, g.reachable = .ok table → (g.named table).map Prod.fst = g.categories ∧
      ∀ entry ∈ g.named table, ∀ r : Nat, r ∈ entry.2 ↔ ∃ t, g.Derives entry.1 t ∧ t.Carries {r}) ∧
    ∀ halt, g.reachable = .error halt → halt = .overflow ∧ ¬ g.Modest := by
  refine ⟨fun table hr => ?_, fun halt hr => ?_⟩
  · obtain ⟨-, he⟩ | ⟨-, final, he, hsize, hexact⟩ := hg.regular.reachable_eq hr
    · cases he
    · obtain rfl := Except.ok.inj he
      refine ⟨map_fst_named hsize, fun entry hentry r => ?_⟩
      obtain ⟨hm, hvalue⟩ := hg.getElem?_of_mem_named hentry
      have hone := hexact entry.1 hm r
      rwa [listed, hvalue, Option.getD_some] at hone
  · obtain ⟨ha, he⟩ | ⟨-, final, he, -⟩ := hg.regular.reachable_eq hr
    · exact ⟨Except.error.inj he, fun hmodest => nomatch ha.symm.trans (hmodest.analyse hg.regular).1⟩
    · cases he

-- The rule that needs an endless tree occurs nowhere, and neither does the removed one.
theorem reachable_exact_knot :
    knot.Reachable ∧ (∃ t, knot.Derives "B" t ∧ t.Carries {0}) ∧
      (¬ ∃ t, knot.Derives "A" t ∧ t.Carries {4}) ∧ ¬ ∃ t, knot.Derives "A" t ∧ t.Carries {5} := by
  let table : Array Domain := #[.ofList [0, 1, 2], .ofList [0, 1, 2], ∅]
  have htable : knot.reachable = .ok table := rfl
  obtain ⟨-, hexact⟩ := reachable_knot.reachable_exact.1 table htable
  have hA : ("A", Domain.ofList [0, 1, 2]) ∈ knot.named table := by decide
  have hB : ("B", Domain.ofList [0, 1, 2]) ∈ knot.named table := by decide
  exact ⟨reachable_knot, (hexact _ hB 0).mp (by decide), mt (hexact _ hA 4).mpr (by decide),
    mt (hexact _ hA 5).mpr (by decide)⟩

end Exact

end Grammar

end TreeSearch
