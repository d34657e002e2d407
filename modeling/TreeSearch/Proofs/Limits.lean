import TreeSearch.Branch.Completion
import TreeSearch.Proofs.Budget
import TreeSearch.Proofs.Grammar.Tables

namespace TreeSearch

namespace Cost

theorem exists_of_mem_of_sum_eq {costs : List Cost} {c : Cost} {n : Nat} (h : sum costs = finite n)
    (hc : c ∈ costs) : ∃ k, c = finite k := by
  induction costs generalizing n with
  | nil => cases hc
  | cons d costs ih =>
      obtain ⟨k, l, rfl, hl, -⟩ := add_eq_finite (sum_cons d costs ▸ h)
      rcases List.mem_cons.mp hc with rfl | hc
      · exact ⟨k, rfl⟩
      · exact ih hl hc

-- One of several costs may be exchanged for a size when its own excess allows it.
theorem sum_exchange {costs : List Cost} {sizes : List Nat} (h : List.Forall₂ Fits costs sizes)
    {total : Nat} (ht : sum costs = finite total) {n before after : Nat}
    (hn : ∀ c size, costs[n]? = some (finite c) → sizes[n]? = some size →
      c + after ≤ size + before)
    (hlt : n < costs.length) : total + after ≤ sizes.sum + before := by
  induction h generalizing total n with
  | nil => simp at hlt
  | @cons c size costs sizes hc hrest ih =>
      rw [sum_cons] at ht
      obtain ⟨k, l, rfl, hl, rfl⟩ := add_eq_finite ht
      rw [List.sum_cons]
      cases n with
      | zero =>
          have hk := hn k size (by simp) (by simp)
          obtain ⟨m, hm, he⟩ := Fits.sum hrest
          obtain rfl : l = m := Cost.finite.inj (hl.symm.trans he)
          omega
      | succ n =>
          have := ih hl (fun c s hcs hs => hn c s (by simpa using hcs) (by simpa using hs))
            (by simpa using hlt)
          have hk : k ≤ size := by simpa using hc
          omega

end Cost

section Tables

variable {g : Grammar}

variable {expected : Option String} {n : Nat} {cs : List Tree}

theorem Grammar.Regular.ruleSizes_fits (hg : g.Regular) (h : g.WellFormed expected (.node n cs))
    (hc : (Tree.node n cs).Complete) :
    (g.analysis.ruleSizes.cost n).Fits (Tree.node n cs).size :=
  hg.ruleMinimums_fits .size h hc

theorem Grammar.Regular.ruleDepths_fits (hg : g.Regular) (h : g.WellFormed expected (.node n cs))
    (hc : (Tree.node n cs).Complete) :
    (g.analysis.ruleDepths.cost n).Fits (Tree.node n cs).depth :=
  hg.ruleMinimums_fits .depth h hc

theorem Grammar.WellFormed.live_root (h : g.WellFormed expected (.node n cs)) :
    ∃ r, g.rule? n = some r ∧ r.removed = false := by
  obtain ⟨r, hr, live, -⟩ := Grammar.wellFormed_node_iff.mp h
  exact ⟨r, hr, live⟩

-- The rule at the root of a complete tree can end within the tree's own size and depth.
theorem Grammar.Regular.mem_withinSize (hg : g.Regular) (h : g.WellFormed expected (.node n cs))
    (hc : (Tree.node n cs).Complete) {budget : Int} (hb : ((Tree.node n cs).size : Int) ≤ budget) :
    n ∈ g.analysis.withinSize budget :=
  (hg.mem_rulesWhere _ _ _).mpr ⟨h.live_root, (hg.ruleSizes_fits h hc).within hb⟩

theorem Grammar.Regular.mem_withinDepth (hg : g.Regular) (h : g.WellFormed expected (.node n cs))
    (hc : (Tree.node n cs).Complete) {budget : Option Int}
    (hb : ∀ b ∈ budget, ((Tree.node n cs).depth : Int) ≤ b) : n ∈ g.analysis.withinDepth budget := by
  cases budget with
  | none => exact (hg.mem_rulesWhere _ _ _).mpr ⟨h.live_root, (hg.ruleSizes_fits h hc).isFinite⟩
  | some b =>
      exact (hg.mem_rulesWhere _ _ _).mpr ⟨h.live_root, (hg.ruleDepths_fits h hc).within (hb b rfl)⟩

theorem Grammar.Regular.leastSize_fits (hg : g.Regular) (h : g.WellFormed expected (.node n cs))
    (hc : (Tree.node n cs).Complete) {rules : Domain} (hn : n ∈ rules) :
    (g.analysis.leastSize rules).Fits (Tree.node n cs).size :=
  (Cost.leastOf_fits _ _).mpr ⟨_, List.mem_map_of_mem ((Domain.mem_rules n rules).mpr hn),
    hg.ruleSizes_fits h hc⟩

-- Every tree has a level of its own.
theorem Grammar.Regular.one_le_of_withinDepth (hg : g.Regular) {budget : Int}
    (h : n ∈ g.analysis.withinDepth (some budget)) : 1 ≤ budget := by
  obtain ⟨⟨r, hr, live⟩, hw⟩ := (hg.mem_rulesWhere _ _ _).mp h
  rw [show g.analysis.ruleDepths = g.outline.ruleCosts (Outline.leastCost .depth
    (g.outline.categoryMinimums .depth)) from rfl, hg.cost_ruleCosts _ hr live] at hw
  cases hcost : Outline.leastCost .depth (g.outline.categoryMinimums .depth) (g.shape r) with
  | infinite =>
      rw [hcost] at hw
      cases hw
  | finite k =>
      rw [hcost] at hw
      have := Measure.one_le_of_above_eq .depth hcost
      have : (k : Int) ≤ budget := by simpa [Cost.within] using hw
      omega

-- The smallest tree with one of some live rules has a node at least.
theorem Grammar.Regular.one_le_of_leastSize (hg : g.Regular) {rules : Domain} {category : String}
    (hlive : ∀ r : Nat, r ∈ rules → g.Produces r category) {k : Nat}
    (h : g.analysis.leastSize rules = .finite k) : 1 ≤ k := by
  have hfits : (g.analysis.leastSize rules).Fits k := ⟨k, Nat.le_refl k, h⟩
  obtain ⟨c, hc, m, hm, rfl⟩ := (Cost.leastOf_fits _ _).mp hfits
  obtain ⟨n, hn, hcost⟩ := List.mem_map.mp hc
  obtain ⟨r, hr, live, -⟩ := hlive n ((Domain.mem_rules n rules).mp hn)
  rw [show g.analysis.ruleSizes = g.outline.ruleCosts (Outline.leastCost .size
    (g.outline.categoryMinimums .size)) from rfl, hg.cost_ruleCosts _ hr live] at hcost
  exact Nat.le_trans (Measure.one_le_of_above_eq .size hcost) hm

end Tables

-- A position of a finer tree is decided already, or it is at or below an open one.
theorem Tree.Refines.locate_open {g : Grammar} {u t s : Tree} {path : Path} (h : u.Refines t)
    (hw : g.WellFormed none t) (hs : u.get? path = some s) :
    (∃ r cs, t.get? path = some (.node r cs)) ∨
      ∃ (above rest : Path) (category : String) (d : Domain), path = above ++ rest ∧
        t.get? above = some (.hole category d) := by
  rcases h.locate hs with ⟨v, hv, -⟩ | ⟨above, rest, category, d, he, -, hh⟩
  · cases v with
    | node r cs => exact Or.inl ⟨r, cs, hv⟩
    | hole category d => exact Or.inr ⟨path, [], category, d, by simp, hv⟩
    | choice => cases hw.get? hv
    | var => cases hw.get? hv
  · exact Or.inr ⟨above, rest, category, d, he, hh⟩

namespace Problem

variable {p : Problem}

section Exact

-- The rules whose least trees fit below the depth limit at a path.
def shallowRules (p : Problem) (path : Path) : Domain :=
  p.grammar.analysis.withinDepth (p.depthBudget path)

-- The size of the smallest completion of a tree, however large it is.
def leastSize (p : Problem) (t : Tree) : Cost :=
  Cost.sum ((t.positions []).map fun (_, s) => p.grammar.analysis.nodeSize s)

-- The rules that fit the limits in the place of a hole, given the sizes of the smallest
-- completions of the whole tree and of the hole.
def fittingRules (p : Problem) (total : Cost) (path : Path) (hole : Cost) : Domain :=
  match p.bounds.maxSize with
  | some limit =>
      p.shallowRules path ∩ p.grammar.analysis.withinSize ((hole.known : Int) + limit - total.known)
  | none => p.shallowRules path

-- Whether a subtree of some size fits in the place of a hole, when the smallest
-- completion of the whole tree and the smallest one of the hole are known. Nothing
-- fits into a tree that has no completion.
def sizeFits (p : Problem) (total hole : Cost) (size : Cost) : Bool :=
  match p.bounds.maxSize, total with
  | none, _ => true
  | some _, .infinite => false
  | some limit, .finite t => match hole with
      | .finite h => size.within ((limit : Int) - t + h)
      | .infinite => true

-- The rules of a hole below which a target rule can still occur, given the size of
-- the smallest completion of the whole tree.
def viableHosts (p : Problem) (targets : Domain) (path : Path) (rules : Domain)
    (total : Cost) : Domain :=
  let table := p.grammar.analysis.containing targets
  rules.filter fun r =>
    p.sizeFits total (p.grammar.analysis.leastSize rules) (table.ruleSizes.cost r) &&
      (p.levels path).covers (table.ruleDepths.cost r)

end Exact

-- A complete tree that the grammar allows and that an unfinished tree can become.
structure Completes (p : Problem) (u t : Tree) : Prop where
  wellFormed : p.grammar.WellFormed none u
  complete : u.Complete
  refines : u.Refines t

theorem Completes.of_refines {u t s : Tree} (h : p.Completes u t) (hts : t.Refines s) :
    p.Completes u s :=
  ⟨h.wellFormed, h.complete, h.refines.trans hts⟩

theorem Completes.get? {u t s : Tree} {path : Path} (h : p.Completes u t)
    (hs : t.get? path = some s) : ∃ v, u.get? path = some v ∧ p.Completes v s := by
  obtain ⟨v, hv, hr⟩ := h.refines.get? hs
  exact ⟨v, hv, h.wellFormed.get? hv, h.complete.get? hv, hr⟩

-- An open position takes one of its rules.
theorem Completes.hole {u : Tree} {category : String} {d : Domain}
    (h : p.Completes u (.hole category d)) :
    ∃ (n : Nat) (cs : List Tree), u = .node n cs ∧ n ∈ d := by
  obtain ⟨n, cs, hn, rfl, -⟩ := h.complete.refines_hole h.refines
  exact ⟨n, cs, rfl, hn⟩

theorem Completes.node {u : Tree} {r : Int} {cs : List Tree} (h : p.Completes u (.node r cs)) :
    ∃ ds : List Tree, u = .node r ds ∧ ds.length = cs.length ∧
      ∀ (i : Nat) (d c : Tree), ds[i]? = some d → cs[i]? = some c → p.Completes d c := by
  obtain ⟨ds, rfl, hlen, hds⟩ := Tree.refines_node_iff.mp h.refines
  refine ⟨ds, rfl, hlen, fun i d c hd hc => ⟨?_, ?_, hds i d c hd hc⟩⟩
  · exact h.wellFormed.get? (show _ = some d from Tree.get?_child (n := i) (Tree.get?_nil _) hd)
  · exact h.complete.get? (show _ = some d from Tree.get?_child (n := i) (Tree.get?_nil _) hd)

section Depth

theorem depthBudget_eq_some {path : Path} {budget : Int} :
    p.depthBudget path = some budget ↔
      ∃ limit, p.bounds.maxDepth = some limit ∧ budget = (limit : Int) - path.length := by
  unfold depthBudget
  cases p.bounds.maxDepth with
  | none => simp
  | some limit => simp [eq_comm]

theorem mem_shallowRules (hg : p.grammar.Regular) {u : Tree} {path : Path} {n : Nat}
    {cs : List Tree} (hw : p.grammar.WellFormed none u) (hc : u.Complete) (hb : p.bounds.Admits u)
    (h : u.get? path = some (.node n cs)) : n ∈ p.shallowRules path := by
  refine hg.mem_withinDepth (hw.get? h) (hc.get? h) fun b hm => ?_
  obtain ⟨limit, hl, rfl⟩ := depthBudget_eq_some.mp hm
  have hd := hb.1 limit hl
  have := Tree.depth_le_of_get? h
  omega

-- Only positions above the depth limit have rules that fit.
theorem length_lt_of_mem_shallowRules (hg : p.grammar.Regular) {path : Path} {n : Nat}
    (h : n ∈ p.shallowRules path) : ∀ limit ∈ p.bounds.maxDepth, path.length < limit := by
  intro limit hl
  rw [shallowRules, depthBudget_eq_some.mpr ⟨limit, hl, rfl⟩] at h
  have := hg.one_le_of_withinDepth h
  omega

theorem shallowRules_congr {path other : Path} (h : path.length = other.length) :
    p.shallowRules path = p.shallowRules other := by
  rw [shallowRules, shallowRules, depthBudget, depthBudget, h]

end Depth

section Size

theorem leastSize_eq (p : Problem) (t : Tree) :
    p.leastSize t = Cost.sum (t.subtrees.map p.grammar.analysis.nodeSize) := by
  rw [leastSize, Tree.subtrees, List.map_map]
  rfl

theorem leastSize_hole (p : Problem) (category : String) (d : Domain) :
    p.leastSize (.hole category d) = p.grammar.analysis.leastSize d := by
  rw [leastSize_eq, Tree.subtrees_hole]
  show p.grammar.analysis.leastSize d + 0 = _
  cases p.grammar.analysis.leastSize d <;> rfl

theorem leastSize_node (p : Problem) (r : Int) (cs : List Tree) :
    p.leastSize (.node r cs) = 1 + Cost.sum (cs.map p.leastSize) := by
  have hcs : Cost.sum ((cs.flatMap Tree.subtrees).map p.grammar.analysis.nodeSize) =
      Cost.sum (cs.map p.leastSize) := by
    induction cs with
    | nil => rfl
    | cons c cs ih =>
        rw [List.flatMap_cons, List.map_append, Cost.sum_append, List.map_cons, Cost.sum_cons, ih,
          leastSize_eq]
  rw [leastSize_eq, Tree.subtrees_node, List.map_cons, Cost.sum_cons, hcs]
  rfl

-- Where a tree has a completion, every open position of it has one.
theorem exists_leastSize_eq {t : Tree} {path : Path} {category : String} {d : Domain} {total : Nat}
    (ht : t.get? path = some (.hole category d)) (htotal : p.leastSize t = .finite total) :
    ∃ hole, p.grammar.analysis.leastSize d = .finite hole := by
  refine Cost.exists_of_mem_of_sum_eq htotal (List.mem_map.mpr ⟨(path, .hole category d), ?_, rfl⟩)
  exact (Tree.mem_positions_nil t path _).mpr ht

-- The smallest completion is no larger than any other one.
theorem leastSize_fits (hg : p.grammar.Regular) {u t : Tree} (h : p.Completes u t) :
    (p.leastSize t).Fits u.size := by
  induction t using Tree.induction generalizing u with
  | node r cs ih =>
      obtain ⟨ds, rfl, hlen, hds⟩ := h.node
      rw [leastSize_node, Tree.size_node, Nat.add_comm]
      refine Cost.Fits.add ⟨1, Nat.le_refl 1, rfl⟩ (Cost.Fits.sum ?_)
      refine List.forall₂_iff_get.mpr ⟨by simp [hlen], fun i hi hi' => ?_⟩
      rw [List.length_map] at hi hi'
      have hd := hds i _ _ (List.getElem?_eq_getElem hi') (List.getElem?_eq_getElem hi)
      simpa using ih _ (List.getElem_mem hi) hd
  | hole category d =>
      obtain ⟨n, cs, rfl, hn⟩ := h.hole
      rw [leastSize_hole]
      exact hg.leastSize_fits h.wellFormed h.complete hn
  | choice =>
      cases h.refines
      cases h.complete
  | var =>
      cases h.refines
      cases h.complete

theorem leastSize_of_complete {t : Tree} (h : t.Complete) : p.leastSize t = .finite t.size := by
  induction t using Tree.induction with
  | node r cs ih =>
      obtain ⟨_, _, he, hcs⟩ := Tree.complete_iff.mp h
      obtain ⟨rfl, rfl⟩ := Tree.node.inj he
      have hsum : Cost.sum (cs.map p.leastSize) = .finite (cs.map Tree.size).sum := by
        clear h he
        induction cs with
        | nil => rfl
        | cons c cs ihc =>
            rw [List.map_cons, Cost.sum_cons, ih c List.mem_cons_self (hcs c List.mem_cons_self),
              ihc (fun d hd => ih d (List.mem_cons_of_mem c hd))
                fun d hd => hcs d (List.mem_cons_of_mem c hd)]
            rfl
      rw [leastSize_node, hsum, Tree.size_node, Nat.add_comm]
      rfl
  | hole => cases h
  | choice => cases h
  | var => cases h

-- An unfinished tree is no larger than its smallest completion.
theorem size_le_of_leastSize (hg : p.grammar.Regular) {expected : Option String} {t : Tree} {n : Nat}
    (hw : p.grammar.WellFormed expected t) (h : p.leastSize t = .finite n) : t.size ≤ n := by
  induction t using Tree.induction generalizing expected n with
  | node r cs ih =>
      have hsum : ∀ m, Cost.sum (cs.map p.leastSize) = .finite m → (cs.map Tree.size).sum ≤ m := by
        have hchild (c : Tree) (hc : c ∈ cs) : ∃ category, p.grammar.WellFormed (some category) c := by
          obtain ⟨k, hk⟩ := List.mem_iff_getElem?.mp hc
          exact hw.child hk
        clear hw h
        induction cs with
        | nil => exact fun m _ => Nat.zero_le m
        | cons c cs ihc =>
            intro m hm
            obtain ⟨k, l, hk, hl, rfl⟩ := Cost.add_eq_finite hm
            obtain ⟨category, hw⟩ := hchild c List.mem_cons_self
            have hrest := ihc (fun d hd => ih d (List.mem_cons_of_mem c hd))
              (fun d hd => hchild d (List.mem_cons_of_mem c hd)) l hl
            exact Nat.add_le_add (ih c List.mem_cons_self hw hk) hrest
      rw [leastSize_node] at h
      obtain ⟨k, l, hk, hl, rfl⟩ := Cost.add_eq_finite h
      obtain rfl : 1 = k := Cost.finite.inj hk
      rw [Tree.size_node, Nat.add_comm]
      exact Nat.add_le_add_left (hsum l hl) 1
  | hole category d =>
      rw [leastSize_hole] at h
      exact hg.one_le_of_leastSize (Grammar.wellFormed_hole_iff.mp hw).2.2 h
  | choice => cases hw
  | var => cases hw

-- What a tree spends on one open position it can save nowhere else.
theorem leastSize_exchange (hg : p.grammar.Regular) {u t s : Tree} {path : Path} {category : String}
    {d : Domain} {total hole : Nat} (h : p.Completes u t)
    (ht : t.get? path = some (.hole category d)) (hs : u.get? path = some s)
    (htotal : p.leastSize t = .finite total) (hhole : p.grammar.analysis.leastSize d = .finite hole) :
    total + s.size ≤ u.size + hole := by
  induction path generalizing u t total with
  | nil =>
      obtain rfl : t = .hole category d := by simpa using ht
      obtain rfl : u = s := by simpa using hs
      rw [leastSize_hole, hhole] at htotal
      cases htotal
      omega
  | cons i path ih =>
      rw [Tree.get?_cons] at ht hs
      obtain ⟨c, hi, hc⟩ := Option.bind_eq_some_iff.mp ht
      obtain ⟨e, hi', he⟩ := Option.bind_eq_some_iff.mp hs
      obtain ⟨n, rfl, hn⟩ := Tree.child?_eq_some.mp hi
      cases t with
      | node r cs =>
          rw [Tree.children] at hn
          obtain ⟨ds, rfl, hlen, hds⟩ := h.node
          rw [Tree.child?_node] at hi'
          rw [leastSize_node] at htotal
          obtain ⟨one, below, hone, hbelow, rfl⟩ := Cost.add_eq_finite htotal
          obtain rfl : 1 = one := Cost.finite.inj hone
          have hfits : List.Forall₂ Cost.Fits (cs.map p.leastSize) (ds.map Tree.size) := by
            refine List.forall₂_iff_get.mpr ⟨by simp [hlen], fun k hk hk' => ?_⟩
            rw [List.length_map] at hk hk'
            simpa using leastSize_fits hg
              (hds k _ _ (List.getElem?_eq_getElem hk') (List.getElem?_eq_getElem hk))
          have hexchange : below + s.size ≤ (ds.map Tree.size).sum + hole := by
            refine Cost.sum_exchange hfits hbelow (n := n) (fun cost size hcost hsize => ?_) ?_
            · obtain rfl : e.size = size := by simpa [hi'] using hsize
              have hcost : p.leastSize c = .finite cost := by simpa [hn] using hcost
              exact ih (hds n e c hi' hn) hc he hcost
            · simpa using (List.getElem?_eq_some_iff.mp hn).1
          rw [Tree.size_node]
          omega
      | hole => simp [Tree.children] at hn
      | choice => simp [Tree.children] at hn
      | var => simp [Tree.children] at hn

-- The root of a completion within the limits, at an open position of the tree.
theorem mem_fittingRules (hg : p.grammar.Regular) {u t : Tree} {path : Path} {category : String}
    {d : Domain} {n : Nat} {cs : List Tree} (h : p.Completes u t) (hb : p.bounds.Admits u)
    (ht : t.get? path = some (.hole category d)) (hs : u.get? path = some (.node n cs)) :
    n ∈ p.fittingRules (p.leastSize t) path (p.grammar.analysis.leastSize d) := by
  have hshallow := mem_shallowRules hg h.wellFormed h.complete hb hs
  unfold fittingRules
  split
  · rename_i limit hl
    refine (Domain.mem_inter _ _ _).mpr ⟨hshallow, ?_⟩
    obtain ⟨total, -, htotal⟩ := leastSize_fits hg h
    obtain ⟨hole, hhole⟩ := exists_leastSize_eq ht htotal
    have hexchange := leastSize_exchange hg h ht hs htotal hhole
    have hsize := hb.2 limit hl
    rw [htotal, hhole, Cost.known, Cost.known]
    exact hg.mem_withinSize (h.wellFormed.get? hs) (h.complete.get? hs) (by omega)
  · exact hshallow

-- A subtree of a completion within the size limit fits, whichever bound on its size is known.
theorem sizeFits_of_completes (hg : p.grammar.Regular) {u t s : Tree} {path : Path} {category : String}
    {d : Domain} {size : Cost} (h : p.Completes u t) (hlimit : ∀ limit ∈ p.bounds.maxSize, u.size ≤ limit)
    (ht : t.get? path = some (.hole category d)) (hs : u.get? path = some s)
    (hsize : size.Fits s.size) : p.sizeFits (p.leastSize t) (p.grammar.analysis.leastSize d) size = true := by
  have hleast := leastSize_fits hg h
  unfold sizeFits
  split
  · rfl
  · rename_i htotal
    rw [htotal] at hleast
    exact absurd hleast (Cost.not_infinite_fits _)
  · rename_i limit total hl htotal
    split
    · rename_i hole hhole
      have hexchange := leastSize_exchange hg h ht hs htotal hhole
      have hu := hlimit limit hl
      exact hsize.within (by omega)
    · rfl

theorem levels_covers_iff {path : Path} {depth : Cost} : (p.levels path).covers depth = true ↔
    ∀ limit ∈ p.bounds.maxDepth, depth.within ((limit : Int) - path.length) = true := by
  unfold levels depthBudget
  cases p.bounds.maxDepth <;> simp [Budget.covers]

-- The rule that a completion within the limits has at an open position, when a target
-- occurs from there on.
theorem mem_viableHosts (hg : p.grammar.Regular) {u t : Tree} {path : Path} {category : String}
    {d targets : Domain} {n : Nat} {cs : List Tree} (h : p.Completes u t) (hb : p.bounds.Admits u)
    (ht : t.get? path = some (.hole category d)) (hs : u.get? path = some (.node n cs))
    (hcarries : (Tree.node n cs).Carries targets) :
    n ∈ p.viableHosts targets path d (p.leastSize t) := by
  have hw := h.wellFormed.get? hs
  have hc := h.complete.get? hs
  have hn : n ∈ d := by
    obtain ⟨v, hv, hcompletes⟩ := h.get? ht
    obtain ⟨m, ds, rfl, hm⟩ := hcompletes.hole
    obtain ⟨he, -⟩ : (m : Int) = n ∧ ds = cs := by simpa [hs] using hv.symm
    obtain rfl : m = n := by omega
    exact hm
  refine (Domain.mem_filter _ _ _).mpr ⟨hn, ?_⟩
  rw [Bool.and_eq_true]
  constructor
  · exact sizeFits_of_completes hg h hb.2 ht hs (hg.containingCosts_fits .size hw hc hcarries)
  · refine levels_covers_iff.mpr fun limit hl => ?_
    have hd := hb.1 limit hl
    have := Tree.depth_le_of_get? hs
    refine (hg.containingCosts_fits .depth hw hc hcarries).within ?_
    rw [Measure.of]
    omega

end Size

end Problem

end TreeSearch
