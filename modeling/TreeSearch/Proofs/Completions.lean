import TreeSearch.Proofs.Grammar.Categories
import TreeSearch.Proofs.Grammar.Containment
import TreeSearch.Proofs.Limits

namespace TreeSearch

namespace Cost

theorem add_right_comm (a b c : Cost) : a + b + c = a + c + b := by
  rw [add_assoc, add_comm b c, add_assoc]

-- One of several costs becomes another one.
theorem sum_set {costs : List Cost} {n : Nat} {c d old new : Cost} (h : costs[n]? = some c)
    (he : d + old = c + new) : sum (costs.set n d) + old = sum costs + new := by
  induction costs generalizing n with
  | nil => cases h
  | cons x costs ih =>
      cases n with
      | zero =>
          obtain rfl : x = c := by simpa using h
          rw [List.set_cons_zero, sum_cons, sum_cons, add_right_comm, he, add_right_comm]
      | succ n =>
          rw [List.set_cons_succ, sum_cons, sum_cons, add_assoc, ih (by simpa using h), add_assoc]

end Cost

namespace Problem

variable {p : Problem} {expected : Option String} {category : String} {d : Domain} {path : Path}
  {t u v : Tree}

-- Replacing a subtree changes the least size by the difference.
theorem leastSize_replaced {old new : Tree} (h : Tree.Replaced old new path t u) :
    p.leastSize u + p.leastSize old = p.leastSize t + p.leastSize new := by
  induction h with
  | here => exact Cost.add_comm _ _
  | @inside r cs n c d path found _ ih =>
      have hcost : (cs.map p.leastSize)[n]? = some (p.leastSize c) := by simp [found]
      rw [leastSize_node, leastSize_node, List.map_set, Cost.add_assoc, Cost.sum_set hcost ih,
        Cost.add_assoc]

-- The smallest tree with one of some live rules at the root.
theorem exists_tree_of_leastSize (hg : p.grammar.Regular) {n : Nat}
    (h : p.grammar.analysis.leastSize d = .finite n) : ∃ r ∈ d, ∃ t, p.grammar.Roots r t ∧ t.size = n := by
  rw [Analysis.leastSize] at h
  obtain ⟨r, hr, hcost⟩ := List.mem_map.mp (Cost.exists_of_leastOf_eq_finite h)
  have hleast : (Cost.finite n).IsLeastOf .size (p.grammar.Roots r) :=
    hcost ▸ hg.ruleCosts_isLeastOf .size r
  exact ⟨r, (Domain.mem_rules r d).mp hr, hleast.1⟩

-- Completions of the children make up one of the node.
theorem completes_node {r : Int} {cs ds : List Tree} (hw : p.grammar.WellFormed expected (.node r cs))
    (h : List.Forall₂ (fun c d => p.Completes d c) cs ds) : p.Completes (.node r ds) (.node r cs) := by
  obtain ⟨q, hq, live, -, arity, below⟩ := Grammar.wellFormed_node_iff.mp hw
  have hlen := h.length_eq.symm
  have hget (i : Nat) (d c : Tree) (hd : ds[i]? = some d) (hc : cs[i]? = some c) : p.Completes d c :=
    List.forall₂_zip h (List.mem_of_getElem? (List.getElem?_zip_eq_some.mpr ⟨hc, hd⟩))
  have hsome (i : Nat) (d : Tree) (hd : ds[i]? = some d) : ∃ c, cs[i]? = some c :=
    ⟨_, List.getElem?_eq_getElem (hlen ▸ (List.getElem?_eq_some_iff.mp hd).1)⟩
  refine ⟨.node hq live nofun (hlen.trans arity) fun i category d hi hd => ?_, .node fun d hd => ?_,
    .node hlen fun i d c hd hc => (hget i d c hd hc).refines⟩
  · obtain ⟨c, hc⟩ := hsome i d hd
    have hcompletes := hget i d c hd hc
    exact (below i category c hi hc).of_refines hcompletes.wellFormed hcompletes.refines
  · obtain ⟨i, hd⟩ := List.mem_iff_getElem?.mp hd
    obtain ⟨c, hc⟩ := hsome i d hd
    exact (hget i d c hd hc).complete

-- The least size is that of a completion, with smallest trees in all holes.
theorem exists_completes (hg : p.grammar.Regular) {n : Nat} (hw : p.grammar.WellFormed expected t)
    (h : p.leastSize t = .finite n) : ∃ u, p.Completes u t ∧ u.size = n := by
  induction t using Tree.induction generalizing expected n with
  | node r cs ih =>
      rw [leastSize_node] at h
      obtain ⟨one, l, hone, hl, rfl⟩ := Cost.add_eq_finite h
      obtain rfl : 1 = one := Cost.finite.inj hone
      obtain ⟨ns, hns⟩ := Cost.exists_of_sum_eq_finite hl
      obtain ⟨ds, hds⟩ := exists_forall₂ (l := cs)
        (R := fun c d => p.Completes d c ∧ p.leastSize c = .finite d.size) fun c hc => by
          have hcost : p.leastSize c ∈ ns.map Cost.finite := hns ▸ List.mem_map_of_mem hc
          obtain ⟨k, -, hk⟩ := List.mem_map.mp hcost
          obtain ⟨i, hi⟩ := List.mem_iff_getElem?.mp hc
          obtain ⟨category, hchild⟩ := hw.child hi
          obtain ⟨d, hd, rfl⟩ := ih c hc hchild hk.symm
          exact ⟨d, hd, hk.symm⟩
      have hsizes : cs.map p.leastSize = ds.map fun d => .finite d.size :=
        map_eq_map_of_forall₂ (hds.imp fun _ _ hcd => hcd.2)
      have hsum : (ds.map Tree.size).sum = l := by
        rw [hsizes, ← Function.comp_def, ← List.map_map, Cost.sum_map_finite] at hl
        exact Cost.finite.inj hl
      refine ⟨.node r ds, completes_node hw (hds.imp fun _ _ hcd => hcd.1), ?_⟩
      rw [Tree.size_node, hsum, Nat.add_comm]
  | hole category d =>
      rw [leastSize_hole] at h
      obtain ⟨r, hr, u, ⟨hu, hc, cs, rfl⟩, hsize⟩ := exists_tree_of_leastSize hg h
      exact ⟨_, ⟨hu, hc, .filled hr⟩, hsize⟩
  | choice => cases hw
  | var => cases hw

-- What becomes of a tree with a finished subtree in the place of a hole has that subtree there.
theorem Completes.of_replaced {s old : Tree} (h : p.Completes u s) (hs : Tree.Replaced old v path t s)
    (hv : p.Completes v old) : p.Completes u t ∧ u.get? path = some v := by
  obtain ⟨w, hw, hrefines⟩ := h.refines.get? hs.get?_new
  obtain rfl := hv.complete.eq_of_refines hrefines
  exact ⟨h.of_refines (hs.refines hv.refines), hw⟩

-- What a tree spends on one open position is all that it has to spend more. The other half of
-- leastSize_exchange.
theorem exists_completes_with (hg : p.grammar.Regular) {total hole : Nat}
    (hw : p.grammar.WellFormed expected t) (ht : t.get? path = some (.hole category d))
    (htotal : p.leastSize t = .finite total) (hhole : p.grammar.analysis.leastSize d = .finite hole)
    (hv : p.Completes v (.hole category d)) :
    ∃ u, p.Completes u t ∧ u.get? path = some v ∧ u.size + hole = total + v.size := by
  obtain ⟨s, -, hs⟩ := Tree.replace_of_get? ht v
  have hsw : p.grammar.WellFormed expected s :=
    hw.replaced hs fun _ hold => hold.of_refines hv.wellFormed hv.refines
  have hleast : p.leastSize s + .finite hole = .finite (total + v.size) := by
    have h := leastSize_replaced (p := p) hs
    rwa [leastSize_hole, hhole, htotal, leastSize_of_complete hv.complete] at h
  obtain ⟨n, _, hn, hh, hsum⟩ := Cost.add_eq_finite hleast
  obtain rfl := Cost.finite.inj hh
  obtain ⟨u, hu, rfl⟩ := exists_completes hg hsw hn
  obtain ⟨hcompletes, hplace⟩ := hu.of_replaced hs hv
  exact ⟨u, hcompletes, hplace, hsum⟩

end Problem

end TreeSearch
