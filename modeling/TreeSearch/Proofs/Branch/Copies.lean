import Mathlib.Data.Finset.Card
import TreeSearch.Proofs.Branch.Congruence

namespace TreeSearch

variable {p : Problem} {b c d : Branch} {first second path other : Path}

namespace Branch

-- A branch that has come of another one by copying. Below the depth limit nothing is opened.
structure Copies (p : Problem) (b : Branch) (first second : Path) (c : Branch) : Prop where
  intact : c.Intact p
  united : ∀ path, ∀ other ∈ c.classes.members path, Congruent (b.Equated first second) path other
  nodes : ∀ path node, c.rootAt path = some (.inl node) →
    ∃ origin, Congruent (b.Equated first second) origin path ∧ b.rootAt origin = some (.inl node)
  shallow : ∀ limit ∈ p.bounds.maxDepth, c.tree.depth ≤ max limit b.tree.depth

theorem Intact.copies (h : b.Intact p) (first second : Path) : b.Copies p first second b where
  intact := h
  united := fun _ _ hm => .joined (Or.inl (h.classes.same_iff.mpr hm))
  nodes := fun path _ hnode => ⟨path, .refl path, hnode⟩
  shallow := fun _ _ => Nat.le_max_right _ _

namespace Copies

theorem congr (h : b.Copies p first second c) (htree : d.tree = c.tree) (hclasses : d.classes = c.classes) :
    b.Copies p first second d := by
  refine ⟨h.intact.congr htree hclasses, ?_, fun path node hnode => ?_, ?_⟩
  · rw [hclasses]
    exact h.united
  · rw [rootAt, htree] at hnode
    exact h.nodes path node hnode
  · rw [htree]
    exact h.shallow

-- Uniting positions that are congruent already.
theorem unite (h : b.Copies p first second c) {x y : Path}
    (hxy : Congruent (b.Equated first second) x y) (hx : ∃ s, c.tree.get? x = some s)
    (hy : ∃ s, c.tree.get? y = some s) :
    b.Copies p first second { c with classes := c.classes.unite x y } := by
  refine ⟨h.intact.unite hx hy, fun path other hm => ?_, h.nodes, h.shallow⟩
  have hproper := h.intact.classes.unite x y
  rcases PathClasses.unite_eq h.intact.classes x y with ⟨he, -⟩ | ⟨merged, hmerged, he⟩
  · rw [he] at hm
    exact h.united path other hm
  · have hall (q : Path) (hq : q ∈ merged) : Congruent (b.Equated first second) x q := by
      rcases (hmerged q).mp hq with hq | hq
      · exact h.united x q hq
      · exact hxy.trans (h.united y q hq)
    rcases (c.classes.unite x y).members_eq_or path with ⟨k, hk, hp, hmem⟩ | ⟨-, hmem⟩
    · rw [hmem] at hm
      rw [he] at hk
      rcases List.mem_cons.mp hk with rfl | hk
      · exact (hall path hp).symm.trans (hall other hm)
      · have hold := h.intact.classes.members_eq (List.mem_filter.mp hk).1 hp
        exact h.united path other (hold ▸ hm)
    · rw [hmem, List.mem_singleton] at hm
      rw [hm]
      exact .refl path

theorem uniteAll (h : b.Copies p first second c) {anchor : Path} {l : List Path}
    (hl : ∀ q ∈ l, Congruent (b.Equated first second) anchor q)
    (ha : ∃ s, c.tree.get? anchor = some s) (hs : ∀ q ∈ l, ∃ s, c.tree.get? q = some s) :
    b.Copies p first second
      { c with classes := l.foldl (fun classes q => classes.unite anchor q) c.classes } := by
  induction l generalizing c with
  | nil => exact h
  | cons q l ih =>
      have hq := h.unite (hl q List.mem_cons_self) ha (hs q List.mem_cons_self)
      exact ih hq (fun r hr => hl r (List.mem_cons_of_mem q hr)) ha
        fun r hr => hs r (List.mem_cons_of_mem q hr)

-- A hole that becomes a node copies a node.
theorem edit (h : b.Copies p first second c) {old new tree : Tree} (change : Edit p path old new)
    (replaced : Tree.Replaced old new path c.tree tree) (htree : d.tree = tree)
    (hclasses : d.classes = c.classes) (hnew : ∀ node, new.root = .inl node →
      ∃ origin, Congruent (b.Equated first second) origin path ∧ b.rootAt origin = some (.inl node)) :
    b.Copies p first second d := by
  refine ⟨h.intact.edit change replaced htree hclasses, ?_, fun q node hnode => ?_, fun limit hl => ?_⟩
  · rw [hclasses]
    exact h.united
  · obtain ⟨cs, hcs, hlen⟩ := rootAt_eq_inl.mp hnode
    rw [htree] at hcs
    rcases replaced.get?_of_new hcs with hold | ⟨rest, rfl, hne, hrest⟩
    · by_cases hq : q = path
      · subst hq
        obtain rfl := Option.some.inj (replaced.get?_new.symm.trans hcs)
        exact hnew node (Tree.root_eq_inl.mpr ⟨cs, rfl, hlen⟩)
      · rw [rootAt_of_replaced change replaced htree hq hold] at hnode
        exact h.nodes q node hnode
    · obtain ⟨-, -, category, rules, he, -⟩ := change.get?_new_below hrest hne
      cases he
  · rw [htree]
    refine Tree.depth_le_iff.mpr fun q s hs => ?_
    rcases replaced.get?_of_new hs with ⟨v, hv⟩ | ⟨rest, rfl, hne, hrest⟩
    · exact Tree.depth_le_iff.mp (h.shallow limit hl) q v hv
    · obtain ⟨hlen, hwithin, -⟩ := change.get?_new_below hrest hne
      have := hwithin limit hl
      rw [List.length_append, hlen]
      omega

-- The root copies the root, and a child of a node copies a child of the node that it copies.
theorem exists_origin (h : b.Copies p first second c) (hs : ∃ s, c.tree.get? path = some s) :
    ∃ origin, Congruent (b.Equated first second) origin path ∧ ∃ v, b.tree.get? origin = some v := by
  rcases List.eq_nil_or_concat' path with rfl | ⟨above, i, rfl⟩
  · exact ⟨[], .refl [], b.tree, Tree.get?_nil _⟩
  · obtain ⟨s, hs⟩ := hs
    obtain ⟨u, hu, hus⟩ := Tree.get?_of_append hs
    rw [Tree.get?_cons] at hus
    obtain ⟨v, hv, -⟩ := Option.bind_eq_some_iff.mp hus
    obtain ⟨n, rfl, hn⟩ := Tree.child?_eq_some.mp hv
    cases u with
    | node r cs =>
        obtain ⟨origin, horigin, hnode⟩ := h.nodes above _ (rootAt_eq_some hu)
        obtain ⟨ds, hds, hlen⟩ := rootAt_eq_inl.mp hnode
        have hlt : n < cs.length := (List.getElem?_eq_some_iff.mp hn).1
        refine ⟨origin ++ [(n : Int)], horigin.child n, ds[n], ?_⟩
        rw [Tree.get?_below hds, List.getElem?_eq_getElem]
    | hole => simp [Tree.children] at hn
    | choice => simp [Tree.children] at hn
    | var => simp [Tree.children] at hn

-- On a longer path two positions would copy the same one, and that one would be congruent to a
-- part of itself.
theorem depth_le (h : b.Copies p first second c) (hb : ¬ b.Cyclic first second) :
    c.tree.depth ≤ b.tree.size := by
  refine Tree.depth_le_iff.mpr fun path s hs => ?_
  by_contra hlen
  have horigin (j : Nat) : ∃ origin, Congruent (b.Equated first second) origin (path.take j) ∧
      ∃ v, b.tree.get? origin = some v := by
    refine h.exists_origin ?_
    rw [← List.take_append_drop j path] at hs
    obtain ⟨u, hu, -⟩ := Tree.get?_of_append hs
    exact ⟨u, hu⟩
  choose origin hcongruent hplaced using horigin
  have hcard : ((b.tree.positions []).map Prod.fst).toFinset.card < (Finset.range (path.length + 1)).card := by
    refine Nat.lt_of_le_of_lt (List.toFinset_card_le _) ?_
    rw [Finset.card_range, List.length_map]
    exact Nat.lt_succ_of_le (Nat.le_of_not_lt hlen)
  have hmaps (j : Nat) : origin j ∈ ((b.tree.positions []).map Prod.fst).toFinset := by
    obtain ⟨v, hv⟩ := hplaced j
    rw [List.mem_toFinset]
    exact List.mem_map.mpr ⟨_, (Tree.mem_positions_nil _ _ v).mpr hv, rfl⟩
  obtain ⟨i, hi, j, hj, hne, he⟩ :=
    Finset.exists_ne_map_eq_of_card_lt_of_maps_to hcard fun j _ => hmaps j
  have hcycle (i j : Nat) (hij : i < j) (hj : j ≤ path.length) (he : origin i = origin j) : False := by
    refine hb ⟨origin i, (path.take j).drop i, hplaced i, ?_, ?_⟩
    · refine List.ne_nil_of_length_pos ?_
      rw [List.length_drop, List.length_take]
      omega
    · have hsplit : path.take j = path.take i ++ (path.take j).drop i := by
        have htake := List.take_append_drop i (path.take j)
        rw [List.take_take, Nat.min_eq_left (Nat.le_of_lt hij)] at htake
        exact htake.symm
      have hlong := hcongruent j
      rw [hsplit, ← he] at hlong
      exact hlong.trans ((hcongruent i).append _).symm
  rw [Finset.mem_range] at hi hj
  rcases Nat.lt_or_gt_of_ne hne with hij | hij
  · exact hcycle i j hij (by omega) he
  · exact hcycle j i hij (by omega) he.symm

end Copies

end Branch

end TreeSearch
