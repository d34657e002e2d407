import Mathlib.Algebra.Order.BigOperators.Group.List
import Mathlib.Algebra.Order.Ring.Nat
import Mathlib.Data.List.Nodup
import TreeSearch.Proofs.Tree.Refinement

namespace TreeSearch.Tree

-- The parts of a tree in the order of its positions.
def subtrees (t : Tree) : List Tree := (t.positions []).map Prod.snd

theorem map_snd_positions (t : Tree) (base : Path) :
    (t.positions base).map Prod.snd = t.subtrees := by
  suffices h : ∀ (t : Tree) (base other : Path),
      (t.positions base).map Prod.snd = (t.positions other).map Prod.snd from h t base []
  intro t
  induction t using Tree.induction with
  | node r cs ih =>
      intro base other
      simp only [positions, List.map_cons, List.cons.injEq, true_and]
      suffices hb : ∀ (index : Nat), (positionsBelow base index cs).map Prod.snd =
          (positionsBelow other index cs).map Prod.snd from hb 0
      induction cs with
      | nil => simp [positionsBelow]
      | cons c cs ihc =>
          intro index
          simp only [positionsBelow, List.map_append]
          rw [ih c List.mem_cons_self _ (other ++ [(index : Int)]),
            ihc (fun d hd => ih d (List.mem_cons_of_mem c hd)) (index + 1)]
  | hole => simp [positions]
  | choice => simp [positions]
  | var => simp [positions]

theorem subtrees_node (r : Int) (cs : List Tree) :
    (node r cs).subtrees = node r cs :: cs.flatMap subtrees := by
  have hb (base : Path) (index : Nat) (cs : List Tree) :
      (positionsBelow base index cs).map Prod.snd = cs.flatMap subtrees := by
    induction cs generalizing index with
    | nil => simp [positionsBelow]
    | cons c cs ih => simp [positionsBelow, map_snd_positions, ih]
  rw [subtrees, positions, List.map_cons, hb]

@[simp]
theorem subtrees_hole (category : String) (d : Domain) :
    (hole category d).subtrees = [hole category d] := by
  simp [subtrees, positions]

section Size

theorem size_eq (t : Tree) : t.size = t.subtrees.length := by
  simp [size, subtrees]

theorem size_node (r : Int) (cs : List Tree) : (node r cs).size = (cs.map size).sum + 1 := by
  rw [size_eq, subtrees_node, List.length_cons, List.length_flatMap]
  simp only [← size_eq]

@[simp]
theorem size_hole (category : String) (d : Domain) : (hole category d).size = 1 := by
  simp [size_eq]

theorem size_pos (t : Tree) : 0 < t.size := by
  cases t <;> simp [size, positions]

theorem size_child_lt {r : Int} {cs : List Tree} {c : Tree} (h : c ∈ cs) :
    c.size < (node r cs).size := by
  rw [size_node]
  have := List.le_sum_of_mem (List.mem_map_of_mem (f := size) h)
  omega

theorem size_le_of_get? {t s : Tree} {path : Path} (h : t.get? path = some s) :
    s.size + path.length ≤ t.size := by
  induction path generalizing t with
  | nil =>
      obtain rfl : t = s := by simpa using h
      simp
  | cons i path ih =>
      rw [get?_cons] at h
      obtain ⟨c, hi, hc⟩ := Option.bind_eq_some_iff.mp h
      obtain ⟨n, rfl, hn⟩ := child?_eq_some.mp hi
      cases t with
      | node r cs =>
          rw [children] at hn
          have hlt := size_child_lt (r := r) (List.mem_of_getElem? hn)
          have hle := ih hc
          rw [List.length_cons]
          omega
      | hole => simp [children] at hn
      | choice => simp [children] at hn
      | var => simp [children] at hn

end Size

section Depth

theorem depth_pos (t : Tree) : 0 < t.depth := by
  cases t <;> simp [depth]

theorem depth_le_depthBelow {c : Tree} {cs : List Tree} (h : c ∈ cs) :
    c.depth ≤ depthBelow cs := by
  induction cs with
  | nil => cases h
  | cons d cs ih =>
      rw [depthBelow]
      cases h with
      | head => exact Nat.le_max_left _ _
      | tail _ h => exact Nat.le_trans (ih h) (Nat.le_max_right _ _)

theorem depthBelow_le {cs : List Tree} {n : Nat} (h : ∀ c ∈ cs, c.depth ≤ n) :
    depthBelow cs ≤ n := by
  induction cs with
  | nil => simp [depthBelow]
  | cons c cs ih =>
      rw [depthBelow]
      exact Nat.max_le.mpr ⟨h c List.mem_cons_self, ih fun d hd => h d (List.mem_cons_of_mem c hd)⟩

theorem depth_child_lt {r : Int} {cs : List Tree} {c : Tree} (h : c ∈ cs) :
    c.depth < (node r cs).depth := by
  have := depth_le_depthBelow h
  rw [depth]
  omega

-- Every level has a node.
theorem depth_le_size (t : Tree) : t.depth ≤ t.size := by
  induction t using Tree.induction with
  | node r cs ih =>
      rw [depth, size_node]
      refine Nat.succ_le_succ (depthBelow_le fun c hc => ?_)
      exact Nat.le_trans (ih c hc) (List.single_le_sum (fun _ _ => Nat.zero_le _) _ (List.mem_map_of_mem hc))
  | hole category d => exact size_pos _
  | choice d cs => exact size_pos _
  | var name => exact size_pos _

theorem depth_le_of_get? {t s : Tree} {path : Path} (h : t.get? path = some s) :
    path.length + s.depth ≤ t.depth := by
  induction path generalizing t with
  | nil =>
      obtain rfl : t = s := by simpa using h
      simp
  | cons i path ih =>
      rw [get?_cons] at h
      obtain ⟨c, hi, hc⟩ := Option.bind_eq_some_iff.mp h
      obtain ⟨n, rfl, hn⟩ := child?_eq_some.mp hi
      cases t with
      | node r cs =>
          rw [children] at hn
          have hlt := depth_child_lt (r := r) (List.mem_of_getElem? hn)
          have hle := ih hc
          rw [List.length_cons]
          omega
      | hole => simp [children] at hn
      | choice => simp [children] at hn
      | var => simp [children] at hn

-- A tree is as deep as its longest path.
theorem depth_le_iff {t : Tree} {n : Nat} :
    t.depth ≤ n ↔ ∀ (path : Path) (s : Tree), t.get? path = some s → path.length < n := by
  constructor
  · intro h path s hs
    have := depth_le_of_get? hs
    have := s.depth_pos
    omega
  · intro h
    induction t using Tree.induction generalizing n with
    | node r cs ih =>
        have h0 := h [] _ (get?_nil _)
        rw [depth]
        suffices depthBelow cs ≤ n - 1 by
          rw [List.length_nil] at h0
          omega
        refine depthBelow_le fun c hc => ih c hc fun path s hs => ?_
        obtain ⟨k, hk⟩ := List.mem_iff_getElem?.mp hc
        have := h ((k : Int) :: path) s (by simp [get?_cons, hk, hs])
        rw [List.length_cons] at this
        omega
    | hole =>
        have h0 := h [] _ (get?_nil _)
        simpa [depth, Nat.one_le_iff_ne_zero, Nat.pos_iff_ne_zero] using h0
    | choice =>
        have h0 := h [] _ (get?_nil _)
        simpa [depth, Nat.one_le_iff_ne_zero, Nat.pos_iff_ne_zero] using h0
    | var =>
        have h0 := h [] _ (get?_nil _)
        simpa [depth, Nat.one_le_iff_ne_zero, Nat.pos_iff_ne_zero] using h0

theorem Refines.depth_le {s t : Tree} (h : s.Refines t) : t.depth ≤ s.depth := by
  refine depth_le_iff.mpr fun path u hu => ?_
  obtain ⟨v, hv, -⟩ := h.get? hu
  exact depth_le_iff.mp (Nat.le_refl _) path v hv

end Depth

section Order

-- A position comes before those below it, and all below a child before those below the next.
theorem positionsBelow_sorted {cs : List Tree}
    (ih : ∀ c ∈ cs, ∀ base : Path, (c.positions base).Pairwise fun x y => x.1 < y.1)
    (base : Path) (index : Nat) :
    (positionsBelow base index cs).Pairwise fun x y => x.1 < y.1 := by
  induction cs generalizing index with
  | nil => exact .nil
  | cons c cs ihc =>
      rw [positionsBelow, List.pairwise_append]
      refine ⟨ih c List.mem_cons_self _,
        ihc (fun d hd => ih d (List.mem_cons_of_mem c hd)) _, ?_⟩
      rintro ⟨path, s⟩ hc ⟨path', s'⟩ hcs
      obtain ⟨rest, rfl, -⟩ := (mem_positions c _ path s).mp hc
      obtain ⟨n, d, rest', -, rfl, -⟩ := (mem_positionsBelow cs
        (fun c _ base path s => mem_positions c base path s) base path' (index + 1) s').mp hcs
      rw [List.append_assoc]
      apply List.append_left_lt
      apply List.Lex.rel
      omega

theorem positions_sorted (t : Tree) (base : Path) :
    (t.positions base).Pairwise fun x y => x.1 < y.1 := by
  induction t using Tree.induction generalizing base with
  | node r cs ih =>
      rw [positions, List.pairwise_cons]
      refine ⟨?_, positionsBelow_sorted ih base 0⟩
      rintro ⟨path, s⟩ hm
      obtain ⟨n, c, rest, -, rfl, -⟩ := (mem_positionsBelow cs
        (fun c _ base path s => mem_positions c base path s) base path 0 s).mp hm
      simpa using List.append_left_lt (List.nil_lt_cons ((0 + n : Nat) : Int) rest)
  | hole => exact List.pairwise_singleton _ _
  | choice => exact List.pairwise_singleton _ _
  | var => exact List.pairwise_singleton _ _

-- No position is listed twice.
theorem nodup_positions (t : Tree) (base : Path) : (t.positions base).Nodup := by
  apply (t.positions_sorted base).imp
  rintro x y hlt rfl
  exact List.lt_irrefl x.1 hlt

end Order

section Locating

-- Every position of a finer tree is one of the coarser tree, or lies below an open one.
theorem Refines.locate {s t u : Tree} {path : Path} (h : s.Refines t) (hs : s.get? path = some u) :
    (∃ v, t.get? path = some v ∧ u.Refines v) ∨
      ∃ (above rest : Path) (category : String) (d : Domain), path = above ++ rest ∧ rest ≠ [] ∧
        t.get? above = some (hole category d) := by
  induction path generalizing s t with
  | nil =>
      obtain rfl : s = u := by simpa using hs
      exact Or.inl ⟨t, by simp, h⟩
  | cons i path ih =>
      cases t with
      | node r cs =>
          obtain ⟨ds, rfl, hlen, hds⟩ := refines_node_iff.mp h
          rw [get?_cons] at hs
          obtain ⟨d, hi, hd⟩ := Option.bind_eq_some_iff.mp hs
          obtain ⟨n, rfl, hn⟩ := child?_eq_some.mp hi
          rw [children] at hn
          obtain ⟨c, hc⟩ : ∃ c, cs[n]? = some c := by
            have hlt : n < ds.length := (List.getElem?_eq_some_iff.mp hn).1
            exact ⟨_, List.getElem?_eq_getElem (hlen ▸ hlt)⟩
          rcases ih (hds n d c hn hc) hd with ⟨v, hv, hr⟩ | ⟨above, rest, category, e, rfl, hne, hh⟩
          · exact Or.inl ⟨v, by simp [get?_cons, hc, hv], hr⟩
          · exact Or.inr ⟨(n : Int) :: above, rest, category, e, rfl, hne,
              by simp [get?_cons, hc, hh]⟩
      | hole category d => exact Or.inr ⟨[], i :: path, category, d, rfl, by simp, by simp⟩
      | choice =>
          cases h
          simp [get?_cons, child?, children] at hs
      | var =>
          cases h
          simp [get?_cons, child?, children] at hs

end Locating

end TreeSearch.Tree
