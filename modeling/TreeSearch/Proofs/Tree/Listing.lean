import Mathlib.Data.List.Lex
import Mathlib.Data.Set.Card
import TreeSearch.Proofs.Ascending
import TreeSearch.Proofs.Tree.Measures
import TreeSearch.Tree.Walk

namespace TreeSearch.Tree

section Walk

-- Children are visited one after the other, each with all that is below it, and whatever is
-- behind them waits.
theorem walkPending_push {cs : List Tree}
    (ih : ∀ c ∈ cs, ∀ (path : Path) (pending : List (Path × Tree)),
      walkPending ((path, c) :: pending) = c.positions path ++ walkPending pending)
    (path : Path) (index : Nat) (pending : List (Path × Tree)) :
    walkPending (push path index pending cs) =
      positionsBelow path index cs ++ walkPending pending := by
  induction cs generalizing index with
  | nil => rfl
  | cons c cs ihc =>
      rw [push, ih c List.mem_cons_self, ihc fun d hd => ih d (List.mem_cons_of_mem c hd),
        positionsBelow, List.append_assoc]

-- By induction on the tree: its children are in front of what was behind it.
theorem walkPending_cons (t : Tree) (path : Path) (pending : List (Path × Tree)) :
    walkPending ((path, t) :: pending) = t.positions path ++ walkPending pending := by
  induction t using Tree.induction generalizing path pending with
  | node r cs ih =>
      rw [walkPending, children, walkPending_push ih, positions, List.cons_append]
  | hole => rw [walkPending]; rfl
  | choice => rw [walkPending]; rfl
  | var => rw [walkPending]; rfl

theorem walk_eq (t : Tree) (path : Path) : t.walk path = t.positions path := by
  rw [walk, walkPending_cons, walkPending, List.append_nil]

end Walk

section Order

-- A listing from another place is the same listing with longer paths.
theorem positionsBelow_append {cs : List Tree}
    (ih : ∀ c ∈ cs, ∀ base path : Path,
      c.positions (base ++ path) = (c.positions path).map fun (rest, s) => (base ++ rest, s))
    (base path : Path) (index : Nat) :
    positionsBelow (base ++ path) index cs =
      (positionsBelow path index cs).map fun (rest, s) => (base ++ rest, s) := by
  induction cs generalizing index with
  | nil => rfl
  | cons c cs ihc =>
      rw [positionsBelow, positionsBelow, List.append_assoc, ih c List.mem_cons_self,
        ihc fun d hd => ih d (List.mem_cons_of_mem c hd), List.map_append]

theorem positions_append (t : Tree) (base path : Path) :
    t.positions (base ++ path) = (t.positions path).map fun (rest, s) => (base ++ rest, s) := by
  induction t using Tree.induction generalizing base path with
  | node r cs ih => rw [positions, positions, List.map_cons, positionsBelow_append ih]
  | hole => rfl
  | choice => rfl
  | var => rfl

theorem fst_of_holeAt? {position : Path × Tree} {found : Path × String × Domain}
    (h : holeAt? position = some found) : found.1 = position.1 := by
  obtain ⟨path, s⟩ := position
  cases s with
  | hole =>
      cases h
      rfl
  | node => cases h
  | choice => cases h
  | var => cases h

theorem holes_sorted (t : Tree) : (t.holes.map (·.1)).Pairwise (· < ·) := by
  rw [holes_eq, List.pairwise_map, List.pairwise_filterMap]
  apply (t.positions_sorted []).imp
  intro x y hlt found hfound found' hfound'
  rw [fst_of_holeAt? hfound, fst_of_holeAt? hfound']
  exact hlt

end Order

section Paths

-- The paths at which a tree can be read, and those of them that lead to a hole.
def paths (t : Tree) : Set Path := {path | ∃ s, t.get path = .ok s}

def holePaths (t : Tree) : Set Path := {path | ∃ category d, t.get path = .ok (hole category d)}

theorem mem_paths_iff {t : Tree} {path : Path} :
    path ∈ t.paths ↔ path ∈ (t.positions []).map Prod.fst := by
  simp [paths, get_eq_ok_iff, mem_positions_nil]

theorem mem_holePaths_iff {t : Tree} {path : Path} :
    path ∈ t.holePaths ↔ path ∈ t.holes.map (·.1) := by
  simp [holePaths, get_eq_ok_iff, mem_holes]

theorem encard_paths (t : Tree) : t.paths.encard = t.size := by
  have hnodup : ((t.positions []).map Prod.fst).Nodup :=
    (List.pairwise_map.mpr (t.positions_sorted [])).imp ne_of_lt
  have hpaths : t.paths = ((t.positions []).map Prod.fst).toFinset := by
    ext path
    simpa using mem_paths_iff
  rw [hpaths, Set.encard_coe_eq_coe_finsetCard, List.toFinset_card_of_nodup hnodup,
    List.length_map, size]

theorem isGreatest_depth (t : Tree) :
    IsGreatest ((fun path : Path => path.length + 1) '' t.paths) t.depth := by
  constructor
  · -- with every path shorter than that the tree would be less deep than it is
    by_contra hnone
    have hle : t.depth ≤ t.depth - 1 := by
      apply depth_le_iff.mpr
      intro path s hs
      have hlt := depth_le_iff.mp (Nat.le_refl t.depth) path s hs
      have hne : path.length + 1 ≠ t.depth := fun he =>
        hnone ⟨path, ⟨s, get_eq_ok hs⟩, he⟩
      omega
    have := t.depth_pos
    omega
  · rintro n ⟨path, ⟨s, hs⟩, rfl⟩
    exact depth_le_iff.mp (Nat.le_refl t.depth) path s (get_eq_ok_iff.mp hs)

theorem firstHole?_eq_some_iff (t : Tree) (path : Path) :
    t.firstHole? = some path ↔ IsLeast t.holePaths path := by
  have hholes : t.holePaths = {q | q ∈ t.holes.map (·.1)} := by
    ext q
    exact mem_holePaths_iff
  rw [hholes, ← List.head?_eq_some_iff_isLeast t.holes_sorted, firstHole?, List.head?_map]

theorem isComplete_iff_holePaths (t : Tree) : t.isComplete = true ↔ t.holePaths = ∅ := by
  rw [isComplete, List.isEmpty_iff, Set.eq_empty_iff_forall_notMem]
  simp only [mem_holePaths_iff]
  rw [← List.eq_nil_iff_forall_not_mem, List.map_eq_nil_iff]

end Paths

-- The walk comes by each path at which the tree can be read, from the least of them upwards, with
-- what stands there. So the size is the number of those paths, the depth is one more than the
-- length of the longest, and the first hole is at the least path to a hole.
theorem walk_exact (t : Tree) (base : Path) :
    (∃ found : List (Path × Tree),
      t.walk base = found.map (fun (path, s) => (base ++ path, s)) ∧
      found.Pairwise (fun x y => x.1 < y.1) ∧
      ∀ path s, (path, s) ∈ found ↔ t.get path = .ok s) ∧
    t.walk base = t.positions base ∧
    (t.size = (t.walk base).length ∧ t.paths.encard = t.size) ∧
    IsGreatest ((fun path : Path => path.length + 1) '' t.paths) t.depth ∧
    t.holes = (t.walk []).filterMap holeAt? ∧
    (∀ path, t.firstHole? = some path ↔ IsLeast t.holePaths path) ∧
    (t.isComplete = true ↔ t.holePaths = ∅) := by
  refine ⟨⟨t.positions [], ?_, t.positions_sorted [], ?_⟩, t.walk_eq base, ⟨?_, t.encard_paths⟩,
    t.isGreatest_depth, ?_, t.firstHole?_eq_some_iff, t.isComplete_iff_holePaths⟩
  · rw [walk_eq, ← positions_append, List.append_nil]
  · intro path s
    rw [mem_positions_nil, get_eq_ok_iff]
  · have hbase := t.positions_append base []
    rw [walk_eq, size, ← List.append_nil base, hbase, List.length_map]
  · rw [walk_eq, holes_eq]

end TreeSearch.Tree
