import Mathlib.Data.List.Basic
import TreeSearch.Tree.Refines

namespace TreeSearch.Tree

theorem child?_eq_some {t : Tree} {i : Int} {c : Tree} :
    t.child? i = some c ↔ ∃ n : Nat, i = n ∧ t.children[n]? = some c := by
  unfold child?
  constructor
  · intro h
    split at h
    · exact ⟨i.toNat, by omega, h⟩
    · cases h
  · rintro ⟨n, rfl, h⟩
    simpa using h

@[simp]
theorem child?_node (r : Int) (cs : List Tree) (n : Nat) : (node r cs).child? n = cs[n]? := by
  simp [child?, children]

theorem child?_set_ne {r : Int} {cs : List Tree} {n : Nat} {d : Tree} {i : Int} (h : i ≠ n) :
    (node r (cs.set n d)).child? i = (node r cs).child? i := by
  unfold child?
  split
  · simp only [children]
    rw [List.getElem?_set_ne]
    omega
  · rfl

@[simp]
theorem child?_hole (category : String) (d : Domain) (i : Int) : (hole category d).child? i = none := by
  simp [child?, children]

@[simp]
theorem get?_nil (t : Tree) : t.get? [] = some t := by
  cases t <;> rfl

theorem get?_cons (t : Tree) (i : Int) (path : Path) :
    t.get? (i :: path) = (t.child? i).bind (·.get? path) := by
  rw [get?]
  cases t.child? i <;> rfl

theorem get?_append (t : Tree) (path rest : Path) :
    t.get? (path ++ rest) = (t.get? path).bind (·.get? rest) := by
  induction path generalizing t with
  | nil => simp
  | cons i path ih =>
      rw [List.cons_append, get?_cons, get?_cons]
      cases t.child? i with
      | none => rfl
      | some c => exact ih c

theorem get?_append_of_get? {t s : Tree} {path : Path} (h : t.get? path = some s) (rest : Path) :
    t.get? (path ++ rest) = s.get? rest := by
  rw [get?_append, h, Option.bind_some]

theorem get?_hole_eq_some {category : String} {d : Domain} {path : Path} {s : Tree}
    (h : (hole category d).get? path = some s) : path = [] ∧ s = hole category d := by
  cases path with
  | nil => exact ⟨rfl, (Option.some.inj (by simpa using h)).symm⟩
  | cons i path => simp [get?_cons] at h

theorem get?_below {t : Tree} {path : Path} {r : Int} {cs : List Tree}
    (h : t.get? path = some (node r cs)) (n : Nat) : t.get? (path ++ [(n : Int)]) = cs[n]? := by
  simp [get?_append_of_get? h, get?_cons]

-- A child of a node that is in the tree is in the tree too.
theorem get?_child {t : Tree} {path : Path} {r : Int} {cs : List Tree} {n : Nat} {c : Tree}
    (h : t.get? path = some (node r cs)) (hc : cs[n]? = some c) :
    t.get? (path ++ [(n : Int)]) = some c := by
  rw [get?_below h, hc]

-- Whatever is on the way to a position is a node.
theorem get?_of_append {t s : Tree} {path rest : Path} (h : t.get? (path ++ rest) = some s) :
    ∃ u, t.get? path = some u ∧ u.get? rest = some s := by
  rw [get?_append] at h
  exact Option.bind_eq_some_iff.mp h

theorem get_eq_ok {t s : Tree} {path : Path} (h : t.get? path = some s) : t.get path = .ok s := by
  simp [get, h]

theorem get_eq_ok_iff {t s : Tree} {path : Path} : t.get path = .ok s ↔ t.get? path = some s := by
  unfold get
  cases t.get? path <;> simp

section Positions

theorem mem_positionsBelow (children : List Tree)
    (ih : ∀ c ∈ children, ∀ (base path : Path) (s : Tree),
      (path, s) ∈ c.positions base ↔ ∃ rest, path = base ++ rest ∧ c.get? rest = some s)
    (base path : Path) (index : Nat) (s : Tree) :
    (path, s) ∈ positionsBelow base index children ↔
      ∃ (n : Nat) (c : Tree) (rest : Path), children[n]? = some c ∧
        path = base ++ ((index + n : Nat) : Int) :: rest ∧ c.get? rest = some s := by
  induction children generalizing index with
  | nil => simp [positionsBelow]
  | cons c children ihc =>
      rw [positionsBelow, List.mem_append, ih c List.mem_cons_self,
        ihc fun d hd => ih d (List.mem_cons_of_mem c hd)]
      constructor
      · rintro (⟨rest, rfl, hs⟩ | ⟨n, d, rest, hd, rfl, hs⟩)
        · exact ⟨0, c, rest, by simp, by simp, hs⟩
        · refine ⟨n + 1, d, rest, by simpa using hd, ?_, hs⟩
          rw [show index + 1 + n = index + (n + 1) by omega]
      · rintro ⟨n, d, rest, hd, rfl, hs⟩
        cases n with
        | zero =>
            obtain rfl : c = d := by simpa using hd
            exact Or.inl ⟨rest, by simp, hs⟩
        | succ n =>
            refine Or.inr ⟨n, d, rest, by simpa using hd, ?_, hs⟩
            rw [show index + 1 + n = index + (n + 1) by omega]

-- Where nothing is below, the only position is the tree itself.
theorem mem_positions_leaf {t : Tree} (hleaf : ∀ i, t.child? i = none) (base path : Path) (s : Tree) :
    (path, s) ∈ [(base, t)] ↔ ∃ rest, path = base ++ rest ∧ t.get? rest = some s := by
  rw [List.mem_singleton, Prod.mk.injEq]
  constructor
  · rintro ⟨rfl, rfl⟩
    exact ⟨[], by simp, by simp⟩
  · rintro ⟨rest, rfl, hs⟩
    cases rest with
    | nil => simpa using hs.symm
    | cons i rest => simp [get?_cons, hleaf] at hs

-- The positions are listed where they can be read.
theorem mem_positions (t : Tree) (base path : Path) (s : Tree) :
    (path, s) ∈ t.positions base ↔ ∃ rest, path = base ++ rest ∧ t.get? rest = some s := by
  induction t using Tree.induction generalizing base path s with
  | node r cs ih =>
      rw [positions, List.mem_cons, mem_positionsBelow cs ih]
      constructor
      · rintro (h | ⟨n, c, rest, hc, rfl, hs⟩)
        · obtain ⟨rfl, rfl⟩ := Prod.mk.inj h
          exact ⟨[], by simp, by simp⟩
        · refine ⟨((n : Nat) : Int) :: rest, by simp, ?_⟩
          simpa [get?_cons, hc] using hs
      · rintro ⟨rest, rfl, hs⟩
        cases rest with
        | nil => exact Or.inl (by simpa using hs.symm)
        | cons i rest =>
            rw [get?_cons] at hs
            obtain ⟨c, hi, hc⟩ := Option.bind_eq_some_iff.mp hs
            obtain ⟨n, rfl, hn⟩ := child?_eq_some.mp hi
            exact Or.inr ⟨n, c, rest, hn, by simp, hc⟩
  | hole => exact mem_positions_leaf (fun i => child?_hole _ _ i) base path s
  | choice => exact mem_positions_leaf (fun i => by simp [child?, children]) base path s
  | var => exact mem_positions_leaf (fun i => by simp [child?, children]) base path s

theorem mem_positions_nil (t : Tree) (path : Path) (s : Tree) :
    (path, s) ∈ t.positions [] ↔ t.get? path = some s := by
  simp [mem_positions]

-- What a listing of positions keeps of them when only the holes are asked for.
def holeAt? : Path × Tree → Option (Path × String × Domain)
  | (path, .hole category d) => some (path, category, d)
  | _ => none

theorem holes_eq (t : Tree) : t.holes = (t.positions []).filterMap holeAt? := by
  unfold holes
  congr 1
  funext ⟨path, s⟩
  cases s <;> rfl

theorem mem_holes (t : Tree) (path : Path) (category : String) (d : Domain) :
    (path, category, d) ∈ t.holes ↔ t.get? path = some (hole category d) := by
  rw [← mem_positions_nil, holes, List.mem_filterMap]
  constructor
  · rintro ⟨⟨q, s⟩, hm, hs⟩
    cases s with
    | hole c e =>
        obtain ⟨rfl, rfl, rfl⟩ : q = path ∧ c = category ∧ e = d := by simpa using hs
        exact hm
    | node => simp at hs
    | choice => simp at hs
    | var => simp at hs
  · intro h
    exact ⟨_, h, rfl⟩

end Positions

end TreeSearch.Tree
