import TreeSearch.Proofs.Branch.Levelling
import TreeSearch.Proofs.Tree.Measures

namespace TreeSearch

-- What some equalities force: the least equivalence that holds of them and goes down from parents
-- to children.
inductive Congruent (R : Path → Path → Prop) : Path → Path → Prop
  | joined {x y : Path} (h : R x y) : Congruent R x y
  | child {x y : Path} (i : Int) (h : Congruent R x y) : Congruent R (x ++ [i]) (y ++ [i])
  | refl (x : Path) : Congruent R x x
  | symm {x y : Path} (h : Congruent R x y) : Congruent R y x
  | trans {x y z : Path} (h : Congruent R x y) (h' : Congruent R y z) : Congruent R x z

namespace Congruent

variable {R : Path → Path → Prop} {x y : Path}

theorem append (h : Congruent R x y) (rest : Path) : Congruent R (x ++ rest) (y ++ rest) := by
  induction rest generalizing x y with
  | nil => simpa using h
  | cons i rest ih =>
      rw [List.append_cons x, List.append_cons y]
      exact ih (h.child i)

-- A tree in which the equalities hold has equal subtrees wherever they force it.
theorem get?_eq {t : Tree} (ht : ∀ x y, R x y → t.get? x = t.get? y) (h : Congruent R x y) :
    t.get? x = t.get? y := by
  induction h with
  | joined h => exact ht _ _ h
  | child i _ ih => rw [Tree.get?_append, Tree.get?_append, ih]
  | refl x => rfl
  | symm _ ih => exact ih.symm
  | trans _ _ ih ih' => exact ih.trans ih'

end Congruent

namespace Branch

variable {p : Problem} {b c : Branch} {first second : Path}

-- The equalities of a branch, and one more.
def Equated (b : Branch) (first second x y : Path) : Prop :=
  b.classes.same x y = true ∨ x = first ∧ y = second

-- Some position is forced to be equal to a part of itself.
def Cyclic (b : Branch) (first second : Path) : Prop :=
  ∃ path rest, (∃ s, b.tree.get? path = some s) ∧ rest ≠ [] ∧
    Congruent (b.Equated first second) path (path ++ rest)

theorem not_cyclic_of_get?_eq {t : Tree} (hr : t.Refines b.tree)
    (ht : ∀ x y, b.Equated first second x y → t.get? x = t.get? y) : ¬ b.Cyclic first second := by
  rintro ⟨path, rest, ⟨s, hs⟩, hne, hforced⟩
  obtain ⟨v, hv, -⟩ := hr.get? hs
  have hself := (hforced.get?_eq ht).symm.trans hv
  rw [Tree.get?_append_of_get? hv] at hself
  -- a subtree is larger than its parts
  have := Tree.size_le_of_get? hself
  have := List.length_pos_of_ne_nil hne
  omega

-- When no class is excused, united positions have equal subtrees.
theorem Balanced.get?_eq (hb : b.Balanced p ∅) (hf : b.feasible = true) {path other : Path}
    (hm : other ∈ b.classes.members path) : b.tree.get? path = b.tree.get? other := by
  have hlevel (k : List Path) (hk : k ∈ b.classes.classes) : b.Level k :=
    (hb.level hf k hk).resolve_right (Set.notMem_empty _)
  cases hp : b.tree.get? path with
  | some s => exact (get?_eq_of_level hb.intact hlevel hm hp).symm
  | none =>
      cases ho : b.tree.get? other with
      | none => rfl
      | some s =>
          have hm' : path ∈ b.classes.members other := by
            rw [hb.intact.classes.members_of_mem hm]
            exact b.classes.mem_members_self path
          have hp' := get?_eq_of_level hb.intact hlevel hm' ho
          exact absurd (hp.symm.trans hp') nofun

-- A branch that has taken up an equality and is still feasible shows that there is no cycle.
theorem Balanced.not_cyclic (hb : b.Intact p) (hg : b.Grows c) (hc : c.Balanced p ∅)
    (hf : c.feasible = true) (hm : second ∈ c.classes.members first) : ¬ b.Cyclic first second := by
  refine not_cyclic_of_get?_eq hg.refines ?_
  rintro x y (hsame | ⟨rfl, rfl⟩)
  · exact hc.get?_eq hf (hg.members x y (hb.classes.same_iff.mp hsame))
  · exact hc.get?_eq hf hm

end Branch

end TreeSearch
