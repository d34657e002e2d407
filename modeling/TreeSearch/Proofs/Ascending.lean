import Mathlib.Data.List.Induction
import Mathlib.Order.Bounds.Basic

namespace List

variable {α : Type} [PartialOrder α] {l : List α} {a : α}

theorem head?_eq_some_iff_isLeast (h : l.Pairwise (· < ·)) :
    l.head? = some a ↔ IsLeast {b | b ∈ l} a := by
  cases l with
  | nil => simp [IsLeast]
  | cons first rest =>
      have hfirst : IsLeast {b | b ∈ first :: rest} first := by
        refine ⟨mem_cons_self, ?_⟩
        rintro b (_ | ⟨_, hb⟩)
        · exact le_refl first
        · exact le_of_lt (rel_of_pairwise_cons h hb)
      rw [head?_cons, Option.some.injEq]
      constructor
      · rintro rfl
        exact hfirst
      · exact hfirst.unique

theorem getLast?_eq_some_iff_isGreatest (h : l.Pairwise (· < ·)) :
    l.getLast? = some a ↔ IsGreatest {b | b ∈ l} a := by
  induction l using reverseRecOn with
  | nil => simp [IsGreatest]
  | append_singleton front last _ =>
      have hlast : IsGreatest {b | b ∈ front ++ [last]} last := by
        refine ⟨mem_append_right front (mem_singleton_self last), ?_⟩
        intro b hb
        obtain hb | hb := mem_append.mp hb
        · exact le_of_lt ((pairwise_append.mp h).2.2 b hb last (mem_singleton_self last))
        · exact le_of_eq (mem_singleton.mp hb)
      rw [getLast?_concat, Option.some.injEq]
      constructor
      · rintro rfl
        exact hlast
      · exact hlast.unique

end List
