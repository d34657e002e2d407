import TreeSearch.Proofs.Grammar.Trees

namespace TreeSearch.Grammar

variable {g : Grammar} {expected : Option String} {category : String} {t s : Tree}

-- The category of the root of a tree.
def categoryOf (g : Grammar) : Tree → Option String
  | .hole category _ => some category
  | .node r _ => (g.rule? r).map (·.category)
  | _ => none

-- The category that a position requires: at the root the given one, and elsewhere the one that
-- the rule above it names.
def required (g : Grammar) (category : String) (t : Tree) : Path → Option String
  | [] => some category
  | i :: path => match t with
    | .node r _ => do
        let rule ← g.rule? r
        let below ← rule.children[i.toNat]?
        let c ← t.child? i
        g.required below c path
    | _ => none

section Root

theorem WellFormed.categoryOf (h : g.WellFormed none t) : ∃ category, g.categoryOf t = some category := by
  cases h with
  | hole => exact ⟨_, rfl⟩
  | node found => exact ⟨_, by rw [Grammar.categoryOf, found]; rfl⟩

theorem WellFormed.of_categoryOf (h : g.WellFormed none t) (hc : g.categoryOf t = some category) :
    g.WellFormed (some category) t := by
  cases h with
  | hole known _ live =>
      cases hc
      exact .hole known (by simp) live
  | node found live _ arity below =>
      rw [Grammar.categoryOf, found] at hc
      cases hc
      exact .node found live (by simp) arity below

-- Narrowing or filling a position does not change its category.
theorem WellFormed.categoryOf_of_refines (h : g.WellFormed none t) (hr : s.Refines t) :
    g.categoryOf s = g.categoryOf t := by
  cases hr with
  | narrowed => rfl
  | node => rfl
  | filled hm =>
      obtain ⟨rule, hrule, -, hcategory⟩ := (wellFormed_hole_iff.mp h).2.2 _ hm
      show (g.rule? _).map Rule.category = some _
      rw [hrule]
      exact congrArg some hcategory
  | choice => cases h
  | var => cases h

-- So a finer tree stands wherever the coarser one does.
theorem WellFormed.of_refines (h : g.WellFormed expected t) (hs : g.WellFormed none s)
    (hr : s.Refines t) : g.WellFormed expected s := by
  cases expected with
  | none => exact hs
  | some category =>
      refine hs.of_categoryOf ((h.anyCategory.categoryOf_of_refines hr).trans ?_)
      cases h with
      | hole _ fits => exact congrArg some (fits category rfl)
      | node found _ fits =>
          rw [Grammar.categoryOf, found]
          exact congrArg some (fits category rfl)

end Root

section Required

-- Every position of a tree that respects the grammar stands in the category it requires.
theorem WellFormed.required {path : Path} (h : g.WellFormed (some category) t)
    (hs : t.get? path = some s) :
    ∃ below, g.required category t path = some below ∧ g.WellFormed (some below) s := by
  induction path generalizing t category with
  | nil =>
      obtain rfl : t = s := by simpa using hs
      exact ⟨category, rfl, h⟩
  | cons i path ih =>
      rw [Tree.get?_cons] at hs
      obtain ⟨c, hi, hc⟩ := Option.bind_eq_some_iff.mp hs
      obtain ⟨n, rfl, hn⟩ := Tree.child?_eq_some.mp hi
      cases h with
      | hole => simp [Tree.children] at hn
      | node found live fits arity below =>
          have hlt : n < _ := arity ▸ (List.getElem?_eq_some_iff.mp hn).1
          have hcategory := List.getElem?_eq_getElem hlt
          obtain ⟨required, hrequired, hw⟩ := ih (below n _ c hcategory hn) hc
          refine ⟨required, ?_, hw⟩
          simp [Grammar.required, found, hlt, hi, hrequired]

end Required

end TreeSearch.Grammar
