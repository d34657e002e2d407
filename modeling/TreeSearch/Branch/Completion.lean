import TreeSearch.Branch.Basic
import TreeSearch.Constraint.Holds
import TreeSearch.Grammar.WellFormed

namespace TreeSearch

def Bounds.Admits (bounds : Bounds) (t : Tree) : Prop :=
  (∀ n ∈ bounds.maxDepth, t.depth ≤ n) ∧ ∀ n ∈ bounds.maxSize, t.size ≤ n

-- A complete tree that the branch can still become, within the limits and under all
-- constraints of the grammar. A failed branch has none.
def Problem.Admissible (p : Problem) (b : Branch) (t : Tree) : Prop :=
  b.feasible = true ∧ p.grammar.WellFormed none t ∧ t.Complete ∧ t.Refines b.tree ∧
    p.bounds.Admits t ∧ ∀ c ∈ p.grammar.constraints, c.Holds t

-- A complete tree of a category within the limits and under all constraints.
def Problem.Solution (p : Problem) (category : String) (t : Tree) : Prop :=
  p.grammar.Derives category t ∧ p.bounds.Admits t ∧ ∀ c ∈ p.grammar.constraints, c.Holds t

end TreeSearch
