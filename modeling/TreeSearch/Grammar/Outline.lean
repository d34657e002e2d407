import TreeSearch.Cost
import TreeSearch.Grammar.Basic

namespace TreeSearch

inductive Measure where
  | size
  | depth
  deriving DecidableEq

abbrev CostTable := Array Cost

-- What is not listed has no trees.
def CostTable.cost (table : CostTable) (n : Nat) : Cost := table[n]?.getD .infinite

-- A live rule with its categories by number.
structure Shape where
  index : Nat
  category : Nat
  children : List Nat
  deriving DecidableEq

-- The live rules of a grammar, and how many categories and rules it has in all.
structure Outline where
  shapes : List Shape
  categories : Nat
  rules : Nat
  deriving DecidableEq

-- Categories are numbered in the order in which they became known.
def Grammar.number (g : Grammar) (category : String) : Nat := g.categories.idxOf category

def Grammar.outline (g : Grammar) : Outline where
  shapes := g.liveRules.map fun r => ⟨r.index, g.number r.category, r.children.map g.number⟩
  categories := g.categories.length
  rules := g.rules.length

end TreeSearch
