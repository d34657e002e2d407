import TreeSearch.Grammar.Outline

namespace TreeSearch

structure Analysis where
  outline : Outline
  categorySizes : CostTable
  categoryDepths : CostTable
  ruleSizes : CostTable
  ruleDepths : CostTable
  deriving DecidableEq

-- The cheapest trees with a target rule, by the rule at their root.
structure Containment where
  targets : Domain
  ruleSizes : CostTable
  ruleDepths : CostTable
  deriving DecidableEq

-- The entries of a table by category under the names of the categories.
def Grammar.named (g : Grammar) (table : Array α) : List (String × α) :=
  g.categories.zip table.toList

-- Each item of a list together with the others.
def singledOut : List α → List (α × List α)
  | [] => []
  | x :: xs => (x, xs) :: (singledOut xs).map fun (y, ys) => (y, x :: ys)

namespace Analysis

variable (analysis : Analysis)

-- The live rules whose cost passes the test.
def rulesWhere (table : CostTable) (test : Cost → Bool) : Domain :=
  Domain.ofList ((analysis.outline.shapes.map (·.index)).filter fun r => test (table.cost r))

-- The rules that root some tree.
def producible : Domain := analysis.rulesWhere analysis.ruleSizes Cost.isFinite

-- The rules whose least trees fit a number of nodes.
def withinSize (budget : Int) : Domain := analysis.rulesWhere analysis.ruleSizes (Cost.within budget)

-- The rules whose least trees fit a number of levels, or that have trees at all.
def withinDepth : Option Int → Domain
  | some budget => analysis.rulesWhere analysis.ruleDepths (Cost.within budget)
  | none => analysis.producible

-- The least size of a tree whose root takes one of some rules.
def leastSize (rules : Domain) : Cost :=
  Cost.leastOf (rules.rules.map analysis.ruleSizes.cost)

end Analysis

end TreeSearch
