import TreeSearch.Grammar.Analysis

namespace TreeSearch

namespace Cost

def sum (costs : List Cost) : Cost := costs.foldr (· + ·) 0

@[simp]
theorem infinite_least (c : Cost) : least infinite c = c := by
  cases c <;> rfl

@[simp]
theorem least_infinite (c : Cost) : least c infinite = c := by
  cases c <;> rfl

theorem least_assoc (a b c : Cost) : least (least a b) c = least a (least b c) := by
  cases a <;> cases b <;> cases c <;> simp [least, Nat.min_assoc]

theorem least_left_comm (a b c : Cost) : least a (least b c) = least b (least a c) := by
  cases a <;> cases b <;> cases c <;> simp [least, Nat.min_left_comm, Nat.min_comm]

end Cost

-- The cost of a node above children of the given costs.
def Measure.above : Measure → List Cost → Cost
  | size, children => 1 + Cost.sum children
  | depth, children => 1 + Cost.mostOf children

theorem CostTable.cost_modify (table : CostTable) (i n : Nat) (f : Cost → Cost)
    (hn : n < table.size) :
    CostTable.cost (table.modify i f) n = if i = n then f (table.cost n) else table.cost n := by
  simp only [cost, Array.getElem?_modify, Array.getElem?_eq_getElem hn]
  split <;> rfl

-- Applies a step a number of times, or until it changes nothing.
def rounds [DecidableEq α] (step : α → α) : Nat → α → α
  | 0, start => start
  | n + 1, start =>
      let next := step start
      if next = start then start else rounds step n next

namespace Outline

-- The least cost of each category when a tree's root costs what its rule says.
def categoryCosts (o : Outline) (cost : Shape → Cost) : CostTable :=
  o.shapes.foldl (fun table s => table.modify s.category (Cost.least (cost s)))
    (Array.replicate o.categories .infinite)

-- Removed rules root no tree.
def ruleCosts (o : Outline) (cost : Shape → Cost) : CostTable :=
  o.shapes.foldl (fun table s => table.modify s.index fun _ => cost s)
    (Array.replicate o.rules .infinite)

-- The cost of a rule above least trees of its children's categories.
def leastCost (m : Measure) (table : CostTable) (s : Shape) : Cost :=
  m.above (s.children.map table.cost)

-- A table by category that follows from itself. A least tree repeats no category on its way
-- down, or a smaller one could be cut out of it. So as many rounds as there are categories
-- are enough, where each round allows one more level.
def settled (o : Outline) (cost : CostTable → Shape → Cost) : CostTable :=
  rounds (fun table => o.categoryCosts (cost table)) o.categories
    (Array.replicate o.categories .infinite)

def categoryMinimums (o : Outline) (m : Measure) : CostTable := o.settled (leastCost m)

-- A category costs as much as the cheapest of its rules.
theorem cost_categoryCosts (o : Outline) (cost : Shape → Cost) (n : Nat) (hn : n < o.categories) :
    (o.categoryCosts cost).cost n =
      Cost.leastOf ((o.shapes.filter (·.category = n)).map cost) := by
  have h (shapes : List Shape) (table : CostTable) (ht : n < table.size) :
      (shapes.foldl (fun table s => table.modify s.category (Cost.least (cost s))) table).cost n =
        Cost.least (Cost.leastOf ((shapes.filter (·.category = n)).map cost)) (table.cost n) := by
    induction shapes generalizing table with
    | nil => simp [Cost.leastOf, Cost.infinite_least]
    | cons s rest ih =>
        rw [List.foldl_cons, ih _ (by rwa [Array.size_modify]), CostTable.cost_modify _ _ _ _ ht]
        by_cases hs : s.category = n
        · simp [hs, Cost.leastOf, Cost.least_assoc, Cost.least_left_comm]
        · simp [hs]
  rw [categoryCosts, h _ _ (by simpa using hn)]
  simp [CostTable.cost, hn, Cost.least_infinite]

end Outline

def Outline.analysis (o : Outline) : Analysis :=
  let categorySizes := o.categoryMinimums .size
  let categoryDepths := o.categoryMinimums .depth
  { outline := o
    categorySizes
    categoryDepths
    ruleSizes := o.ruleCosts (Outline.leastCost .size categorySizes)
    ruleDepths := o.ruleCosts (Outline.leastCost .depth categoryDepths) }

def Grammar.analysis (g : Grammar) : Analysis := g.outline.analysis

-- A target rule costs its own minimum. Otherwise one child has to hold a target
-- while the others stay least.
def containingCost (m : Measure) (targets : Domain) (least table : CostTable) (s : Shape) : Cost :=
  if s.index ∈ targets then Outline.leastCost m least s
  else Cost.leastOf ((singledOut s.children).map fun (child, others) =>
    m.above (table.cost child :: others.map least.cost))

namespace Analysis

variable (analysis : Analysis)

-- By rule, the least costs of trees with a target.
def containingCosts (m : Measure) (targets : Domain) (least : CostTable) : CostTable :=
  analysis.outline.ruleCosts
    (containingCost m targets least (analysis.outline.settled (containingCost m targets least)))

def containing (targets : Domain) : Containment :=
  { targets
    ruleSizes := analysis.containingCosts .size targets analysis.categorySizes
    ruleDepths := analysis.containingCosts .depth targets analysis.categoryDepths }

end Analysis

end TreeSearch
