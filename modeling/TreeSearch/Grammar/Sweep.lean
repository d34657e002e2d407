import TreeSearch.Budget
import TreeSearch.Grammar.Analysis

namespace TreeSearch

-- A pass over the shapes in their order, where each finds what the ones before it have
-- left. It says whether any of them has changed anything.
def sweep (visit : α → Shape → Except Halt (α × Bool)) : List Shape → α → Except Halt (α × Bool)
  | [], a => .ok (a, false)
  | s :: rest, a => do
      let visited ← visit a s
      let swept ← sweep visit rest visited.1
      return (swept.1, visited.2 || swept.2)

-- One pass follows another for as long as they change something.
def passes (pass : α → Except Halt (α × Bool)) : Nat → α → Except Halt α
  | 0, _ => .error .outOfFuel
  | n + 1, a => do
      let swept ← pass a
      if swept.2 then passes pass n swept.1 else return swept.1

-- Passes over a grammar. The last but one may still change something, as a rule can come
-- before those of its children.
def Outline.settle (o : Outline) (visit : α → Shape → Except Halt (α × Bool)) (start : α) :
    Except Halt α :=
  passes (sweep visit o.shapes) (o.categories + 2) start

-- Puts a cost in the place of a higher one.
def CostTable.lower (table : CostTable) (n : Nat) (c : Cost) : CostTable × Bool :=
  if (table.cost n).atMost c then (table, false) else (table.modify n fun _ => c, true)

-- The costs of trees, by the rule at the root and by category.
@[ext]
structure Ledger where
  rules : CostTable
  categories : CostTable
  deriving DecidableEq

namespace Ledger

def blank (o : Outline) : Ledger :=
  ⟨Array.replicate o.rules .infinite, Array.replicate o.categories .infinite⟩

-- What a tree with the shape's rule at the root costs may improve two entries.
def enter (ledger : Ledger) (s : Shape) (c : Cost) : Ledger × Bool :=
  let rules := ledger.rules.lower s.index c
  let categories := ledger.categories.lower s.category c
  (⟨rules.1, categories.1⟩, rules.2 || categories.2)

end Ledger

@[ext]
structure Ledgers where
  sizes : Ledger
  depths : Ledger
  deriving DecidableEq

namespace Ledgers

def blank (o : Outline) : Ledgers := ⟨.blank o, .blank o⟩

def of (ledgers : Ledgers) : Measure → Ledger
  | .size => ledgers.sizes
  | .depth => ledgers.depths

-- Sizes and depths are entered side by side. What a shape costs follows from the entries
-- by category.
def enter (cost : Measure → CostTable → Shape → Except Halt Cost) (ledgers : Ledgers) (s : Shape) :
    Except Halt (Ledgers × Bool) := do
  let sizes := ledgers.sizes.enter s (← cost .size ledgers.sizes.categories s)
  let depths := ledgers.depths.enter s (← cost .depth ledgers.depths.categories s)
  return (⟨sizes.1, depths.1⟩, sizes.2 || depths.2)

end Ledgers

namespace Measure

-- The cost of a node above its children, as it is worked out.
def raise : Measure → List Cost → Except Halt Cost
  | size, children => (1 + ·) <$> Cost.total children
  | depth, children => .ok (1 + Cost.mostOf children)

-- The same where one child is taken out of the sum.
def raiseBeside : Measure → Cost → List Cost → Except Halt Cost
  | size, child, others => do (1 + child).plus (← Cost.total others)
  | depth, child, others => .ok (1 + Cost.mostOf (child :: others))

end Measure

-- The least costs of all trees.
def Outline.analyse (o : Outline) : Except Halt Analysis := do
  let ledgers ← o.settle (Ledgers.enter fun m table s => m.raise (s.children.map table.cost)) (.blank o)
  return {
    outline := o
    categorySizes := ledgers.sizes.categories
    categoryDepths := ledgers.depths.categories
    ruleSizes := ledgers.sizes.rules
    ruleDepths := ledgers.depths.rules }

def Grammar.analyse (g : Grammar) : Except Halt Analysis := g.outline.analyse

-- Takes up the rules that occur below the children of a shape.
def Outline.spread (producible : Domain) (table : Array Domain) (s : Shape) : Array Domain × Bool :=
  let current := table[s.category]?.getD ∅
  let merged := s.children.foldl (fun rules child => rules ∪ table[child]?.getD ∅) current
  if s.index ∈ producible ∧ merged ≠ current then (table.modify s.category fun _ => merged, true)
  else (table, false)

-- No numbers are involved, so such a visit always succeeds.
def Outline.visit (producible : Domain) (table : Array Domain) (s : Shape) :
    Except Halt (Array Domain × Bool) :=
  .ok (spread producible table s)

-- By category, the rules that occur in its trees. First there are those at their roots.
def Grammar.reachable (g : Grammar) : Except Halt (Array Domain) := do
  let analysis ← g.analyse
  let roots := g.categories.map fun category => g.domainOf category ∩ analysis.producible
  g.outline.settle (Outline.visit analysis.producible) roots.toArray

namespace Analysis

variable (analysis : Analysis)

def categoryCosts : Measure → CostTable
  | .size => analysis.categorySizes
  | .depth => analysis.categoryDepths

def ruleCosts : Measure → CostTable
  | .size => analysis.ruleSizes
  | .depth => analysis.ruleDepths

-- A target rule costs its own minimum. Otherwise one child has to hold a target while the
-- others stay least.
def targetCost (targets : Domain) (m : Measure) (table : CostTable) (s : Shape) : Except Halt Cost :=
  if s.index ∈ targets then .ok ((analysis.ruleCosts m).cost s.index)
  else Cost.leastOf <$> (singledOut s.children).mapM fun (child, others) =>
    m.raiseBeside (table.cost child) (others.map (analysis.categoryCosts m).cost)

-- The least costs of trees with a target.
def contain (targets : Domain) : Except Halt Containment := do
  let o := analysis.outline
  let ledgers ← o.settle (Ledgers.enter (analysis.targetCost targets)) (.blank o)
  return ⟨targets, ledgers.sizes.rules, ledgers.depths.rules⟩

end Analysis

def Grammar.contain (g : Grammar) (targets : Domain) : Except Halt Containment := do
  (← g.analyse).contain targets

def Containment.ruleCosts (table : Containment) : Measure → CostTable
  | .size => table.ruleSizes
  | .depth => table.ruleDepths

-- The least cost of a tree of a category with a rule in it.
def Grammar.leastContaining (g : Grammar) (m : Measure) (rule : Int) (category : String) :
    Except Halt Cost := do
  let analysis ← g.analyse
  let target ← (Domain.single rule).mapError .fault
  let table ← analysis.contain target
  let rules ← (g.rulesFor category).mapError .fault
  return Cost.leastOf (rules.map (table.ruleCosts m).cost)

end TreeSearch
