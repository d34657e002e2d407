import TreeSearch.Constraint.Grammar
import TreeSearch.Grammar.Sweep
import TreeSearch.Search.Bounds
import TreeSearch.Tree.Position

namespace TreeSearch

-- A grammar with limits on its trees, and the tables of the grammar at hand.
structure Problem where
  grammar : Grammar
  bounds : Bounds
  measured : Except Halt Analysis
  measured_eq : measured = grammar.analyse
  tables : List (Domain × Except Halt Containment)
  tables_eq : ∀ entry ∈ tables, entry.2 = grammar.contain entry.1

-- The least size a position can end up with, without what is below it.
def Analysis.nodeSize (analysis : Analysis) : Tree → Cost
  | .node .. => 1
  | t => analysis.leastSize (t.domain?.getD ∅)

namespace Problem

-- The tables for the targets of the constraints are made once.
def of (grammar : Grammar) (bounds : Bounds) : Problem :=
  let measured := grammar.analyse
  { grammar
    bounds
    measured
    measured_eq := rfl
    tables := (grammar.constraints.filterMap Constraint.targets?).map fun targets =>
      (targets, measured >>= (·.contain targets))
    tables_eq := by
      intro entry h
      obtain ⟨targets, _, rfl⟩ := List.mem_map.mp h
      rfl }

def contain (p : Problem) (targets : Domain) : Except Halt Containment :=
  match p.tables.find? (·.1 = targets) with
  | some entry => entry.2
  | none => p.grammar.contain targets

theorem contain_eq (p : Problem) (targets : Domain) : p.contain targets = p.grammar.contain targets := by
  unfold contain
  cases h : p.tables.find? (·.1 = targets) with
  | none => rfl
  | some entry =>
      have ht : entry.1 = targets := by simpa using List.find?_some h
      exact (p.tables_eq entry (List.mem_of_find?_eq_some h)).trans (congrArg _ ht)

-- The levels left for the subtree at a path, itself included.
def depthBudget (p : Problem) (path : Path) : Option Int :=
  p.bounds.maxDepth.map fun n => (n : Int) - path.length

-- Without a limit there are always some left.
def levels (p : Problem) (path : Path) : Budget :=
  match p.depthBudget path with
  | some budget => .finite budget
  | none => .infinite

-- The rules whose least trees fit below the depth limit at a path.
def shallow (p : Problem) (path : Path) : Except Halt Domain :=
  return (← p.measured).withinDepth (p.depthBudget path)

-- The size of the smallest completion of a tree.
def measure (p : Problem) (t : Tree) : Except Halt Cost := do
  let analysis ← p.measured
  Cost.total ((t.positions []).map fun (_, s) => analysis.nodeSize s)

-- The nodes that can still be added to the smallest completion.
def sizeSlack (p : Problem) (t : Tree) : Except Halt (Option Budget) :=
  match p.bounds.maxSize with
  | some limit => return some (← (Budget.finite limit).minus (← p.measure t))
  | none => .ok none

-- The nodes that are left for the place of a hole, given the sizes of the smallest completions of
-- the whole tree and of the hole.
def sizeBudget (p : Problem) (total hole : Cost) : Except Halt Budget :=
  match p.bounds.maxSize with
  | some limit => do (← (Budget.finite limit).minus total).plus hole
  | none => .ok .infinite

-- The rules that fit the limits in the place of a hole.
def fitting (p : Problem) (total : Cost) (path : Path) (hole : Cost) : Except Halt Domain := do
  let rules ← p.shallow path
  match p.bounds.maxSize with
  | some limit =>
      let budget ← (← (Budget.ofCost hole).plus (.finite limit)).minus total
      return rules ∩ (← p.measured).withinSize (← budget.whole)
  | none => return rules

-- The rules of a hole below which a target rule can still occur. Without limits every rule counts.
def hosts (p : Problem) (targets : Domain) (path : Path) (rules : Domain) (total : Cost) :
    Except Halt Domain := do
  let analysis ← p.measured
  let table ← p.contain targets
  let size ← p.sizeBudget total (analysis.leastSize rules)
  return rules.filter fun r =>
    size.covers (table.ruleSizes.cost r) && (p.levels path).covers (table.ruleDepths.cost r)

-- The size of the smallest tree a hole can become.
def holeSize (p : Problem) (t : Tree) (path : Path) : Except Halt Cost := do
  match ← (t.get path).mapError .fault with
  | .node .. => throw (.fault (.notAHole path))
  | s => return (← p.measured).leastSize (s.domain?.getD ∅)

-- The hosts of some targets in the place of one hole.
def hostsAt (p : Problem) (t : Tree) (path : Path) (targets : Domain) : Except Halt Domain := do
  let rules := (← (t.get path).mapError .fault).domain?.getD ∅
  p.hosts targets path rules (← p.measure t)

end Problem

end TreeSearch
