import TreeSearch.Branch.Fill
import TreeSearch.Grammar.Check

namespace TreeSearch

-- The first hole with a single rule left.
def Tree.firstForced? (t : Tree) : Option (Path × Nat) :=
  t.holes.findSome? fun (path, _, rules) => rules.sole?.map (path, ·)

namespace BranchM

variable (p : Problem)

-- Makes the hole at a path a node of the rule.
def fill (fuel : Nat) (path : Path) (rule : Int) : BranchM Unit := do
  if let .node .. ← nodeAt path then throw (.fault (.alreadyFilled path))
  whenFeasible do
    let r ← attempt (bitOf rule)
    narrow false path (.only {r})
    whenFeasible (fillClass p fuel false path r)

-- Fills the holes that have a single rule left, until there are none. Tells whether
-- there was one.
def materialize : Nat → BranchM Bool
  | 0 => throw .outOfFuel
  | fuel + 1 => do
      let b ← get
      if !b.feasible then return false
      match b.tree.firstForced? with
      | none => return false
      | some (path, rule) =>
          fillClass p fuel false path rule
          let _ ← materialize fuel
          return true

-- Strikes the rules that do not fit the limits, hole after hole, by the sizes of the
-- smallest completions before the first of them. Tells whether there was one.
def tightenHoles (total : Cost) : List (Path × Cost) → Bool → BranchM Bool
  | [], changed => return changed
  | (path, hole) :: rest, changed => do
      let fitting ← reckon (p.fitting total path hole)
      match ← nodeAt path with
      | .hole _ rules =>
          if (rules \ fitting).isEmpty then tightenHoles total rest changed
          else
            narrow false path (.only fitting)
            if ← isFeasible then tightenHoles total rest true else return false
      | _ => tightenHoles total rest changed

-- The branch fails when even the smallest completion is too large.
def tighten : BranchM Bool := do
  if p.bounds.maxSize.isNone ∧ p.bounds.maxDepth.isNone then return false
  let tree := (← get).tree
  let analysis ← reckon p.measured
  let total ← reckon (p.measure tree)
  if p.bounds.maxSize.any fun limit => !total.within limit then
    fail
    return false
  tightenHoles p total (tree.holes.map fun (path, _, rules) => (path, analysis.leastSize rules))
    false

def pop : BranchM (Option Watch) := modifyGet fun b =>
  let (next, queue) := b.queue.pop
  (next, { b with queue })

-- Propagates one queued constraint. One that has retired in the meantime is passed
-- over.
def propagateQueued (fuel : Nat) (w : Watch) : BranchM Unit := do
  if w ∈ (← get).active then
    modify fun b => { b with statistics.propagations := b.statistics.propagations + 1 }
    propagate p (fillClass p fuel) false w

-- Propagates until nothing is queued and the limits strike nothing more. Tells
-- whether the branch is still feasible.
def fixPoint : Nat → BranchM Bool
  | 0 => throw .outOfFuel
  | fuel + 1 => do
      if !(← isFeasible) then return false
      match ← pop with
      | some w =>
          propagateQueued p fuel w
          fixPoint fuel
      | none =>
          if ← tighten p then fixPoint fuel else isFeasible

-- Alternates between propagating and filling holes that have one rule left.
def settle : Nat → BranchM Bool
  | 0 => throw .outOfFuel
  | fuel + 1 => do
      if !(← fixPoint p fuel) then return false
      if ← materialize p fuel then settle fuel else isFeasible

end BranchM

-- A branch with a first tree, all of whose positions have been shown to the
-- constraints of the grammar.
def Branch.start (p : Problem) (fuel : Nat) (tree : Tree) : Except Halt Branch := do
  p.grammar.check fuel none (.ofTree tree)
  let work : BranchM Unit := (tree.positions []).forM fun (path, _) =>
    BranchM.whenFeasible (BranchM.announce p (BranchM.fillClass p fuel) false path)
  match work.run (.of tree) with
  | .ok _ b => return b
  | .error halt _ => throw halt

end TreeSearch
