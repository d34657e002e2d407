import TreeSearch.Search.Frontier

namespace TreeSearch

structure Enumerator where
  problem : Problem
  start : String
  strategy : Strategy

structure PassStatistics where
  expansions : Nat
  branches : Nat
  pruned : Nat
  yielded : Nat
  maxFrontier : Nat
  deriving DecidableEq

structure Pass where
  frontier : Frontier
  statistics : PassStatistics
  deriving DecidableEq

-- What one step of a pass comes to.
inductive Progress where
  | finished
  | yielded (tree : Tree) (pass : Pass)
  | expanded (pass : Pass)
  deriving DecidableEq

-- Limits that are given replace those of the configuration.
def Enumerator.of (grammar : Grammar) (start : String) (strategy : Strategy)
    (maxDepth maxSize : Option Int) (config : Option Config) : Except Fault Enumerator := do
  if start ∉ grammar.categories then throw (.unknownStart start)
  let given := (config.map (·.bounds)).getD Bounds.none
  let bounds ← Bounds.of (maxDepth <|> given.maxDepth.map Int.ofNat)
    (maxSize <|> given.maxSize.map Int.ofNat)
  return ⟨.of grammar bounds, start, strategy⟩

-- The enumerator that a configuration asks for.
def Enumerator.ofConfig (grammar : Grammar) (start : String) (config : Option Config) :
    Except Fault Enumerator :=
  let strategy := (config.map (·.strategy)).getD .breadthFirst
  Enumerator.of grammar start strategy none none config

-- Runs work on a branch.
def BranchM.runOn (work : BranchM α) (b : Branch) : Except Halt (α × Branch) :=
  match work.run b with
  | .ok a b => .ok (a, b)
  | .error halt _ => .error halt

namespace Enumerator

variable (e : Enumerator)

-- Depth-first, nothing is measured.
def waiting (b : Branch) : Except Halt Waiting :=
  match e.strategy with
  | .breadthFirst => return ⟨← e.problem.measure b.tree, b⟩
  | .depthFirst => .ok ⟨0, b⟩

-- The first branch, unless there is no tree at all.
def root? (fuel : Nat) : Except Halt (Option Branch) := do
  let shallow ← e.problem.shallow []
  let rules := (← (e.problem.grammar.domainFor e.start).mapError .fault) ∩ shallow
  if rules.isEmpty then return none
  let b ← Branch.start e.problem fuel (.hole e.start rules)
  let (feasible, b) ← (BranchM.settle e.problem fuel).runOn b
  return if feasible then some b else none

def firstPass (fuel : Nat) : Except Halt Pass :=
  return ⟨← (← e.root? fuel).toList.mapM e.waiting, ⟨0, 0, 0, 0, 0⟩⟩

-- The branch with a rule in the place of a hole, if it is feasible.
def tryRule (fuel : Nat) (b : Branch) (path : Path) (rule : Nat) : Except Halt (Option Branch) := do
  let work : BranchM Bool := do
    BranchM.fill e.problem fuel path rule
    BranchM.settle e.problem fuel
  let (feasible, next) ← work.runOn b.fork
  return if feasible then some next else none

-- The branches for the rules of one hole, in ascending order of the rules.
def expand (fuel : Nat) (b : Branch) : Except Halt (List (Option Branch)) :=
  match e.strategy.hole? b.tree with
  | none => .ok []
  | some path => match b.tree.get? path with
      | some (.hole _ rules) => rules.rules.mapM (e.tryRule fuel b path)
      | _ => .ok []

-- Takes a branch from the frontier. A complete tree is yielded. Otherwise one hole is filled
-- with each of its rules in turn, and the branches that stay feasible join the frontier.
def step (fuel : Nat) (pass : Pass) : Except Halt Progress :=
  match pass.frontier with
  | [] => .ok .finished
  | ⟨_, b⟩ :: rest => do
      let s := pass.statistics
      if b.isComplete then
        return .yielded b.tree ⟨rest, { s with yielded := s.yielded + 1 }⟩
      let outcomes ← e.expand fuel b
      let children := outcomes.filterMap id
      let frontier := Frontier.addAll rest e.strategy (← children.mapM e.waiting)
      return .expanded ⟨frontier, { s with
        expansions := s.expansions + 1
        branches := s.branches + outcomes.length
        pruned := s.pruned + (outcomes.length - children.length)
        maxFrontier := max s.maxFrontier frontier.length }⟩

-- Takes trees until a number of them is reached, if one is given, or none is left.
def pull : Nat → Option Nat → Pass → Except Halt (List Tree × Pass)
  | _, some 0, pass => .ok ([], pass)
  | 0, _, _ => .error .outOfFuel
  | fuel + 1, limit, pass => do
      match ← e.step fuel pass with
      | .finished => return ([], pass)
      | .expanded pass => pull fuel limit pass
      | .yielded tree pass =>
          let (trees, last) ← pull fuel (limit.map (· - 1)) pass
          return (tree :: trees, last)

-- A pass from the beginning.
def trees (fuel : Nat) (limit : Option Nat) : Except Halt (List Tree × Pass) := do
  e.pull fuel limit (← e.firstPass fuel)

end Enumerator

end TreeSearch
