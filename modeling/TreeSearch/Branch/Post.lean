import TreeSearch.Branch.Action
import TreeSearch.Branch.Order
import TreeSearch.Branch.Unify

namespace TreeSearch.BranchM

variable (p : Problem) (fill : Filler) (unifying : Bool)

def pathOf (bindings : List Binding) (name : String) : Except Fault Path :=
  match bindings.find? (·.name = name) with
  | some bound => .ok bound.path
  | none => .error (.unboundVariable name)

-- Each variable against the next one. The constraint retires when no pair is left
-- open.
def orderNames (w : Watch) (bindings : List Binding) : List String → Bool → BranchM Unit
  | name :: next :: rest, settled => do
      let first ← attempt (pathOf bindings name)
      let second ← attempt (pathOf bindings next)
      match ← order p unifying first second with
      | .violated => return
      | .undecided => orderNames w bindings (next :: rest) false
      | .less | .equal => orderNames w bindings (next :: rest) settled
  | _, settled => if settled then modify (·.retire w) else return

-- In a failed branch only retiring has an effect.
def perform (w : Watch) : Action → BranchM Unit
  | .retire => modify (·.retire w)
  | .fail => fail
  | .keep path mask => narrow unifying path mask
  | .strike path rule => strike unifying path rule
  | .equate first second => equate fill first second
  | .order bindings names => orderNames p unifying w bindings names true

def propagate (w : Watch) : BranchM Unit := do
  let actions ← reckon (w.actions p (← get).tree)
  actions.forM (perform p fill unifying w)

-- Watches a constraint that is not watched yet, and propagates it at once.
def post (w : Watch) : BranchM Unit := do
  let b ← get
  if !b.feasible ∨ w ∈ b.active ∨ w ∈ b.retired then return
  set { b with
    active := b.active.insert w
    statistics.posted := b.statistics.posted + 1 }
  propagate p fill unifying w

-- Shows a new position to one constraint of the grammar, and posts what it asks for.
def announceTo (path : Path) (c : Constraint) : BranchM Unit := do
  let asked ← attempt (c.watchAt p (← get).tree path)
  modify fun b => { b with log := ⟨c, path, asked⟩ :: b.log }
  match asked with
  | some w => post p fill unifying w
  | none => return

def announce (path : Path) : BranchM Unit :=
  p.grammar.constraints.forM fun c => whenFeasible (announceTo p fill unifying path c)

end TreeSearch.BranchM
