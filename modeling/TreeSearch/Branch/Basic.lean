import TreeSearch.Branch.OrderedSet
import TreeSearch.Branch.PathClasses
import TreeSearch.Branch.Worklist
import TreeSearch.Problem

namespace TreeSearch

structure Statistics where
  fills : Nat
  narrowings : Nat
  posted : Nat
  propagations : Nat
  reactivations : Nat
  deriving DecidableEq

-- A position that a constraint of the grammar has been shown, and what it asked for there.
structure Announcement where
  constraint : Constraint
  path : Path
  asked : Option Watch
  deriving DecidableEq

-- The log tells what has been announced, the latest first.
structure Branch where
  tree : Tree
  active : OrderedSet Watch
  retired : OrderedSet Watch
  queue : Worklist Watch
  classes : PathClasses
  feasible : Bool
  statistics : Statistics
  log : List Announcement
  deriving DecidableEq

-- Whether a change at a path can give a watched constraint something to do.
def Watch.minds (w : Watch) (path : Path) : Bool :=
  match w.constraint with
  | .forbidden _ | .ordered .. => w.path.isPrefixOf path
  | .contains _ | .containsSubtree _ | .unique _ => true
  | .forbiddenSequence .. | .rootOnly _ => w.path = path

namespace Branch

def of (tree : Tree) : Branch :=
  { tree
    active := .empty
    retired := .empty
    queue := .empty
    classes := .empty
    feasible := true
    statistics := ⟨0, 0, 0, 0, 0⟩
    log := [] }

-- The positions that the constraints have been shown.
def announced (b : Branch) : List (Constraint × Path) :=
  b.log.map fun entry => (entry.constraint, entry.path)

def isComplete (b : Branch) : Bool := b.tree.isComplete

-- Gives the branch up, and what was still to be done in it.
def fail (b : Branch) : Branch := { b with feasible := false, queue := .empty }

-- A retired constraint has nothing left to prune.
def retire (b : Branch) (w : Watch) : Branch :=
  { b with
    active := b.active.erase w
    retired := b.retired.insert w
    queue := b.queue.remove w }

def schedule (b : Branch) (w : Watch) : Branch :=
  if w ∈ b.active then { b with queue := b.queue.add w } else b

-- Queues the active constraints that mind a change at the path.
def wake (b : Branch) (path : Path) : Branch :=
  { b with queue := b.queue.addAll (b.active.toList.filter (·.minds path)) }

-- Takes the retired constraints that mind a change at the path into service again.
def revive (b : Branch) (path : Path) : Branch :=
  let back := b.retired.toList.filter (·.minds path)
  { b with
    active := b.active.insertAll back
    retired := ⟨b.retired.toList.filter (!·.minds path)⟩
    queue := b.queue.addAll back
    statistics.reactivations := b.statistics.reactivations + back.length }

-- While paths are being unified, equal subtrees can bring about what a retired
-- constraint had ruled out by looking at one position alone.
def notify (b : Branch) (unifying : Bool) (path : Path) : Branch :=
  if unifying then (b.wake path).revive path else b.wake path

-- A copy to go on with on its own.
def fork (b : Branch) : Branch := { b with queue := b.queue.copy }

def text (b : Branch) : String :=
  let state := if b.feasible then "feasible" else "infeasible"
  "Solver(" ++ state ++ ", tree=" ++ b.tree.text ++
    s!", active={b.active.size}, queued={b.queue.size})"

end Branch

-- Work on a branch. What was done before a halt stays done.
abbrev BranchM := EStateM Halt Branch

namespace BranchM

instance decidableEqResult [DecidableEq α] : DecidableEq (EStateM.Result Halt Branch α)
  | .ok a b, .ok c d => decidable_of_iff (a = c ∧ b = d) (by simp)
  | .error h b, .error k d => decidable_of_iff (h = k ∧ b = d) (by simp)
  | .ok _ _, .error _ _ => isFalse (by simp)
  | .error _ _, .ok _ _ => isFalse (by simp)

def reckon (result : Except Halt α) : BranchM α :=
  match result with
  | .ok a => pure a
  | .error halt => throw halt

def attempt (result : Except Fault α) : BranchM α := reckon (result.mapError .fault)

def nodeAt (path : Path) : BranchM Tree := do attempt ((← get).tree.get path)

def isFeasible : BranchM Bool := return (← get).feasible

def whenFeasible (work : BranchM Unit) : BranchM Unit := do
  if ← isFeasible then work

def fail : BranchM Unit := modify Branch.fail

-- Puts a subtree into the place of a hole, counts the change and tells the watched
-- constraints.
def edit (unifying : Bool) (path : Path) (part : Tree) (count : Statistics → Statistics) :
    BranchM Unit := do
  let tree ← attempt ((← get).tree.replace path part)
  modify fun b => { b with tree, statistics := count b.statistics }.notify unifying path

end BranchM

end TreeSearch
