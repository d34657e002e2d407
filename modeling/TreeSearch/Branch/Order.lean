import TreeSearch.Branch.Narrow

namespace TreeSearch

inductive Comparison where
  -- the first subtree is certainly smaller
  | less
  -- both subtrees are complete and the same
  | equal
  -- not known yet
  | undecided
  -- the first subtree is certainly larger
  | violated
  deriving DecidableEq

def Comparison.name : Comparison → String
  | less => "LESS"
  | equal => "EQUAL"
  | undecided => "UNDECIDED"
  | violated => "VIOLATED"

-- The smallest and the largest rule a position may still take.
def Tree.lowest (t : Tree) : Except Fault Int :=
  match t.decided? with
  | some r => .ok r
  | none => match t.domain?.bind Domain.lowest? with
      | some r => .ok r
      | none => .error .emptyDomain

def Tree.highest (t : Tree) : Except Fault Int :=
  match t.decided? with
  | some r => .ok r
  | none => match t.domain?.bind Domain.highest? with
      | some r => .ok r
      | none => .error .emptyDomain

namespace BranchM

variable (p : Problem) (unifying : Bool)

-- Two roots whose rules are decided, when one of them has no children yet.
def compareRoots (r q : Int) : BranchM Comparison := do
  if r < q then return .less
  if q < r then
    fail
    return .violated
  if ← attempt (p.grammar.isTerminal r) then return .equal
  return .undecided

-- Two roots of which one is a hole: strikes what would be out of order, and looks
-- again.
def compareHoles (first second : Path) (s t : Tree) : BranchM Comparison := do
  match s.decided?, t.decided? with
  | none, some q => strikeAbove unifying first q
  | some r, _ => strikeBelow unifying second r
  | none, none =>
      strikeAbove unifying first (← attempt t.highest)
      strikeBelow unifying second (← attempt s.lowest)
  if !(← isFeasible) then return .violated
  let s ← nodeAt first
  let t ← nodeAt second
  match s.decided?, t.decided? with
  | some r, some q => compareRoots p r q
  | _, _ =>
      if (← attempt s.highest) < (← attempt t.lowest) then return .less
      return .undecided

-- Two positions, with the work of comparing their children if both have the same rule.
def orderWith (below : BranchM Comparison) (first second : Path) : BranchM Comparison := do
  if !(← isFeasible) then return .violated
  let s ← nodeAt first
  let t ← nodeAt second
  match s.decided?, t.decided? with
  | some r, some q => match s, t with
      | .node .., .node .. => if r = q then below else compareRoots p r q
      | _, _ => compareRoots p r q
  | _, _ => compareHoles p unifying first second s t

mutual

-- The first argument is the first subtree as it was before. Holes may be narrowed on
-- the way, but rules that are decided stay, so it still tells where to go down.
def orderFrom : Tree → Path → Path → BranchM Comparison
  | .node _ cs, first, second =>
      orderWith p unifying (orderChildren cs 0 first second) first second
  | _, first, second => orderWith p unifying (return .equal) first second

-- The children in turn, as long as they are equal.
def orderChildren : List Tree → Nat → Path → Path → BranchM Comparison
  | [], _, _, _ => return .equal
  | c :: cs, index, first, second => do
      let step : Path := [(index : Int)]
      match ← orderFrom c (first ++ step) (second ++ step) with
      | .equal => orderChildren cs (index + 1) first second
      | outcome => return outcome

end

-- Makes the first subtree smaller than the second one or equal to it.
def order (first second : Path) : BranchM Comparison := do
  if !(← isFeasible) then return .violated
  orderFrom p unifying (← nodeAt first) first second

end BranchM

end TreeSearch
