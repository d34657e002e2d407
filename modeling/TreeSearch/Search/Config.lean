import TreeSearch.Search.Bounds
import TreeSearch.Text.Upper

namespace TreeSearch

inductive Strategy where
  -- smallest trees first
  | breadthFirst
  -- in the order of the rules, from left to right
  | depthFirst
  deriving DecidableEq

namespace Strategy

def name : Strategy → String
  | breadthFirst => "BFS"
  | depthFirst => "DFS"

-- Upper and lower case are the same in names.
def ofName (given : String) : Except Fault Strategy :=
  let upper := Text.upper given
  if upper = breadthFirst.name then .ok breadthFirst
  else if upper = depthFirst.name then .ok depthFirst
  else .error (.unknownStrategy upper)

end Strategy

structure Config where
  strategy : Strategy
  bounds : Bounds
  deriving DecidableEq

-- Without a name the search is breadth-first.
def Config.of (strategy : Option String) (maxDepth maxSize : Option Int) : Except Fault Config := do
  let strategy ← match strategy with
    | some name => Strategy.ofName name
    | none => .ok .breadthFirst
  return ⟨strategy, ← Bounds.of maxDepth maxSize⟩

end TreeSearch
