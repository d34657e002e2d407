import TreeSearch.Branch.Fixpoint
import TreeSearch.Search.Config

namespace TreeSearch

-- The branches that wait for their turn. Breadth-first, they wait in the order of
-- their smallest completions, and among equals in the order of arrival. Depth-first,
-- the latest ones come first.
structure Waiting where
  size : Cost
  branch : Branch
  deriving DecidableEq

abbrev Frontier := List Waiting

namespace Frontier

-- Behind everything that is not larger.
def enqueue (frontier : Frontier) (entry : Waiting) : Frontier :=
  match frontier with
  | [] => [entry]
  | first :: rest =>
      if first.size.atMost entry.size then first :: enqueue rest entry
      else entry :: first :: rest

def addAll (frontier : Frontier) : Strategy → List Waiting → Frontier
  | .breadthFirst, entries => entries.foldl enqueue frontier
  | .depthFirst, entries => entries ++ frontier

end Frontier

-- The hole to branch on: the nearest to the root, or the leftmost.
def Strategy.hole? (strategy : Strategy) (t : Tree) : Option Path :=
  match strategy with
  | breadthFirst => t.nearestHole?
  | depthFirst => t.firstHole?

end TreeSearch
