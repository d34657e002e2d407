import TreeSearch.Fault

namespace TreeSearch

-- Limits on the depth and the size of trees. A single node has depth one, so no
-- limit is smaller than one.
structure Bounds where
  maxDepth : Option Nat
  maxSize : Option Nat
  one_le_depth : ∀ n ∈ maxDepth, 1 ≤ n
  one_le_size : ∀ n ∈ maxSize, 1 ≤ n
  deriving DecidableEq

namespace Bounds

def none : Bounds := ⟨.none, .none, nofun, nofun⟩

-- A limit that is at least one.
def limit (given : Option Int) (fault : Int → Fault) :
    Except Fault { limit : Option Nat // ∀ n ∈ limit, 1 ≤ n } :=
  match given with
  | .none => .ok ⟨.none, nofun⟩
  | .some n =>
      if h : 1 ≤ n then .ok ⟨.some n.toNat, by intro m hm; cases hm; omega⟩
      else .error (fault n)

-- The depth is checked before the size.
def of (maxDepth maxSize : Option Int) : Except Fault Bounds := do
  let depth ← limit maxDepth .depthBound
  let size ← limit maxSize .sizeBound
  return ⟨depth.1, size.1, depth.2, size.2⟩

end Bounds

end TreeSearch
