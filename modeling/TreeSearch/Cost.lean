namespace TreeSearch

-- Sizes and depths of trees that may not exist: a natural number, or infinity
-- where there is no tree at all.
inductive Cost where
  | finite (n : Nat)
  | infinite
  deriving DecidableEq

namespace Cost

instance : OfNat Cost n := ⟨finite n⟩

-- The exact sum, however large the numbers are.
def add : Cost → Cost → Cost
  | finite m, finite n => finite (m + n)
  | _, _ => infinite

instance : Add Cost := ⟨add⟩

-- The cheaper of two costs.
def least : Cost → Cost → Cost
  | finite m, finite n => finite (min m n)
  | infinite, c => c
  | c, infinite => c

-- The dearer of two costs.
def most : Cost → Cost → Cost
  | finite m, finite n => finite (max m n)
  | _, _ => infinite

def leastOf (costs : List Cost) : Cost := costs.foldr least infinite

def mostOf (costs : List Cost) : Cost := costs.foldr most 0

def isFinite : Cost → Bool
  | finite _ => true
  | infinite => false

-- Infinity is within no budget, however large.
def within (budget : Int) : Cost → Bool
  | finite n => (n : Int) ≤ budget
  | infinite => false

-- The order of costs, with infinity last.
def atMost : Cost → Cost → Bool
  | finite m, finite n => m ≤ n
  | _, infinite => true
  | infinite, finite _ => false

end Cost

end TreeSearch
