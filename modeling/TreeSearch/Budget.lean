import TreeSearch.Cost
import TreeSearch.Fault

namespace TreeSearch

namespace Cost

-- The least number that rounds to no float any more, and so cannot be set against infinity. It
-- has 54 bits that are set, and 970 that are not.
def ceiling : Nat := 0x3FFFFFFFFFFFFF <<< 970

-- What comes of a number and infinity.
def againstInfinity (n : Nat) (result : α) : Except Halt α :=
  if n < ceiling then .ok result else .error .overflow

def plus : Cost → Cost → Except Halt Cost
  | finite m, finite n => .ok (finite (m + n))
  | finite n, infinite | infinite, finite n => againstInfinity n infinite
  | infinite, infinite => .ok infinite

-- The costs are added up from the first to the last.
def total (costs : List Cost) : Except Halt Cost := costs.foldlM plus 0

end Cost

-- What may still be spent.
inductive Budget where
  | finite (n : Int)
  | infinite
  | minusInfinite
  -- infinity less infinity
  | undefined
  deriving DecidableEq

namespace Budget

def ofCost : Cost → Budget
  | .finite n => finite n
  | .infinite => infinite

def opposite : Budget → Budget
  | finite n => finite (-n)
  | infinite => minusInfinite
  | minusInfinite => infinite
  | undefined => undefined

def plus : Budget → Cost → Except Halt Budget
  | finite m, .finite n => .ok (finite (m + n))
  | finite m, .infinite => Cost.againstInfinity m.natAbs infinite
  | minusInfinite, .infinite => .ok undefined
  | budget, .finite n => Cost.againstInfinity n budget
  | budget, .infinite => .ok budget

def minus (budget : Budget) (cost : Cost) : Except Halt Budget := opposite <$> budget.opposite.plus cost

-- Only a finite budget is a whole number.
def whole : Budget → Except Halt Int
  | finite n => .ok n
  | infinite | minusInfinite => .error (.fault .infiniteInteger)
  | undefined => .error (.fault .undefinedInteger)

-- Whether the budget is enough for a cost. An undefined one is enough for nothing.
def covers : Budget → Cost → Bool
  | finite n, cost => cost.within n
  | infinite, _ => true
  | minusInfinite, _ | undefined, _ => false

end Budget

end TreeSearch
