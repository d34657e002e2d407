import TreeSearch.Fault

namespace TreeSearch

-- The position of a rule's bit.
def bitOf (rule : Int) : Except Fault Nat :=
  if 0 ≤ rule then .ok rule.toNat else .error .negativeShift

namespace Domain

def single (rule : Int) : Except Fault Domain :=
  return {← bitOf rule}

-- The first negative index is reported.
def indices : List Int → Except Fault (List Nat)
  | [] => .ok []
  | rule :: rest =>
      if 0 ≤ rule then return rule.toNat :: (← indices rest)
      else .error (.negativeRule rule)

def ofRules (rules : List Int) : Except Fault Domain :=
  return ofList (← indices rules)

-- A set given rule by rule, where a negative rule has no bit to set.
def ofBits (rules : List Int) : Except Fault Domain :=
  return ofList (← rules.mapM bitOf)

def has (d : Domain) (rule : Int) : Except Fault Bool :=
  return decide ((← bitOf rule) ∈ d)

end Domain

namespace Mask

def has (mask : Mask) (rule : Int) : Except Fault Bool :=
  return decide ((← bitOf rule) ∈ mask)

-- All rules up to the given one. There are none up to minus one.
def upTo (rule : Int) : Except Fault Mask :=
  return below (← bitOf (rule + 1))

def onwards (rule : Int) : Except Fault Mask :=
  return atLeast (← bitOf rule)

def lowest (mask : Mask) : Except Fault Nat :=
  match mask.lowest? with
  | some rule => .ok rule
  | none => .error .emptyDomain

def highest (mask : Mask) : Except Fault Nat :=
  match mask.highest? with
  | some rule => .ok rule
  | none => .error .emptyDomain

end Mask

end TreeSearch
