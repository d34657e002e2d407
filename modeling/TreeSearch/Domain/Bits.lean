import TreeSearch.Domain.Checked

namespace TreeSearch.Bits

-- The bits that are on in both. With a complement a number shares what it does not share with
-- the set that was left out.
def both : Int → Int → Int
  | .ofNat m, .ofNat n => .ofNat (m &&& n)
  | .ofNat m, .negSucc n => .ofNat (m ^^^ (m &&& n))
  | .negSucc m, .ofNat n => .ofNat (n ^^^ (n &&& m))
  | .negSucc m, .negSucc n => .negSucc (m ||| n)

-- The bits that are on in one of the two.
def either : Int → Int → Int
  | .ofNat m, .ofNat n => .ofNat (m ^^^ n)
  | .ofNat m, .negSucc n => .negSucc (m ^^^ n)
  | .negSucc m, .ofNat n => .negSucc (m ^^^ n)
  | .negSucc m, .negSucc n => .ofNat (m ^^^ n)

-- The number of binary digits without the sign.
def width (bits : Int) : Nat := if bits = 0 then 0 else bits.natAbs.log2 + 1

-- A number and its negative agree in nothing but the lowest bit that is on.
def lowBit (bits : Int) : Int := both bits (-bits)

def setBit (bits : Nat) (rule : Int) : Except Fault Nat :=
  if rule < 0 then .error (.negativeRule rule) else .ok (bits ||| 1 <<< rule.toNat)

-- The first negative rule is reported.
def ofRules (rules : List Int) : Except Fault Nat := rules.foldlM setBit 0

theorem xor_lowBit_lt {bits : Nat} (h : bits ≠ 0) : bits ^^^ (lowBit bits).toNat < bits := by
  obtain ⟨n, rfl⟩ := Nat.exists_eq_succ_of_ne_zero h
  have hlow : (lowBit (n + 1 : Nat)).toNat = (n + 1) ^^^ ((n + 1) &&& n) := rfl
  rw [Nat.succ_eq_add_one, hlow, ← Nat.xor_assoc, Nat.xor_self, Nat.zero_xor]
  exact Nat.lt_succ_of_le Nat.and_le_right

-- The rules from the lowest up. The lowest bit is taken out until none is left.
def rules (bits : Nat) : List Nat :=
  if bits = 0 then [] else (width (lowBit bits) - 1) :: rules (bits ^^^ (lowBit bits).toNat)
termination_by bits
decreasing_by exact xor_lowBit_lt ‹_›

-- The same loop over any integer. Below zero there is always another bit that is on, so the
-- loop is given a number of steps.
def listed : Nat → Int → Except Halt (List Nat)
  | 0, _ => .error .outOfFuel
  | steps + 1, bits =>
      if bits = 0 then .ok []
      else return (width (lowBit bits) - 1) :: (← listed steps (either bits (lowBit bits)))

-- How many ones are written in base two. A sign is none.
def size (bits : Int) : Nat := (Nat.toDigits 2 bits.natAbs).count '1'

def has (bits rule : Int) : Except Fault Bool :=
  return decide (both (bits >>> (← bitOf rule)) 1 = 1)

def isSingleton (bits : Int) : Bool := bits ≠ 0 && both bits (bits - 1) = 0

def lowest (bits : Int) : Except Fault Nat :=
  if bits = 0 then .error .emptyDomain else .ok (width (lowBit bits) - 1)

def highest (bits : Int) : Except Fault Nat :=
  if bits = 0 then .error .emptyDomain else .ok (width bits - 1)

-- All rules up to the given one.
def upTo (rule : Int) : Except Fault Int :=
  return (1 <<< (← bitOf (rule + 1))) - 1

-- All rules from the given one on, which are infinitely many.
def onwards (rule : Int) : Except Fault Int :=
  return ~~~((1 <<< (← bitOf rule)) - 1)

end TreeSearch.Bits
