import TreeSearch.Domain.Basic

namespace TreeSearch

-- Sets of rule indices that are finite or have a finite complement. Read as a
-- two's complement integer of unbounded width, a finite set is not negative and
-- the complement of one is.
inductive Mask where
  | only (domain : Domain)
  | except (domain : Domain)
  deriving DecidableEq

namespace Mask

instance : Membership Nat Mask where
  mem mask r := match mask with
    | only d => r ∈ d
    | except d => r ∉ d

instance (r : Nat) : (mask : Mask) → Decidable (r ∈ mask)
  | only d => inferInstanceAs (Decidable (r ∈ d))
  | except d => inferInstanceAs (Decidable (r ∉ d))

def ofInt : Int → Mask
  | .ofNat n => only ⟨n⟩
  | .negSucc n => except ⟨n⟩

def toInt : Mask → Int
  | only d => .ofNat d.bits
  | except d => .negSucc d.bits

-- All indices smaller than n.
def below (n : Nat) : Mask := only (Domain.below n)

-- All indices that are n or larger.
def atLeast (n : Nat) : Mask := except (Domain.below n)

-- The one bits of the absolute value of the integer that stands for the set.
def magnitude : Mask → Domain
  | only d => d
  | except d => ⟨d.bits + 1⟩

def size (mask : Mask) : Nat := mask.magnitude.size

def lowest? (mask : Mask) : Option Nat := mask.magnitude.lowest?

def highest? (mask : Mask) : Option Nat := mask.magnitude.highest?

-- A set with a finite complement has more than one member.
def isSingleton : Mask → Bool
  | only d => d.isSingleton
  | except _ => false

end Mask

-- The members of a finite set that a mask lets through.
def Domain.restrict (d : Domain) : Mask → Domain
  | .only e => d ∩ e
  | .except e => d \ e

@[simp]
theorem Domain.mem_restrict (r : Nat) (d : Domain) (mask : Mask) :
    r ∈ d.restrict mask ↔ r ∈ d ∧ r ∈ mask := by
  cases mask with
  | only e => exact Domain.mem_inter r d e
  | except e => exact Domain.mem_sdiff r d e

end TreeSearch
