namespace TreeSearch

-- Finite sets of rule indices, stored as bit patterns: index r belongs to the
-- set when bit r is on. Patterns are unbounded, so any grammar fits.
structure Domain where
  bits : Nat
  deriving DecidableEq

namespace Domain

instance : Membership Nat Domain := ⟨fun d r => d.bits.testBit r = true⟩

instance (r : Nat) (d : Domain) : Decidable (r ∈ d) :=
  inferInstanceAs (Decidable (d.bits.testBit r = true))

instance : EmptyCollection Domain := ⟨⟨0⟩⟩
instance : Singleton Nat Domain := ⟨fun r => ⟨1 <<< r⟩⟩
instance : Union Domain := ⟨fun d e => ⟨d.bits ||| e.bits⟩⟩
instance : Inter Domain := ⟨fun d e => ⟨d.bits &&& e.bits⟩⟩

-- Bits that are on in both patterns cancel, which leaves those of the first alone.
instance : SDiff Domain := ⟨fun d e => ⟨d.bits ^^^ (d.bits &&& e.bits)⟩⟩

theorem mem_def (r : Nat) (d : Domain) : r ∈ d ↔ d.bits.testBit r = true := Iff.rfl

@[ext]
theorem ext {d e : Domain} (h : ∀ r, r ∈ d ↔ r ∈ e) : d = e := by
  obtain ⟨m⟩ := d
  obtain ⟨n⟩ := e
  have hb : m = n := Nat.eq_of_testBit_eq fun r => Bool.eq_iff_iff.mpr (h r)
  rw [hb]

@[simp]
theorem not_mem_empty (r : Nat) : r ∉ (∅ : Domain) := by
  simp [mem_def, EmptyCollection.emptyCollection]

@[simp]
theorem mem_singleton (r s : Nat) : r ∈ ({s} : Domain) ↔ r = s := by
  simp [mem_def, Singleton.singleton, Nat.one_shiftLeft, Nat.testBit_two_pow, eq_comm]

@[simp]
theorem mem_union (r : Nat) (d e : Domain) : r ∈ d ∪ e ↔ r ∈ d ∨ r ∈ e := by
  simp [mem_def, Union.union]

@[simp]
theorem mem_inter (r : Nat) (d e : Domain) : r ∈ d ∩ e ↔ r ∈ d ∧ r ∈ e := by
  simp [mem_def, Inter.inter]

@[simp]
theorem mem_sdiff (r : Nat) (d e : Domain) : r ∈ d \ e ↔ r ∈ d ∧ r ∉ e := by
  cases hd : d.bits.testBit r <;> cases he : e.bits.testBit r <;>
    simp [mem_def, SDiff.sdiff, hd, he]

-- The members of a pattern from the highest down, each put in front of those found before.
def descend : Nat → Nat → List Nat → List Nat
  | 0, _, found => found
  | steps + 1, bits, found =>
      if bits = 0 then found
      else descend steps (bits ^^^ 1 <<< bits.log2) (bits.log2 :: found)

-- The indices in ascending order. There are no more of them than bits.
def rules (d : Domain) : List Nat := descend (d.bits.log2 + 1) d.bits []

theorem descend_eq (n steps bits : Nat) (found : List Nat) (hb : bits < 1 <<< n)
    (hs : n ≤ steps) :
    descend steps bits found = (List.range n).filter bits.testBit ++ found := by
  rw [Nat.one_shiftLeft] at hb
  induction n generalizing steps bits found with
  | zero =>
      have h0 : bits = 0 := by simpa using hb
      subst h0
      cases steps <;> rfl
  | succ n ih =>
      by_cases hn : bits < 2 ^ n
      · rw [ih _ _ _ hn (by omega), List.range_succ, List.filter_append]
        simp [Nat.testBit_lt_two_pow hn]
      · have h0 : bits ≠ 0 := by
          have := Nat.two_pow_pos n
          omega
        have hlog : bits.log2 = n := (Nat.log2_eq_iff h0).mpr ⟨by omega, hb⟩
        have htop : bits.testBit n = true := hlog ▸ Nat.testBit_log2 h0
        have hrest : bits ^^^ 2 ^ n < 2 ^ n := by
          apply Nat.lt_pow_two_of_testBit
          intro i hi
          rcases Nat.lt_or_eq_of_le hi with hlt | rfl
          · have hlow : bits < 2 ^ i := Nat.lt_of_lt_of_le hb (Nat.pow_le_pow_right (by omega) hlt)
            simp [Nat.testBit_lt_two_pow hlow, Nat.ne_of_lt hlt]
          · simp [htop]
        have hsame : (List.range n).filter (bits ^^^ 2 ^ n).testBit =
            (List.range n).filter bits.testBit := by
          apply List.filter_congr
          intro i hi
          have hne : n ≠ i := Nat.ne_of_gt (List.mem_range.mp hi)
          simp [hne]
        obtain ⟨steps, rfl⟩ : ∃ k, steps = k + 1 := ⟨steps - 1, by omega⟩
        rw [descend, if_neg h0, hlog, Nat.one_shiftLeft, ih _ _ _ hrest (by omega), hsame, List.range_succ,
          List.filter_append]
        simp [htop]

theorem rules_eq (d : Domain) :
    d.rules = (List.range (d.bits.log2 + 1)).filter d.bits.testBit := by
  have hb : d.bits < 1 <<< (d.bits.log2 + 1) := by
    rw [Nat.one_shiftLeft]
    exact Nat.lt_log2_self
  rw [rules, descend_eq _ _ _ _ hb (Nat.le_refl _), List.append_nil]

@[simp]
theorem mem_rules (r : Nat) (d : Domain) : r ∈ d.rules ↔ r ∈ d := by
  rw [rules_eq, List.mem_filter, List.mem_range, mem_def]
  constructor
  · exact And.right
  · intro h
    refine ⟨Nat.lt_of_not_le fun hle => ?_, h⟩
    have hlt : d.bits < 2 ^ r :=
      Nat.lt_of_lt_of_le Nat.lt_log2_self (Nat.pow_le_pow_right (by omega) hle)
    rw [Nat.testBit_lt_two_pow hlt] at h
    exact Bool.noConfusion h

def ofList (rules : List Nat) : Domain :=
  rules.foldl (fun d r => d ∪ {r}) ∅

-- All indices smaller than n.
def below (n : Nat) : Domain := ⟨1 <<< n - 1⟩

-- The members for which the test holds.
def filter (keep : Nat → Bool) (d : Domain) : Domain :=
  ofList (d.rules.filter keep)

def size (d : Domain) : Nat := d.rules.length

-- Taking one off a positive number clears its lowest bit and sets the ones below,
-- so the two have no bit in common exactly when there was only one.
def isSingleton (d : Domain) : Bool :=
  d.bits ≠ 0 && d.bits &&& (d.bits - 1) = 0

-- Clearing the lowest bit that is on and comparing with the pattern before leaves that
-- bit alone.
def lowest? (d : Domain) : Option Nat :=
  if d.bits = 0 then none else some (d.bits ^^^ (d.bits &&& (d.bits - 1))).log2

def highest? (d : Domain) : Option Nat :=
  if d.bits = 0 then none else some d.bits.log2

-- The only member of a one-element set.
def sole? (d : Domain) : Option Nat :=
  if d.isSingleton then d.lowest? else none

def isEmpty (d : Domain) : Bool := d.bits = 0

end Domain

end TreeSearch
