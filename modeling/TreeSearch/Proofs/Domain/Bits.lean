import Mathlib.Data.Finset.Sort
import Mathlib.Data.Int.Bitwise
import TreeSearch.Domain.Bits
import TreeSearch.Proofs.Ascending
import TreeSearch.Proofs.Domain
import TreeSearch.Proofs.Result

namespace TreeSearch

namespace Domain

theorem ofList_rules (d : Domain) : ofList d.rules = d := by
  ext r
  rw [mem_ofList, mem_rules]

theorem rules_ofList (l : List Nat) : (ofList l).rules = l.toFinset.sort := by
  apply (rules_sorted _).eq_of_mem_iff l.toFinset.sortedLT_sort.pairwise
  intro r
  rw [mem_rules, mem_ofList, Finset.mem_sort, List.mem_toFinset]

theorem rules_restrict (d : Domain) (mask : Mask) :
    (d.restrict mask).rules = d.rules.filter (· ∈ mask) := by
  apply (rules_sorted _).eq_of_mem_iff (d.rules_sorted.filter _)
  intro r
  rw [mem_rules, mem_restrict, List.mem_filter, mem_rules, decide_eq_true_eq]

theorem isSingleton_iff_size (d : Domain) : d.isSingleton = true ↔ d.size = 1 := by
  rw [isSingleton_iff, size, List.length_eq_one_iff]
  constructor
  · rintro ⟨r, rfl⟩
    refine ⟨r, (rules_sorted _).eq_of_mem_iff (List.pairwise_singleton _ r) fun q => ?_⟩
    rw [mem_rules, mem_singleton, List.mem_singleton]
  · rintro ⟨r, hr⟩
    refine ⟨r, ext fun q => ?_⟩
    rw [← mem_rules, hr, List.mem_singleton, mem_singleton]

theorem rules_eq_nil_iff (d : Domain) : d.rules = [] ↔ d.isEmpty = true := by
  rw [List.eq_nil_iff_forall_not_mem, isEmpty_iff]
  simp only [mem_rules]

theorem lowest?_eq_head? (d : Domain) : d.lowest? = d.rules.head? := by
  cases h : d.lowest? with
  | none => rw [(rules_eq_nil_iff d).mpr (lowest?_eq_none.mp h), List.head?_nil]
  | some r =>
      obtain ⟨hr, hle⟩ := lowest?_eq_some h
      symm
      apply (List.head?_eq_some_iff_isLeast d.rules_sorted).mpr
      exact ⟨(mem_rules r d).mpr hr, fun q hq => hle q ((mem_rules q d).mp hq)⟩

theorem highest?_eq_getLast? (d : Domain) : d.highest? = d.rules.getLast? := by
  cases h : d.highest? with
  | none => rw [(rules_eq_nil_iff d).mpr (highest?_eq_none.mp h), List.getLast?_nil]
  | some r =>
      obtain ⟨hr, hle⟩ := highest?_eq_some h
      symm
      apply (List.getLast?_eq_some_iff_isGreatest d.rules_sorted).mpr
      exact ⟨(mem_rules r d).mpr hr, fun q hq => hle q ((mem_rules q d).mp hq)⟩

end Domain

namespace Bits

section Both

-- The cases by sign come to the conjunction of all bits.
theorem both_eq_land (a b : Int) : both a b = a.land b := by
  have hdiff (m n : Nat) : m ^^^ (m &&& n) = m.ldiff n := by
    apply Nat.eq_of_testBit_eq
    intro i
    rw [Nat.testBit_ldiff, Nat.testBit_xor, Nat.testBit_and]
    cases m.testBit i <;> cases n.testBit i <;> rfl
  cases a <;> cases b <;> simp [both, Int.land, hdiff]

theorem both_natCast (m n : Nat) : both m n = (m &&& n : Nat) := rfl

theorem both_toInt (d : Domain) (mask : Mask) :
    both d.bits mask.toInt = (d.restrict mask).bits := by
  cases mask <;> rfl

end Both

section Rules

theorem lowBit_eq (bits : Int) : lowBit bits = Domain.lowBit bits.natAbs := by
  cases bits with
  | ofNat n => cases n <;> rfl
  | negSucc n => rfl

theorem width_eq {bits : Int} (h : bits ≠ 0) : width bits = bits.natAbs.log2 + 1 := if_neg h

theorem exists_lowBit_eq {bits : Nat} (h : bits ≠ 0) :
    ∃ k, lowBit bits = (2 ^ k : Nat) ∧ width (lowBit bits) = k + 1 ∧ bits.testBit k = true ∧
      ∀ i < k, bits.testBit i = false := by
  obtain ⟨k, hk, hon, hoff⟩ := Domain.lowBit_spec bits h
  have hlow : lowBit bits = (2 ^ k : Nat) := by rw [lowBit_eq, Int.natAbs_natCast, hk]
  have hpos := Nat.two_pow_pos k
  refine ⟨k, hlow, ?_, hon, hoff⟩
  rw [hlow, width_eq (by omega), Int.natAbs_natCast, Nat.log2_two_pow]

-- The loop takes out the lowest rule that is left, so the ones after it are higher.
theorem rules_spec (bits : Nat) :
    (rules bits).Pairwise (· < ·) ∧ ∀ r, r ∈ rules bits ↔ bits.testBit r = true := by
  induction bits using rules.induct with
  | case1 => simp [rules]
  | case2 bits h ih =>
      obtain ⟨k, hlow, hwidth, hon, hoff⟩ := exists_lowBit_eq h
      have hrest (r : Nat) : (bits ^^^ 2 ^ k).testBit r = true ↔ bits.testBit r = true ∧ r ≠ k := by
        rw [Nat.testBit_xor, Nat.testBit_two_pow]
        by_cases hr : r = k
        · subst hr
          simp [hon]
        · simp [hr, Ne.symm hr]
      rw [hlow, Int.toNat_natCast] at ih
      obtain ⟨hsorted, hmem⟩ := ih
      rw [rules, if_neg h, hwidth, hlow, Int.toNat_natCast, Nat.add_sub_cancel]
      constructor
      · refine List.pairwise_cons.mpr ⟨fun r hr => ?_, hsorted⟩
        obtain ⟨hr, hne⟩ := (hrest r).mp ((hmem r).mp hr)
        have hle : ¬ r < k := fun hlt => by simp [hoff r hlt] at hr
        omega
      · intro r
        rw [List.mem_cons, hmem, hrest]
        by_cases hr : r = k
        · subst hr
          simp [hon]
        · simp [hr]

theorem rules_eq (bits : Nat) : rules bits = (⟨bits⟩ : Domain).rules := by
  obtain ⟨hsorted, hmem⟩ := rules_spec bits
  apply hsorted.eq_of_mem_iff (Domain.rules_sorted _)
  intro r
  rw [hmem, Domain.mem_rules, Domain.mem_def]

-- From zero up the loop lists the same rules, and it ends as every bit taken out leaves less.
theorem listed_natCast {steps bits : Nat} (h : bits < steps) : listed steps bits = .ok (rules bits) := by
  induction steps generalizing bits with
  | zero => omega
  | succ steps ih =>
      rw [listed, rules]
      by_cases hzero : bits = 0
      · rw [if_pos hzero, if_pos (by omega)]
      · obtain ⟨k, hlow, -⟩ := exists_lowBit_eq hzero
        have hrest : either bits (lowBit bits) = ((bits ^^^ (lowBit bits).toNat : Nat) : Int) := by
          rw [hlow]
          rfl
        rw [if_neg (by omega), if_neg hzero, hrest, ih (by have := xor_lowBit_lt hzero; omega)]
        rfl

-- Below zero what is left stays below zero.
theorem listed_of_neg {bits : Int} (h : bits < 0) (steps : Nat) : listed steps bits = .error .outOfFuel := by
  induction steps generalizing bits with
  | zero => rfl
  | succ steps ih =>
      obtain ⟨m, rfl⟩ := Int.eq_negSucc_of_lt_zero h
      have hrest : either (.negSucc m) (lowBit (.negSucc m)) < 0 :=
        Int.negSucc_lt_zero (m ^^^ ((m + 1) ^^^ ((m + 1) &&& m)))
      rw [listed, if_neg (Int.negSucc_ne_zero m), ih hrest]
      rfl

end Rules

section Size

-- By induction on the number of bits: the last digit is the lowest bit, and the digits before it
-- are those of the half.
theorem count_toDigits {n width : Nat} (h : n < 2 ^ width) :
    (Nat.toDigits 2 n).count '1' = (List.range width).countP n.testBit := by
  induction width generalizing n with
  | zero =>
      obtain rfl : n = 0 := by simpa using h
      rfl
  | succ width ih =>
      have hhalf : n / 2 < 2 ^ width := by
        rw [Nat.pow_succ] at h
        omega
      have hlowest : [(n % 2).digitChar].count '1' = if n.testBit 0 then 1 else 0 := by
        obtain hn | hn : n % 2 = 0 ∨ n % 2 = 1 := by omega
        · simp [Nat.testBit_zero, hn, Nat.digitChar]
        · simp [Nat.testBit_zero, hn, Nat.digitChar]
      have hdigits : (Nat.toDigits 2 n).count '1' =
          (Nat.toDigits 2 (n / 2)).count '1' + [(n % 2).digitChar].count '1' := by
        by_cases hn : 2 ≤ n
        · rw [Nat.toDigits_of_base_le (by omega) hn, List.count_append]
        · have hzero : n / 2 = 0 := by omega
          have hself : n % 2 = n := by omega
          rw [Nat.toDigits_of_lt_base (by omega), hzero, hself]
          exact (Nat.zero_add _).symm
      rw [hdigits, ih hhalf, hlowest, List.range_succ_eq_map, List.countP_cons, List.countP_map]
      congr 2
      funext i
      simp [Nat.testBit_succ]

theorem magnitude_ofInt (bits : Int) : (Mask.ofInt bits).magnitude = ⟨bits.natAbs⟩ := by
  cases bits <;> rfl

theorem size_eq (bits : Int) : size bits = (Mask.ofInt bits).size := by
  rw [size, count_toDigits Nat.lt_log2_self, Mask.size, magnitude_ofInt, Domain.size,
    Domain.rules_eq, List.countP_eq_length_filter]

theorem isSingleton_eq (bits : Int) : isSingleton bits = (Mask.ofInt bits).isSingleton := by
  cases bits with
  | ofNat n =>
      cases n with
      | zero => rfl
      | succ n =>
          have hpred : ((n + 1 : Nat) : Int) - 1 = n := by omega
          show isSingleton ((n + 1 : Nat) : Int) = (⟨n + 1⟩ : Domain).isSingleton
          simp only [isSingleton, hpred, both_natCast, Domain.isSingleton, Nat.add_sub_cancel,
            Int.natCast_eq_zero, ne_eq]
  | negSucc n =>
      have hpred : Int.negSucc n - 1 = Int.negSucc (n + 1) := by omega
      simp [isSingleton, hpred, both, Mask.ofInt, Mask.isSingleton]

theorem width_sub_one (bits : Int) : width bits - 1 = bits.natAbs.log2 := by
  unfold width
  split
  · subst bits
    rfl
  · rfl

theorem lowest_eq (bits : Int) : lowest bits = (Mask.ofInt bits).lowest := by
  rw [Mask.lowest, Mask.lowest?, magnitude_ofInt, Domain.lowest?, lowest, width_sub_one, lowBit_eq]
  by_cases h : bits = 0
  · subst h
    rfl
  · rw [if_neg h, if_neg (by simpa using h)]
    rfl

theorem highest_eq (bits : Int) : highest bits = (Mask.ofInt bits).highest := by
  rw [Mask.highest, Mask.highest?, magnitude_ofInt, Domain.highest?, highest, width_sub_one]
  by_cases h : bits = 0
  · subst h
    rfl
  · rw [if_neg h, if_neg (by simpa using h)]

end Size

section Checked

theorem both_one (bits : Int) : both bits 1 = bits % 2 := by
  cases bits with
  | ofNat n =>
      show ((n &&& 1 : Nat) : Int) = (n : Int) % 2
      rw [Nat.and_one_is_mod]
      rfl
  | negSucc n =>
      show ((1 ^^^ (1 &&& n) : Nat) : Int) = Int.negSucc n % 2
      rw [Nat.and_comm, Nat.and_one_is_mod]
      obtain hn | hn : n % 2 = 0 ∨ n % 2 = 1 := by omega
      · rw [hn, Nat.xor_zero]
        omega
      · rw [hn, Nat.xor_self]
        omega

-- A bit is read by moving it to the lowest place.
theorem both_shiftRight_eq_one (bits : Int) (r : Nat) :
    both (bits >>> r) 1 = 1 ↔ r ∈ Mask.ofInt bits := by
  rw [both_one, Int.shiftRight_eq_div_pow, Mask.mem_ofInt, Nat.cast_pow, Nat.cast_ofNat]

theorem has_eq (bits rule : Int) : has bits rule = (Mask.ofInt bits).has rule := by
  rw [has, Mask.has]
  congr 1
  funext r
  simp only [both_shiftRight_eq_one]

theorem shiftLeft_sub_one (n : Nat) : ((1 <<< n : Nat) : Int) - 1 = (Domain.below n).bits := by
  have hpos : 0 < 1 <<< n := by
    rw [Nat.one_shiftLeft]
    exact Nat.two_pow_pos n
  show ((1 <<< n : Nat) : Int) - 1 = ((1 <<< n - 1 : Nat) : Int)
  omega

theorem upTo_eq (rule : Int) : upTo rule = Mask.toInt <$> Mask.upTo rule := by
  rw [upTo, Mask.upTo]
  cases bitOf (rule + 1) with
  | error fault => rfl
  | ok n => exact congrArg Except.ok (shiftLeft_sub_one n)

theorem onwards_eq (rule : Int) : onwards rule = Mask.toInt <$> Mask.onwards rule := by
  rw [onwards, Mask.onwards]
  cases bitOf rule with
  | error fault => rfl
  | ok n =>
      rw [Except.ok_bind, shiftLeft_sub_one]
      rfl

theorem foldlM_setBit (d : Domain) (rules : List Int) : rules.foldlM setBit d.bits =
    (fun indices : List Nat => (indices.foldl (fun d r => d ∪ {r}) d).bits) <$> Domain.indices rules := by
  induction rules generalizing d with
  | nil => rfl
  | cons rule rules ih =>
      rw [List.foldlM_cons, setBit, Domain.indices]
      by_cases hneg : rule < 0
      · rw [if_pos hneg, if_neg (by omega)]
        rfl
      · rw [if_neg hneg, if_pos (by omega), Except.ok_bind]
        refine (ih (d ∪ {rule.toNat})).trans ?_
        cases Domain.indices rules <;> rfl

theorem ofRules_eq (rules : List Int) : ofRules rules = Domain.bits <$> Domain.ofRules rules := by
  refine (foldlM_setBit ∅ rules).trans ?_
  rw [Domain.ofRules]
  cases Domain.indices rules <;> rfl

end Checked

section Sets

variable (d : Nat)

theorem ofRules_natCast (listed : List Nat) :
    ofRules (listed.map Nat.cast) = .ok (Domain.ofList listed).bits := by
  have hnonneg : ∀ r ∈ listed.map (Nat.cast : Nat → Int), 0 ≤ r := by
    intro r hr
    obtain ⟨n, -, rfl⟩ := List.mem_map.mp hr
    exact Int.natCast_nonneg n
  have hsame : (listed.map (Nat.cast : Nat → Int)).map Int.toNat = listed := by
    simp [Function.comp_def]
  rw [ofRules_eq, Domain.ofRules_eq_ok hnonneg, hsame]
  rfl

theorem has_natCast (r : Nat) : has d r = .ok (decide (r ∈ rules d)) := by
  rw [has_eq, Mask.has_natCast, rules_eq]
  simp only [Domain.mem_rules]
  rfl

theorem size_natCast : size d = (rules d).length := by
  rw [size_eq, rules_eq]
  rfl

theorem isSingleton_natCast : isSingleton d = true ↔ (rules d).length = 1 := by
  rw [isSingleton_eq, rules_eq]
  exact Domain.isSingleton_iff_size ⟨d⟩

theorem lowest_natCast : lowest d = (rules d).head?.elim (.error .emptyDomain) .ok := by
  rw [lowest_eq, Mask.lowest, Mask.lowest?, magnitude_ofInt, Int.natAbs_natCast,
    Domain.lowest?_eq_head?, rules_eq]
  cases (⟨d⟩ : Domain).rules.head? <;> rfl

theorem highest_natCast : highest d = (rules d).getLast?.elim (.error .emptyDomain) .ok := by
  rw [highest_eq, Mask.highest, Mask.highest?, magnitude_ofInt, Int.natAbs_natCast,
    Domain.highest?_eq_getLast?, rules_eq]
  cases (⟨d⟩ : Domain).rules.getLast? <;> rfl

-- What a mask leaves of a set is a set, whatever the sign of the mask.
theorem land_mask (mask : Mask) :
    ∃ kept : Nat, (d : Int).land mask.toInt = kept ∧ rules kept = (rules d).filter (· ∈ mask) := by
  refine ⟨((⟨d⟩ : Domain).restrict mask).bits, ?_, ?_⟩
  · rw [← both_eq_land]
    exact both_toInt ⟨d⟩ mask
  · rw [rules_eq, rules_eq]
    exact Domain.rules_restrict ⟨d⟩ mask

theorem upTo_natCast (r : Nat) : upTo r = .ok (Mask.below (r + 1)).toInt := by
  rw [upTo_eq, Mask.upTo_eq_ok (by omega)]
  rfl

theorem onwards_natCast (r : Nat) : onwards r = .ok (Mask.atLeast r).toInt := by
  rw [onwards_eq, Mask.onwards_eq_ok (by omega)]
  rfl

-- A number from zero up stands for a finite set of rules. Any list of rules makes one, and the
-- loop takes it apart into the sorted list without repetitions, which tells the members, their
-- number and the extremes. A mask leaves the rules on its side, also one that is negative.
theorem represents_sets (listed : List Nat) (r : Nat) :
    (∃ bits, ofRules (listed.map Nat.cast) = .ok bits ∧ rules bits = listed.toFinset.sort) ∧
    ofRules ((rules d).map Nat.cast) = .ok d ∧
    (rules d).Pairwise (· < ·) ∧
    (∀ q : Nat, q ∈ rules d ↔ has d q = .ok true) ∧
    size d = (rules d).length ∧
    (isSingleton d = true ↔ (rules d).length = 1) ∧
    lowest d = (rules d).head?.elim (.error .emptyDomain) .ok ∧
    highest d = (rules d).getLast?.elim (.error .emptyDomain) .ok ∧
    (∃ (mask : Int) (kept : Nat), upTo r = .ok mask ∧ (d : Int).land mask = kept ∧
      rules kept = (rules d).filter (· ≤ r)) ∧
    ∃ (mask : Int) (kept : Nat), onwards r = .ok mask ∧ mask < 0 ∧
      (d : Int).land mask = kept ∧ rules kept = (rules d).filter (r ≤ ·) := by
  refine ⟨⟨_, ofRules_natCast listed, ?_⟩, ?_, (rules_spec d).1, ?_, size_natCast d,
    isSingleton_natCast d, lowest_natCast d, highest_natCast d, ?_, ?_⟩
  · rw [rules_eq]
    exact Domain.rules_ofList listed
  · rw [ofRules_natCast, rules_eq, Domain.ofList_rules]
  · intro q
    rw [has_natCast, Except.ok.injEq, decide_eq_true_eq]
  · obtain ⟨kept, hkept, hrules⟩ := land_mask d (Mask.below (r + 1))
    refine ⟨_, kept, upTo_natCast r, hkept, hrules.trans (List.filter_congr fun q _ => ?_)⟩
    rw [decide_eq_decide, Mask.mem_below, Nat.lt_succ_iff]
  · obtain ⟨kept, hkept, hrules⟩ := land_mask d (Mask.atLeast r)
    refine ⟨_, kept, onwards_natCast r, Int.negSucc_lt_zero _, hkept,
      hrules.trans (List.filter_congr fun q _ => ?_)⟩
    rw [decide_eq_decide, Mask.mem_atLeast]

end Sets

end Bits

end TreeSearch
