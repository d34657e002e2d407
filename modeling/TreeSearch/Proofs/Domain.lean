import Mathlib.Data.List.Perm.Subperm
import Mathlib.Data.Nat.Bitwise
import TreeSearch.Domain.Checked
import TreeSearch.Domain.Mask

namespace TreeSearch.Domain

theorem mem_ofList (l : List Nat) (r : Nat) : r ∈ ofList l ↔ r ∈ l := by
  have h (l : List Nat) (d : Domain) :
      r ∈ l.foldl (fun d r => d ∪ {r}) d ↔ r ∈ d ∨ r ∈ l := by
    induction l generalizing d with
    | nil => simp
    | cons q l ih => simp [ih, or_assoc]
  simp [ofList, h]

@[simp]
theorem mem_filter (d : Domain) (keep : Nat → Bool) (r : Nat) :
    r ∈ d.filter keep ↔ r ∈ d ∧ keep r = true := by
  simp [filter, mem_ofList]

@[simp]
theorem mem_below (n r : Nat) : r ∈ below n ↔ r < n := by
  rw [mem_def, below, Nat.one_shiftLeft, Nat.testBit_two_pow_sub_one, decide_eq_true_eq]

theorem isEmpty_iff (d : Domain) : d.isEmpty = true ↔ ∀ r, r ∉ d := by
  constructor
  · intro h r
    have hb : d.bits = 0 := by simpa [isEmpty] using h
    simp [mem_def, hb]
  · intro h
    have hb : d.bits = 0 := Nat.eq_of_testBit_eq fun i => by simpa [mem_def] using h i
    simp [isEmpty, hb]

theorem isEmpty_eq_false_iff (d : Domain) : d.isEmpty = false ↔ ∃ r, r ∈ d := by
  rw [← Bool.not_eq_true, isEmpty_iff]
  simp

theorem isEmpty_sdiff (d e : Domain) : (d \ e).isEmpty = true ↔ ∀ r ∈ d, r ∈ e := by
  simp [isEmpty_iff]

-- The lowest bit that is on, with the bits that are left without it.
def lowBit (n : Nat) : Nat := n ^^^ (n &&& (n - 1))

theorem testBit_lowBit (n i : Nat) :
    (lowBit n).testBit i = (n.testBit i ^^ (n.testBit i && (n - 1).testBit i)) := by
  rw [lowBit, Nat.testBit_xor, Nat.testBit_and]

theorem lowBit_odd (m : Nat) : lowBit (2 * m + 1) = 1 := by
  apply Nat.eq_of_testBit_eq
  intro i
  rw [testBit_lowBit]
  cases i with
  | zero => simp [Nat.testBit_zero]
  | succ i =>
      have h : (2 * m + 1) / 2 = m := by omega
      simp [Nat.testBit_succ, h]

theorem lowBit_even (m : Nat) : lowBit (2 * m) = 2 * lowBit m := by
  apply Nat.eq_of_testBit_eq
  intro i
  rw [testBit_lowBit]
  cases i with
  | zero => simp [Nat.testBit_zero]
  | succ i =>
      have h : (2 * m - 1) / 2 = m - 1 := by omega
      simp [Nat.testBit_succ, testBit_lowBit, h]

theorem lowBit_spec (n : Nat) (hn : n ≠ 0) :
    ∃ k, lowBit n = 2 ^ k ∧ n.testBit k = true ∧ ∀ i < k, n.testBit i = false := by
  induction n using Nat.strong_induction_on with
  | _ n ih =>
      rcases Nat.even_or_odd' n with ⟨m, rfl | rfl⟩
      · have hm : m ≠ 0 := by omega
        obtain ⟨k, hk, ht, hl⟩ := ih m (by omega) hm
        refine ⟨k + 1, ?_, by simpa [Nat.testBit_succ] using ht, ?_⟩
        · rw [lowBit_even m, hk, Nat.pow_succ, Nat.mul_comm]
        · intro i hi
          cases i with
          | zero => simp [Nat.testBit_zero]
          | succ i => simpa [Nat.testBit_succ] using hl i (by omega)
      · exact ⟨0, lowBit_odd m, by simp [Nat.testBit_zero], nofun⟩

theorem lowest?_eq_some {d : Domain} {r : Nat} (h : d.lowest? = some r) :
    r ∈ d ∧ ∀ q ∈ d, r ≤ q := by
  unfold lowest? at h
  split at h
  · cases h
  · rename_i hd
    obtain ⟨k, hk, ht, hl⟩ := lowBit_spec d.bits hd
    have hr : r = k := by
      have := Option.some.inj h
      rw [← this, ← lowBit, hk, Nat.log2_two_pow]
    subst hr
    refine ⟨ht, fun q hq => Nat.le_of_not_lt fun hlt => ?_⟩
    rw [mem_def, hl q hlt] at hq
    cases hq

theorem lowest?_eq_none {d : Domain} : d.lowest? = none ↔ d.isEmpty = true := by
  simp [lowest?, isEmpty]

theorem highest?_eq_some {d : Domain} {r : Nat} (h : d.highest? = some r) :
    r ∈ d ∧ ∀ q ∈ d, q ≤ r := by
  unfold highest? at h
  split at h
  · cases h
  · rename_i hd
    cases h
    refine ⟨Nat.testBit_log2 hd, fun q hq => Nat.le_of_not_lt fun hlt => ?_⟩
    have hb : d.bits < 2 ^ q :=
      Nat.lt_of_lt_of_le Nat.lt_log2_self (Nat.pow_le_pow_right (by omega) hlt)
    rw [mem_def, Nat.testBit_lt_two_pow hb] at hq
    cases hq

theorem highest?_eq_none {d : Domain} : d.highest? = none ↔ d.isEmpty = true := by
  simp [highest?, isEmpty]

theorem singleton_inj {n m : Nat} (h : ({n} : Domain) = {m}) : n = m :=
  (mem_singleton n m).mp (h ▸ (mem_singleton n n).mpr rfl)

theorem isSingleton_iff (d : Domain) : d.isSingleton = true ↔ ∃ r, d = {r} := by
  constructor
  · intro h
    simp only [isSingleton, ne_eq, Bool.and_eq_true, decide_eq_true_eq] at h
    obtain ⟨hd, hz⟩ := h
    obtain ⟨k, hk, -, -⟩ := lowBit_spec d.bits hd
    refine ⟨k, ?_⟩
    have hb : d.bits = 1 <<< k := by simpa [lowBit, hz, Nat.one_shiftLeft] using hk
    cases d
    exact congrArg Domain.mk hb
  · rintro ⟨r, rfl⟩
    have hb : (2 ^ r &&& (2 ^ r - 1) : Nat) = 0 := by
      apply Nat.eq_of_testBit_eq
      intro i
      simp only [Nat.testBit_and, Nat.testBit_two_pow, Nat.testBit_two_pow_sub_one,
        Nat.zero_testBit, Bool.and_eq_false_iff, decide_eq_false_iff_not]
      omega
    have hp : (2 ^ r : Nat) ≠ 0 := by
      have := Nat.two_pow_pos r
      omega
    simp [isSingleton, Singleton.singleton, Nat.one_shiftLeft, hb]

theorem sole?_eq_some (d : Domain) (r : Nat) : d.sole? = some r ↔ d = {r} := by
  constructor
  · intro h
    unfold sole? at h
    split at h
    · rename_i hs
      obtain ⟨q, rfl⟩ := (isSingleton_iff d).mp hs
      rw [(mem_singleton r q).mp (lowest?_eq_some h).1]
    · cases h
  · rintro rfl
    have hs : ({r} : Domain).isSingleton = true := (isSingleton_iff _).mpr ⟨r, rfl⟩
    unfold sole?
    rw [if_pos hs]
    cases hl : ({r} : Domain).lowest? with
    | none =>
        have := (isEmpty_iff _).mp (lowest?_eq_none.mp hl) r
        simp at this
    | some q => rw [(mem_singleton q r).mp (lowest?_eq_some hl).1]

theorem rules_nodup (d : Domain) : d.rules.Nodup := by
  rw [rules_eq]
  exact List.nodup_range.filter _

theorem rules_sorted (d : Domain) : d.rules.Pairwise (· < ·) := by
  rw [rules_eq]
  exact List.pairwise_lt_range.filter _

theorem size_lt_of_subset {d e : Domain} (hsub : ∀ r ∈ d, r ∈ e) (hne : d ≠ e) :
    d.size < e.size := by
  have hs : d.rules ⊆ e.rules := fun r h => (mem_rules r e).mpr (hsub r ((mem_rules r d).mp h))
  have hle : d.rules.length ≤ e.rules.length := (List.subperm_of_subset d.rules_nodup hs).length_le
  refine Nat.lt_of_le_of_ne hle fun he => hne ?_
  have hp : d.rules.Perm e.rules :=
    (List.subperm_of_subset d.rules_nodup hs).perm_of_length_le (Nat.le_of_eq he.symm)
  exact ext fun r => by rw [← mem_rules r d, ← mem_rules r e, hp.mem_iff]

theorem size_le_of_lt {d : Domain} {n : Nat} (h : ∀ r ∈ d, r < n) : d.size ≤ n := by
  have hs : d.rules ⊆ List.range n := fun r hr => List.mem_range.mpr (h r ((mem_rules r d).mp hr))
  simpa [size] using (List.subperm_of_subset d.rules_nodup hs).length_le

theorem restrict_subset (d : Domain) (mask : Mask) : ∀ r ∈ d.restrict mask, r ∈ d :=
  fun r h => ((mem_restrict r d mask).mp h).1

theorem single_natCast (n : Nat) : single (n : Int) = .ok {n} := by
  simp [single, bitOf]

theorem single_eq_error {rule : Int} (h : rule < 0) : single rule = .error .negativeShift := by
  rw [single, bitOf, if_neg (by omega)]
  rfl

theorem has_natCast (d : Domain) (n : Nat) : d.has (n : Int) = .ok (decide (n ∈ d)) := by
  simp [has, bitOf]

theorem indices_eq_ok {rules : List Int} (h : ∀ r ∈ rules, 0 ≤ r) :
    indices rules = .ok (rules.map Int.toNat) := by
  induction rules with
  | nil => rfl
  | cons rule rules ih =>
      rw [indices, if_pos (h rule List.mem_cons_self), ih fun r hr => h r (List.mem_cons_of_mem rule hr)]
      rfl

theorem ofRules_eq_ok {rules : List Int} (h : ∀ r ∈ rules, 0 ≤ r) :
    ofRules rules = .ok (ofList (rules.map Int.toNat)) := by
  rw [ofRules, indices_eq_ok h]
  rfl

theorem ofRules_eq_error {rules : List Int} (h : ∃ r ∈ rules, r < 0) :
    ∃ r ∈ rules, r < 0 ∧ ofRules rules = .error (.negativeRule r) := by
  suffices hi : ∃ r ∈ rules, r < 0 ∧ indices rules = .error (.negativeRule r) by
    obtain ⟨r, hr, hneg, he⟩ := hi
    refine ⟨r, hr, hneg, ?_⟩
    rw [ofRules, he]
    rfl
  induction rules with
  | nil => simp at h
  | cons rule rules ih =>
      by_cases hrule : 0 ≤ rule
      · obtain ⟨r, hr, hneg⟩ := h
        have hr : r ∈ rules := (List.mem_cons.mp hr).resolve_left (by omega)
        obtain ⟨q, hq, hqneg, he⟩ := ih ⟨r, hr, hneg⟩
        refine ⟨q, List.mem_cons_of_mem rule hq, hqneg, ?_⟩
        rw [indices, if_pos hrule, he]
        rfl
      · refine ⟨rule, List.mem_cons_self, by omega, ?_⟩
        rw [indices, if_neg hrule]

end TreeSearch.Domain

namespace TreeSearch.Mask

theorem has_natCast (mask : Mask) (n : Nat) : mask.has (n : Int) = .ok (decide (n ∈ mask)) := by
  simp [Mask.has, bitOf]

theorem mem_below (n r : Nat) : r ∈ below n ↔ r < n := Domain.mem_below n r

theorem mem_atLeast (n r : Nat) : r ∈ atLeast n ↔ n ≤ r := by
  show r ∉ Domain.below n ↔ n ≤ r
  rw [Domain.mem_below, Nat.not_lt]

theorem upTo_eq_ok {rule : Int} (h : -1 ≤ rule) : upTo rule = .ok (below (rule + 1).toNat) := by
  rw [upTo, bitOf, if_pos (by omega)]
  rfl

theorem upTo_eq_error {rule : Int} (h : rule < -1) : upTo rule = .error .negativeShift := by
  rw [upTo, bitOf, if_neg (by omega)]
  rfl

theorem onwards_eq_ok {rule : Int} (h : 0 ≤ rule) : onwards rule = .ok (atLeast rule.toNat) := by
  rw [onwards, bitOf, if_pos h]
  rfl

theorem onwards_eq_error {rule : Int} (h : rule < 0) : onwards rule = .error .negativeShift := by
  rw [onwards, bitOf, if_neg (by omega)]
  rfl

-- An integer keeps the rules whose bits it has in two's complement.
theorem mem_ofInt (bits : Int) (r : Nat) : r ∈ ofInt bits ↔ bits / 2 ^ r % 2 = 1 := by
  have hpow : (2 : Int) ^ r = ((2 ^ r : Nat) : Int) := by simp
  cases bits with
  | ofNat n =>
      show Nat.testBit n r = true ↔ (n : Int) / 2 ^ r % 2 = 1
      rw [Nat.testBit_eq_decide_div_mod_eq, decide_eq_true_eq, hpow]
      omega
  | negSucc n =>
      show ¬ Nat.testBit n r = true ↔ Int.negSucc n / 2 ^ r % 2 = 1
      rw [Nat.testBit_eq_decide_div_mod_eq, decide_eq_true_eq, hpow,
        Int.negSucc_ediv n (by exact_mod_cast Nat.two_pow_pos r)]
      have hquot : ((n : Int).ediv ((2 ^ r : Nat) : Int)) = ((n / 2 ^ r : Nat) : Int) := rfl
      omega

end TreeSearch.Mask
