import TreeSearch.Grammar.Sweep
import TreeSearch.Proofs.Cost
import TreeSearch.Proofs.Result

namespace TreeSearch

variable {α β : Type}

-- What comes to the exact value, unless a number is too large to be set against infinity.
def Reckons (result : Except Halt α) (exact : α) : Prop :=
  result = .ok exact ∨ result = .error .overflow

namespace Reckons

variable {result : Except Halt α} {a b : α} {c : β}

theorem pure (a : α) : Reckons (.ok a) a := Or.inl rfl

theorem eq_of_ok (h : Reckons result a) (hr : result = .ok b) : b = a := by
  rcases h with h | h
  · exact Except.ok.inj (hr.symm.trans h)
  · exact nomatch hr.symm.trans h

theorem halt_of_error (h : Reckons result a) {halt : Halt} (hr : result = .error halt) :
    halt = .overflow := by
  rcases h with h | h
  · exact nomatch hr.symm.trans h
  · exact Except.error.inj (hr.symm.trans h)

theorem bind {next : α → Except Halt β} (h : Reckons result a) (hn : Reckons (next a) c) :
    Reckons (result >>= next) c := by
  rcases h with rfl | rfl
  · exact hn
  · exact Or.inr rfl

theorem map (f : α → β) (h : Reckons result a) : Reckons (f <$> result) (f a) := by
  rcases h with rfl | rfl
  · exact Or.inl rfl
  · exact Or.inr rfl

theorem mapM {l : List α} {f : α → Except Halt β} {exact : α → β}
    (h : ∀ a ∈ l, Reckons (f a) (exact a)) : Reckons (l.mapM f) (l.map exact) := by
  induction l with
  | nil => exact Or.inl rfl
  | cons a l ih =>
      rw [List.mapM_cons]
      refine (h a List.mem_cons_self).bind ?_
      exact (ih fun b hb => h b (List.mem_cons_of_mem a hb)).bind (.pure _)

end Reckons

namespace Cost

theorem againstInfinity_reckons (n : Nat) (a : α) : Reckons (againstInfinity n a) a := by
  unfold againstInfinity
  split
  · exact Or.inl rfl
  · exact Or.inr rfl

theorem plus_reckons (a b : Cost) : Reckons (plus a b) (a + b) := by
  cases a with
  | finite m =>
      cases b with
      | finite n => exact Or.inl rfl
      | infinite => exact againstInfinity_reckons m _
  | infinite =>
      cases b with
      | finite n => exact againstInfinity_reckons n _
      | infinite => exact Or.inl rfl

-- The order in which costs are added up makes no difference to the sum.
theorem total_reckons (costs : List Cost) : Reckons (total costs) (sum costs) := by
  have hfrom (start : Cost) : Reckons (costs.foldlM plus start) (start + sum costs) := by
    induction costs generalizing start with
    | nil =>
        rw [show sum [] = 0 from rfl, add_comm, zero_add]
        exact .pure start
    | cons c costs ih =>
        rw [List.foldlM_cons, sum_cons, ← add_assoc]
        exact (plus_reckons start c).bind (ih _)
  exact zero_add (sum costs) ▸ hfrom 0

-- What is finite of a cost.
def known : Cost → Nat
  | finite n => n
  | infinite => 0

theorem plus_eq_ok {a b : Cost} (ha : a.known < ceiling) (hb : b.known < ceiling) :
    plus a b = .ok (a + b) := by
  cases a with
  | finite m =>
      cases b with
      | finite n => rfl
      | infinite => exact if_pos ha
  | infinite =>
      cases b with
      | finite n => exact if_pos hb
      | infinite => rfl

theorem known_add_le (a b : Cost) : (a + b).known ≤ a.known + b.known := by
  cases a with
  | infinite => exact Nat.zero_le _
  | finite m =>
      cases b with
      | infinite => exact Nat.zero_le _
      | finite n => exact Nat.le_refl _

theorem known_sum_le (costs : List Cost) : (sum costs).known ≤ (costs.map known).sum := by
  induction costs with
  | nil => exact Nat.le_refl 0
  | cons c costs ih =>
      rw [sum_cons, List.map_cons, List.sum_cons]
      exact (known_add_le c (sum costs)).trans (Nat.add_le_add_left ih _)

-- Small numbers add up, whatever is infinite among them.
theorem total_eq_ok {costs : List Cost} (h : (costs.map known).sum < ceiling) :
    total costs = .ok (sum costs) := by
  have hfrom (start : Cost) (h : start.known + (costs.map known).sum < ceiling) :
      costs.foldlM plus start = .ok (start + sum costs) := by
    clear * - h
    induction costs generalizing start with
    | nil =>
        rw [show sum [] = 0 from rfl, add_comm, zero_add]
        rfl
    | cons c costs ih =>
        rw [List.map_cons, List.sum_cons] at h
        have := known_add_le start c
        rw [List.foldlM_cons, plus_eq_ok (by omega) (by omega), Except.ok_bind, ih _ (by omega),
          sum_cons, add_assoc]
  rw [total, hfrom 0 (by rwa [show known 0 = 0 from rfl, Nat.zero_add]), zero_add]

-- Finite numbers add up, however large they are.
theorem total_of_finite {costs : List Cost} {n : Nat} (h : sum costs = finite n) :
    total costs = .ok (finite n) := by
  have hfrom (start : Nat) (n : Nat) (h : sum costs = finite n) :
      costs.foldlM plus (finite start) = .ok (finite (start + n)) := by
    clear * - h
    induction costs generalizing start n with
    | nil =>
        obtain rfl : 0 = n := finite.inj h
        rfl
    | cons c costs ih =>
        obtain ⟨k, l, rfl, hl, rfl⟩ := add_eq_finite (sum_cons c costs ▸ h)
        rw [List.foldlM_cons, ← Nat.add_assoc]
        exact ih (start + k) l hl
  have hzero := hfrom 0 n h
  rwa [Nat.zero_add] at hzero

end Cost

namespace Measure

theorem raise_reckons (m : Measure) (children : List Cost) :
    Reckons (m.raise children) (m.above children) := by
  cases m with
  | size => exact (Cost.total_reckons children).map _
  | depth => exact .pure _

theorem raiseBeside_reckons (m : Measure) (child : Cost) (others : List Cost) :
    Reckons (m.raiseBeside child others) (m.above (child :: others)) := by
  cases m with
  | size =>
      refine (Cost.total_reckons others).bind ?_
      rw [above, Cost.sum_cons, ← Cost.add_assoc]
      exact Cost.plus_reckons _ _
  | depth => exact .pure _

end Measure

end TreeSearch
