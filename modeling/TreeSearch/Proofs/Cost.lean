import Mathlib.Data.List.Forall2
import Mathlib.Algebra.Order.BigOperators.Group.List
import Mathlib.Algebra.Order.Ring.Nat
import TreeSearch.Proofs.Grammar.Exact
import TreeSearch.Proofs.Tree.Measures

namespace TreeSearch

theorem exists_of_forall₂ {α β : Type} {R : α → β → Prop} {l : List α} {k : List β}
    (h : List.Forall₂ R l k) {a : α} (ha : a ∈ l) : ∃ b ∈ k, R a b := by
  induction h with
  | nil => cases ha
  | cons hab _ ih =>
      cases ha with
      | head => exact ⟨_, List.mem_cons_self, hab⟩
      | tail _ ha =>
          obtain ⟨b, hb, hr⟩ := ih ha
          exact ⟨b, List.mem_cons_of_mem _ hb, hr⟩

-- A finite cost of at most n.
def Cost.Fits (c : Cost) (n : Nat) : Prop := ∃ m ≤ n, c = .finite m

namespace Cost

@[simp]
theorem finite_fits (m n : Nat) : (finite m).Fits n ↔ m ≤ n := by
  simp [Fits]

@[simp]
theorem not_infinite_fits (n : Nat) : ¬ infinite.Fits n := by
  simp [Fits]

theorem Fits.mono {c : Cost} {m n : Nat} (h : c.Fits m) (hmn : m ≤ n) : c.Fits n := by
  obtain ⟨k, hk, rfl⟩ := h
  exact ⟨k, Nat.le_trans hk hmn, rfl⟩

theorem Fits.add {c d : Cost} {m n : Nat} (hc : c.Fits m) (hd : d.Fits n) : (c + d).Fits (m + n) := by
  obtain ⟨k, hk, rfl⟩ := hc
  obtain ⟨l, hl, rfl⟩ := hd
  exact ⟨k + l, Nat.add_le_add hk hl, rfl⟩

theorem Fits.within {c : Cost} {n : Nat} {budget : Int} (h : c.Fits n) (hn : (n : Int) ≤ budget) :
    c.within budget = true := by
  obtain ⟨k, hk, rfl⟩ := h
  simp only [Cost.within, decide_eq_true_eq]
  omega

theorem Fits.isFinite {c : Cost} {n : Nat} (h : c.Fits n) : c.isFinite = true := by
  obtain ⟨k, -, rfl⟩ := h
  rfl

theorem least_fits (c d : Cost) (n : Nat) : (least c d).Fits n ↔ c.Fits n ∨ d.Fits n := by
  cases c <;> cases d <;> simp [least]

theorem leastOf_fits (costs : List Cost) (n : Nat) :
    (leastOf costs).Fits n ↔ ∃ c ∈ costs, c.Fits n := by
  induction costs with
  | nil => simp [leastOf]
  | cons c costs ih => simpa [leastOf, least_fits] using or_congr_right ih

theorem most_fits (c d : Cost) (n : Nat) : (most c d).Fits n ↔ c.Fits n ∧ d.Fits n := by
  cases c <;> cases d <;> simp [most]

theorem mostOf_fits (costs : List Cost) (n : Nat) :
    (mostOf costs).Fits n ↔ ∀ c ∈ costs, c.Fits n := by
  induction costs with
  | nil => exact iff_of_true ⟨0, Nat.zero_le n, rfl⟩ nofun
  | cons c costs ih => simpa [mostOf, most_fits] using and_congr_right fun _ => ih

theorem Fits.sum {costs : List Cost} {ns : List Nat} (h : List.Forall₂ Fits costs ns) :
    (sum costs).Fits ns.sum := by
  induction h with
  | nil => exact ⟨0, Nat.le_refl 0, rfl⟩
  | cons hc _ ih => simpa [Cost.sum] using hc.add ih

theorem sum_cons (c : Cost) (costs : List Cost) : sum (c :: costs) = c + sum costs := rfl

theorem zero_add (c : Cost) : 0 + c = c := by
  cases c with
  | finite n => exact congrArg finite (Nat.zero_add n)
  | infinite => rfl

theorem add_assoc (a b c : Cost) : a + b + c = a + (b + c) := by
  cases a with
  | infinite => rfl
  | finite k =>
      cases b with
      | infinite => rfl
      | finite l =>
          cases c with
          | infinite => rfl
          | finite m => exact congrArg finite (Nat.add_assoc k l m)

theorem add_comm (a b : Cost) : a + b = b + a := by
  cases a with
  | finite k =>
      cases b with
      | finite l => exact congrArg finite (Nat.add_comm k l)
      | infinite => rfl
  | infinite => cases b <;> rfl

theorem sum_append (cs ds : List Cost) : sum (cs ++ ds) = sum cs + sum ds := by
  induction cs with
  | nil => exact (zero_add _).symm
  | cons c cs ih => rw [List.cons_append, sum_cons, sum_cons, ih, add_assoc]

theorem add_eq_finite {c d : Cost} {n : Nat} (h : c + d = finite n) :
    ∃ k l, c = finite k ∧ d = finite l ∧ k + l = n := by
  cases c with
  | infinite => cases h
  | finite k =>
      cases d with
      | infinite => cases h
      | finite l => exact ⟨k, l, rfl, rfl, finite.inj h⟩

-- One cost is at most another when it fits wherever the other does.
theorem atMost_iff {c d : Cost} : c.atMost d = true ↔ ∀ n, d.Fits n → c.Fits n := by
  cases c with
  | finite m =>
      cases d with
      | finite k =>
          simp only [atMost, decide_eq_true_eq, finite_fits]
          exact ⟨fun h n hn => Nat.le_trans h hn, fun h => h k (Nat.le_refl k)⟩
      | infinite => simp [atMost]
  | infinite =>
      cases d with
      | finite k =>
          refine iff_of_false (by simp [atMost]) fun h => ?_
          exact not_infinite_fits k (h k ((finite_fits k k).mpr (Nat.le_refl k)))
      | infinite => simp [atMost]

theorem atMost_trans {a b c : Cost} (hab : a.atMost b = true) (hbc : b.atMost c = true) :
    a.atMost c = true :=
  atMost_iff.mpr fun n hn => atMost_iff.mp hab n (atMost_iff.mp hbc n hn)

theorem atMost_of_not {c d : Cost} (h : ¬ c.atMost d = true) : d.atMost c = true := by
  cases c with
  | finite m =>
      cases d with
      | finite k =>
          simp only [atMost, decide_eq_true_eq] at h ⊢
          omega
      | infinite => simp [atMost] at h
  | infinite => cases d <;> rfl

end Cost

namespace Measure

-- What is measured of a tree.
def of : Measure → Tree → Nat
  | size => Tree.size
  | depth => Tree.depth

theorem of_child_lt (m : Measure) {r : Int} {cs : List Tree} {c : Tree} (h : c ∈ cs) :
    m.of c < m.of (.node r cs) := by
  cases m with
  | size => exact Tree.size_child_lt h
  | depth => exact Tree.depth_child_lt (r := r) h

-- A node costs what its rule asks for above its children, in whatever order they come.
theorem above_fits (m : Measure) {costs : List Cost} {ts cs : List Tree}
    (h : List.Forall₂ (fun c t => c.Fits (m.of t)) costs ts) (hp : ts.Perm cs) (r : Int) :
    (m.above costs).Fits (m.of (.node r cs)) := by
  have hone : (1 : Cost).Fits 1 := ⟨1, Nat.le_refl 1, rfl⟩
  cases m with
  | size =>
      have hs : (Cost.sum costs).Fits (ts.map Tree.size).sum :=
        Cost.Fits.sum (List.forall₂_map_right_iff.mpr h)
      refine (hone.add hs).mono ?_
      rw [of, Tree.size_node, (hp.map Tree.size).sum_eq, Nat.add_comm]
  | depth =>
      have hs : (Cost.mostOf costs).Fits (Tree.depthBelow cs) := by
        refine (Cost.mostOf_fits _ _).mpr fun c hc => ?_
        obtain ⟨t, ht, hf⟩ := exists_of_forall₂ h hc
        exact hf.mono (Tree.depth_le_depthBelow (hp.mem_iff.mp ht))
      refine (hone.add hs).mono ?_
      rw [of, Tree.depth, Nat.add_comm]

-- A node costs something by itself.
theorem one_le_of_above_eq (m : Measure) {costs : List Cost} {n : Nat}
    (h : m.above costs = .finite n) : 1 ≤ n := by
  have hone {c : Cost} (h : 1 + c = .finite n) : 1 ≤ n := by
    obtain ⟨k, l, hk, -, rfl⟩ := Cost.add_eq_finite h
    obtain rfl : 1 = k := Cost.finite.inj hk
    exact Nat.le_add_right 1 l
  cases m with
  | size => exact hone h
  | depth => exact hone h

end Measure

end TreeSearch
