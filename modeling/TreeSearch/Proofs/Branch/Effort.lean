import Mathlib.Data.List.ProdSigma
import TreeSearch.Proofs.Branch.Filling

namespace TreeSearch

variable {p : Problem} {T : Tree → Prop} {b c : Branch} {D : Nat}

theorem Branch.Sound.pending_le (hs : b.Sound p) :
    b.queue.pending.length ≤ p.grammar.constraints.length * b.tree.size := by
  have hsub : b.queue.pending.map (fun w => (w.constraint, w.path)) ⊆
      p.grammar.constraints ×ˢ (b.tree.positions []).map Prod.fst := by
    intro x hx
    obtain ⟨w, hw, rfl⟩ := List.mem_map.mp hx
    obtain ⟨hin, -, s, hplaced⟩ := hs.watched w (Or.inl (hs.pending w hw))
    exact List.mem_product.mpr ⟨hin, List.mem_map.mpr ⟨(w.path, s),
      (Tree.mem_positions_nil b.tree w.path s).mpr hplaced, rfl⟩⟩
  have hnodup : (b.queue.pending.map fun w => (w.constraint, w.path)).Nodup := by
    refine hs.queue.nodup.map fun v w h => ?_
    obtain ⟨path, constraint⟩ := v
    obtain ⟨path', constraint'⟩ := w
    obtain ⟨rfl, rfl⟩ := Prod.mk.inj h
    rfl
  have hle := (List.subperm_of_subset hnodup hsub).length_le
  rwa [List.length_map, List.length_product, List.length_map] at hle

-- An edit changes the tree.
theorem Tree.Replaced.ne {path : Path} {old new t u : Tree} (h : Tree.Replaced old new path t u)
    (hne : new ≠ old) : u ≠ t := by
  rintro rfl
  exact hne (Option.some.inj (h.get?_new.symm.trans h.get?_old))

theorem Move.pending_le (h : Move p T b c) (he : c.tree = b.tree) :
    c.queue.pending.length ≤ b.queue.pending.length := by
  cases h with
  | edit unifying statistics change replaced kept =>
      rw [Branch.notify_tree] at he
      refine absurd he (replaced.ne ?_)
      cases change with
      | narrowed sub ne => exact fun h => ne (Tree.hole.inj h).2
      | filled => nofun
  | fail => exact Nat.zero_le _
  | retire => exact List.length_erase_le
  | _ => exact Nat.le_refl _

theorem Branch.Sound.popped_pending_le (hs : b.Sound p) :
    b.popped.queue.pending.length ≤ b.queue.pending.length := by
  rcases hs.queue.pop with ⟨w, -, -, he, -⟩ | ⟨-, -, he, -⟩
  · show b.queue.pop.2.pending.length ≤ _
    rw [he]
    exact List.length_erase_le
  · show b.queue.pop.2.pending.length ≤ _
    rw [he]
    exact Nat.zero_le _

theorem Proceeds.pending_le (h : Proceeds p T b c) (hs : b.Sound p) (he : c.tree = b.tree) :
    c.queue.pending.length ≤ b.queue.pending.length := by
  induction h with
  | refl => exact Nat.le_refl _
  | @tail m c hrest hstep ih =>
      rcases hstep with hstep | rfl
      · -- a tree that has changed once has become lighter for good
        have hsame : m.tree = b.tree := by
          obtain ⟨D, hD⟩ : ∃ D, c.tree.depth ≤ D := ⟨_, Nat.le_refl _⟩
          rcases Proceeds.weight_lt hrest (Nat.le_trans hstep.refines.depth_le hD) with hm | hlt
          · exact hm
          · have := Proceeds.weight_le (.single (Or.inl hstep)) hD
            rw [he] at this
            omega
        exact Nat.le_trans (hstep.pending_le (he.trans hsame.symm)) (ih hsame)
      · exact Nat.le_trans (Proceeds.sound hrest hs).popped_pending_le (ih he)

-- The propagations that are left before the queue is empty for good.
def Branch.load (b : Branch) (p : Problem) (D : Nat) : Nat :=
  p.weight D b.tree * (p.grammar.constraints.length * p.weight D b.tree + 1) +
    b.queue.pending.length

theorem Branch.Sound.load_lt (hs : c.Sound p) (hlt : p.weight D c.tree < p.weight D b.tree) :
    c.load p D < b.load p D := by
  have hpending : c.queue.pending.length ≤ p.grammar.constraints.length * p.weight D c.tree :=
    Nat.le_trans hs.pending_le (Nat.mul_le_mul_left _ (Problem.size_le_weight D c.tree))
  have hmul : (p.weight D c.tree + 1) * (p.grammar.constraints.length * p.weight D c.tree + 1) ≤
      p.weight D b.tree * (p.grammar.constraints.length * p.weight D b.tree + 1) :=
    Nat.mul_le_mul hlt (Nat.add_le_add_right (Nat.mul_le_mul_left _ (Nat.le_of_lt hlt)) 1)
  rw [Nat.add_mul] at hmul
  unfold load
  omega

theorem Proceeds.load_le (h : Proceeds p T b c) (hs : b.Sound p) (hd : c.tree.depth ≤ D) :
    c.load p D ≤ b.load p D := by
  rcases h.weight_lt hd with he | hlt
  · have := h.pending_le hs he
    rw [Branch.load, Branch.load, he]
    omega
  · exact Nat.le_of_lt ((h.sound hs).load_lt hlt)

-- The steps that propagating can take.
def Branch.toil (b : Branch) (p : Problem) (D : Nat) : Nat := b.load p D + b.ceiling p D + 1

theorem Proceeds.toil_le (h : Proceeds p T b c) (hs : b.Sound p) (hd : c.tree.depth ≤ D) :
    c.toil p D ≤ b.toil p D := by
  have := h.load_le hs hd
  have := h.ceiling_le hd
  unfold Branch.toil
  omega

theorem Branch.popped_toil_lt {w : Watch} (hw : w ∈ b.queue.pending)
    (hpop : b.queue.pop.2.pending = b.queue.pending.erase w) : b.popped.toil p D < b.toil p D := by
  have hlen : b.popped.queue.pending.length + 1 = b.queue.pending.length := by
    show b.queue.pop.2.pending.length + 1 = _
    rw [hpop, List.length_erase_of_mem hw]
    have := List.length_pos_of_mem hw
    omega
  have hceiling : b.popped.ceiling p D = b.ceiling p D := rfl
  have hweight : p.weight D b.popped.tree = p.weight D b.tree := rfl
  unfold toil load
  rw [hceiling, hweight]
  omega

theorem Branch.Sound.toil_lt (hs : c.Sound p) (hlt : p.weight D c.tree < p.weight D b.tree) :
    c.toil p D < b.toil p D := by
  have := hs.load_lt hlt
  have hmul := Nat.mul_le_mul_right (D + 2) (Nat.le_of_lt hlt)
  unfold toil ceiling
  omega

end TreeSearch
