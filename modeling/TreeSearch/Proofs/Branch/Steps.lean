import TreeSearch.Branch.Fixpoint
import TreeSearch.Proofs.Branch.Run

namespace TreeSearch

variable {α β : Type}

namespace BranchM

-- Other work that comes to the same, unless this work uses up its steps.
def Extends (work work' : BranchM α) : Prop :=
  ∀ b, (∃ c, work.run b = .error .outOfFuel c) ∨ work'.run b = work.run b

namespace Extends

theorem refl (work : BranchM α) : Extends work work := fun _ => Or.inr rfl

theorem exhausted (work : BranchM α) : Extends (throw .outOfFuel) work := fun b => Or.inl ⟨b, rfl⟩

theorem ok {work work' : BranchM α} {b c : Branch} {a : α} (h : Extends work work')
    (hr : work.run b = .ok a c) : work'.run b = .ok a c := by
  rcases h b with ⟨d, hd⟩ | he
  · cases hr.symm.trans hd
  · exact he.trans hr

theorem bind {work work' : BranchM β} {next next' : β → BranchM α} (h : Extends work work')
    (hn : ∀ a, Extends (next a) (next' a)) : Extends (work >>= next) (work' >>= next') := by
  intro b
  rw [run_bind, run_bind]
  rcases h b with ⟨c, hc⟩ | he
  · exact Or.inl ⟨c, by rw [hc]⟩
  · rw [he]
    cases work.run b with
    | ok a c => exact hn a c
    | error halt c => exact Or.inr rfl

theorem ite {P : Prop} [Decidable P] {work work' other other' : BranchM α} (h : Extends work work')
    (ho : Extends other other') : Extends (if P then work else other) (if P then work' else other') := by
  split
  · exact h
  · exact ho

theorem whenFeasible {work work' : BranchM Unit} (h : Extends work work') :
    Extends (whenFeasible work) (whenFeasible work') :=
  bind (refl _) fun _ => ite h (refl _)

theorem forM {work work' : β → BranchM Unit} (h : ∀ a, Extends (work a) (work' a)) (l : List β) :
    Extends (l.forM work) (l.forM work') := by
  induction l with
  | nil => exact refl _
  | cons a l ih =>
      show Extends (work a >>= fun _ => l.forM work) (work' a >>= fun _ => l.forM work')
      exact bind (h a) fun _ => ih

end Extends

section Fillers

variable (p : Problem) {fill fill' : Filler}

-- Work that calls on a filler comes to the same with a filler that comes to the same.
variable (h : ∀ unifying path rule, Extends (fill unifying path rule) (fill' unifying path rule))

include h

theorem extends_sync (unifying : Bool) (path : Path) :
    Extends (sync fill unifying path) (sync fill' unifying path) := by
  unfold sync
  refine .bind (.refl _) fun b => .ite (.refl _) (.bind (.refl _) fun trees => ?_)
  split
  · exact .refl _
  · exact .bind (.refl _) fun rule => .bind (.refl _) fun _ => .whenFeasible (h unifying path rule)
  · exact .refl _

theorem extends_equate (first second : Path) :
    Extends (equate fill first second) (equate fill' first second) := by
  unfold equate
  refine .bind (.refl _) fun _ => .bind (.refl _) fun _ => .bind (.refl _) fun feasible => ?_
  refine .ite (.refl _) (.ite (.refl _) (.bind (.refl _) fun _ => ?_))
  exact extends_sync h true first

theorem extends_joinChildren (unifying : Bool) (members : List Path) (arity : Nat) :
    Extends (joinChildren fill unifying members arity) (joinChildren fill' unifying members arity) := by
  cases members with
  | nil => exact .refl _
  | cons anchor others =>
      exact .forM (fun index => .whenFeasible (.bind (.refl _) fun _ => extends_sync h unifying _)) _

theorem extends_perform (unifying : Bool) (w : Watch) (action : Action) :
    Extends (perform p fill unifying w action) (perform p fill' unifying w action) := by
  cases action with
  | equate first second => exact extends_equate h first second
  | _ => exact .refl _

theorem extends_propagate (unifying : Bool) (w : Watch) :
    Extends (propagate p fill unifying w) (propagate p fill' unifying w) :=
  .bind (.refl _) fun _ => .bind (.refl _) fun _ => .forM (extends_perform p h unifying w) _

theorem extends_post (unifying : Bool) (w : Watch) :
    Extends (post p fill unifying w) (post p fill' unifying w) :=
  .bind (.refl _) fun _ => .ite (.refl _) (.bind (.refl _) fun _ => extends_propagate p h unifying w)

theorem extends_announceTo (unifying : Bool) (path : Path) (c : Constraint) :
    Extends (announceTo p fill unifying path c) (announceTo p fill' unifying path c) := by
  unfold announceTo
  refine .bind (.refl _) fun _ => .bind (.refl _) fun asked => .bind (.refl _) fun _ => ?_
  cases asked with
  | none => exact .refl _
  | some w => exact extends_post p h unifying w

theorem extends_announce (unifying : Bool) (path : Path) :
    Extends (announce p fill unifying path) (announce p fill' unifying path) :=
  .forM (fun c => .whenFeasible (extends_announceTo p h unifying path c)) _

end Fillers

section Operations

variable (p : Problem)

theorem extends_fillClass {steps steps' : Nat} (hle : steps ≤ steps') (unifying : Bool) (path : Path)
    (rule : Nat) : Extends (fillClass p steps unifying path rule) (fillClass p steps' unifying path rule) := by
  induction steps generalizing steps' unifying path rule with
  | zero => exact .exhausted _
  | succ steps ih =>
      obtain ⟨steps', rfl⟩ : ∃ k, steps' = k + 1 := ⟨steps' - 1, by omega⟩
      have hfill := ih (Nat.le_of_succ_le_succ hle)
      unfold fillClass
      refine .bind (.refl _) fun b => .bind (.refl _) fun opened => .whenFeasible (.ite ?_ ?_)
      · refine .bind (.refl _) fun arity => .bind (extends_joinChildren hfill _ _ _) fun _ => ?_
        exact .forM (fun path => .whenFeasible (extends_announce p hfill unifying path)) _
      · exact .forM (fun path => .whenFeasible (extends_announce p hfill unifying path)) _

theorem extends_fill {steps steps' : Nat} (hle : steps ≤ steps') (path : Path) (rule : Int) :
    Extends (fill p steps path rule) (fill p steps' path rule) := by
  unfold fill
  refine .bind (.refl _) fun s => ?_
  split
  · exact .refl _
  · refine .whenFeasible (.bind (.refl _) fun r => .bind (.refl _) fun _ => ?_)
    exact .whenFeasible (extends_fillClass p hle false path r)

theorem extends_materialize {steps steps' : Nat} (hle : steps ≤ steps') :
    Extends (materialize p steps) (materialize p steps') := by
  induction steps generalizing steps' with
  | zero => exact .exhausted _
  | succ steps ih =>
      obtain ⟨steps', rfl⟩ : ∃ k, steps' = k + 1 := ⟨steps' - 1, by omega⟩
      have hle := Nat.le_of_succ_le_succ hle
      unfold materialize
      refine .bind (.refl _) fun b => .ite (.refl _) ?_
      split
      · exact .refl _
      · exact .bind (extends_fillClass p hle false _ _) fun _ => .bind (ih hle) fun _ => .refl _

theorem extends_propagateQueued {steps steps' : Nat} (hle : steps ≤ steps') (w : Watch) :
    Extends (propagateQueued p steps w) (propagateQueued p steps' w) := by
  unfold propagateQueued
  refine .bind (.refl _) fun b => .ite (.bind (.refl _) fun _ => ?_) (.refl _)
  exact extends_propagate p (extends_fillClass p hle) false w

theorem extends_fixPoint {steps steps' : Nat} (hle : steps ≤ steps') :
    Extends (fixPoint p steps) (fixPoint p steps') := by
  induction steps generalizing steps' with
  | zero => exact .exhausted _
  | succ steps ih =>
      obtain ⟨steps', rfl⟩ : ∃ k, steps' = k + 1 := ⟨steps' - 1, by omega⟩
      have hle := Nat.le_of_succ_le_succ hle
      unfold fixPoint
      refine .bind (.refl _) fun feasible => .ite (.refl _) (.bind (.refl _) fun next => ?_)
      cases next with
      | some w => exact .bind (extends_propagateQueued p hle w) fun _ => ih hle
      | none => exact .bind (.refl _) fun again => .ite (ih hle) (.refl _)

theorem extends_settle {steps steps' : Nat} (hle : steps ≤ steps') :
    Extends (settle p steps) (settle p steps') := by
  induction steps generalizing steps' with
  | zero => exact .exhausted _
  | succ steps ih =>
      obtain ⟨steps', rfl⟩ : ∃ k, steps' = k + 1 := ⟨steps' - 1, by omega⟩
      have hle := Nat.le_of_succ_le_succ hle
      unfold settle
      refine .bind (extends_fixPoint p hle) fun feasible => .ite (.refl _) ?_
      exact .bind (extends_materialize p hle) fun again => .ite (ih hle) (.refl _)

end Operations

end BranchM

end TreeSearch
