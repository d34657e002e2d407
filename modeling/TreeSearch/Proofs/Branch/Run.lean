import TreeSearch.Branch.Basic
import TreeSearch.Proofs.Result

namespace TreeSearch.BranchM

variable {α β : Type}

theorem run_bind {work : BranchM β} {next : β → BranchM α} (b : Branch) :
    (work >>= next).run b = match work.run b with
      | .ok a c => (next a).run c
      | .error halt c => .error halt c := by
  show EStateM.bind work next b = match work b with
    | .ok a c => (next a) c
    | .error halt c => .error halt c
  unfold EStateM.bind
  cases work b <;> rfl

theorem run_bind_eq_ok {work : BranchM β} {next : β → BranchM α} {b c : Branch} {a : α} :
    (work >>= next).run b = .ok a c ↔ ∃ x m, work.run b = .ok x m ∧ (next x).run m = .ok a c := by
  rw [run_bind]
  cases work.run b with
  | ok x m => exact ⟨fun h => ⟨x, m, rfl, h⟩, fun ⟨_, _, hr, h⟩ => by cases hr; exact h⟩
  | error halt m => exact ⟨nofun, fun ⟨_, _, hr, _⟩ => nomatch hr⟩

def Meets (work : BranchM α) (b : Branch) (Q : α → Branch → Prop) (H : Halt → Branch → Prop) :
    Prop :=
  match work.run b with
  | .ok a next => Q a next
  | .error halt next => H halt next

variable {b : Branch} {Q : α → Branch → Prop} {H : Halt → Branch → Prop}

theorem Meets.mono {work : BranchM α} {Q' : α → Branch → Prop} {H' : Halt → Branch → Prop}
    (h : work.Meets b Q H) (hq : ∀ a next, Q a next → Q' a next)
    (hh : ∀ halt next, H halt next → H' halt next) : work.Meets b Q' H' := by
  unfold Meets at h ⊢
  split
  · rename_i hr
    rw [hr] at h
    exact hq _ _ h
  · rename_i hr
    rw [hr] at h
    exact hh _ _ h

theorem Meets.and {work : BranchM α} {Q' : α → Branch → Prop} {H' : Halt → Branch → Prop}
    (h : work.Meets b Q H) (h' : work.Meets b Q' H') :
    work.Meets b (fun a c => Q a c ∧ Q' a c) fun halt c => H halt c ∧ H' halt c := by
  unfold Meets at h h' ⊢
  cases hr : work.run b with
  | ok a c =>
      rw [hr] at h h'
      exact ⟨h, h'⟩
  | error halt c =>
      rw [hr] at h h'
      exact ⟨h, h'⟩

theorem Meets.anyhow (work : BranchM α) : work.Meets b (fun _ _ => True) fun _ _ => True := by
  unfold Meets
  split <;> trivial

theorem Meets.of_ok {work : BranchM α} {a : α} {next : Branch} (hr : work.run b = .ok a next)
    (h : Q a next) : work.Meets b Q H := by
  rwa [Meets, hr]

theorem Meets.ok {work : BranchM α} (h : work.Meets b Q H) {a : α} {next : Branch}
    (hr : work.run b = .ok a next) : Q a next := by
  rwa [Meets, hr] at h

theorem Meets.error {work : BranchM α} (h : work.Meets b Q H) {halt : Halt} {next : Branch}
    (hr : work.run b = .error halt next) : H halt next := by
  rwa [Meets, hr] at h

-- Work that cannot halt has a result.
theorem Meets.exists_ok {work : BranchM α} (h : work.Meets b Q fun _ _ => False) :
    ∃ a c, work.run b = .ok a c ∧ Q a c := by
  unfold Meets at h
  cases hr : work.run b with
  | ok a c =>
      rw [hr] at h
      exact ⟨a, c, rfl, h⟩
  | error halt c =>
      rw [hr] at h
      exact h.elim

@[simp]
theorem meets_pure (a : α) : (pure a : BranchM α).Meets b Q H ↔ Q a b := Iff.rfl

theorem meets_bind {work : BranchM β} {next : β → BranchM α} :
    (work >>= next).Meets b Q H ↔ work.Meets b (fun a c => (next a).Meets c Q H) H := by
  unfold Meets
  rw [run_bind]
  cases work.run b <;> rfl

@[simp]
theorem meets_get {Q : Branch → Branch → Prop} : (get : BranchM Branch).Meets b Q H ↔ Q b b := Iff.rfl

@[simp]
theorem meets_set {Q : PUnit → Branch → Prop} (c : Branch) :
    (set c : BranchM PUnit).Meets b Q H ↔ Q ⟨⟩ c := Iff.rfl

@[simp]
theorem meets_modify {Q : PUnit → Branch → Prop} (f : Branch → Branch) :
    (modify f : BranchM PUnit).Meets b Q H ↔ Q ⟨⟩ (f b) := Iff.rfl

@[simp]
theorem meets_modifyGet (f : Branch → α × Branch) :
    (modifyGet f : BranchM α).Meets b Q H ↔ Q (f b).1 (f b).2 := Iff.rfl

@[simp]
theorem meets_throw (halt : Halt) : (throw halt : BranchM α).Meets b Q H ↔ H halt b := Iff.rfl

theorem meets_reckon {result : Except Halt α} {a : α} (h : result = .ok a) :
    (reckon result).Meets b Q H ↔ Q a b := by
  subst h
  exact Iff.rfl

theorem meets_reckon_error {result : Except Halt α} {halt : Halt} (h : result = .error halt) :
    (reckon result).Meets b Q H ↔ H halt b := by
  subst h
  exact Iff.rfl

theorem Meets.reckon_bind {result : Except Halt β} {next : β → BranchM α}
    (h : ∀ a, result = .ok a → (next a).Meets b Q H) (hh : ∀ halt, result = .error halt → H halt b) :
    (reckon result >>= next).Meets b Q H := by
  rw [meets_bind]
  cases result with
  | ok a => exact h a rfl
  | error halt => exact hh halt rfl

theorem meets_attempt {result : Except Fault α} {a : α} (h : result = .ok a) :
    (attempt result).Meets b Q H ↔ Q a b := by
  subst h
  exact Iff.rfl

theorem meets_attempt_error {result : Except Fault α} {fault : Fault} (h : result = .error fault) :
    (attempt result).Meets b Q H ↔ H (.fault fault) b := by
  subst h
  exact Iff.rfl

@[simp]
theorem meets_isFeasible {Q : Bool → Branch → Prop} : isFeasible.Meets b Q H ↔ Q b.feasible b := Iff.rfl

@[simp]
theorem meets_fail {Q : PUnit → Branch → Prop} : fail.Meets b Q H ↔ Q ⟨⟩ b.fail := Iff.rfl

theorem meets_whenFeasible {Q : Unit → Branch → Prop} {work : BranchM Unit} :
    (whenFeasible work).Meets b Q H ↔
      (b.feasible = true → work.Meets b Q H) ∧ (b.feasible = false → Q () b) := by
  unfold whenFeasible
  rw [meets_bind, meets_isFeasible]
  cases b.feasible <;> simp

theorem meets_nodeAt {Q : Tree → Branch → Prop} {path : Path} {s : Tree}
    (h : b.tree.get? path = some s) : (nodeAt path).Meets b Q H ↔ Q s b := by
  unfold nodeAt
  rw [meets_bind, meets_get]
  exact meets_attempt (by simp [Tree.get, h])

-- Work done for the members of a list in turn keeps what each step keeps.
theorem meets_forM {work : β → BranchM Unit} {l : List β} (I : List β → Branch → Prop)
    (hstep : ∀ a rest c, I (a :: rest) c → (work a).Meets c (fun _ next => I rest next) H)
    (h : I l b) : (l.forM work).Meets b (fun _ next => I [] next) H := by
  induction l generalizing b with
  | nil => exact h
  | cons a l ih =>
      show (work a >>= fun _ => l.forM work).Meets b (fun _ next => I [] next) H
      rw [meets_bind]
      exact (hstep a l b h).mono (fun _ _ hn => ih hn) fun _ _ hh => hh

theorem meets_nodeAt_none {path : Path} {next : Tree → BranchM α} (hs : b.tree.get? path = none)
    (hfault : ∀ fault, H (.fault fault) b) : (nodeAt path >>= next).Meets b Q H := by
  unfold nodeAt
  rw [meets_bind, meets_bind, meets_get]
  exact (meets_attempt_error (by rw [Tree.get, hs])).mpr (hfault _)

theorem meets_nodeAt_bind {path : Path} {next : Tree → BranchM α} (hfault : ∀ fault, H (.fault fault) b)
    (hn : ∀ s, b.tree.get? path = some s → (next s).Meets b Q H) :
    (nodeAt path >>= next).Meets b Q H := by
  cases hs : b.tree.get? path with
  | none => exact meets_nodeAt_none hs hfault
  | some s =>
      rw [meets_bind, meets_nodeAt hs]
      exact hn s hs

section Preserves

variable {I : Branch → Prop} {E : Halt → Prop}

-- Work that preserves a property wherever it starts, and halts in no other than certain ways.
def Preserves (I : Branch → Prop) (E : Halt → Prop) (work : BranchM α) : Prop :=
  ∀ b, I b → work.Meets b (fun _ c => I c) fun halt _ => E halt

namespace Preserves

theorem pure (a : α) : Preserves I E (pure a : BranchM α) := fun _ hb => hb

theorem get : Preserves I E (get : BranchM Branch) := fun _ hb => hb

theorem isFeasible : Preserves I E isFeasible := fun _ hb => hb

theorem modify {f : Branch → Branch} (h : ∀ b, I b → I (f b)) :
    Preserves I E (modify f : BranchM PUnit) := h

theorem bind {work : BranchM β} {next : β → BranchM α} (h : Preserves I E work)
    (hn : ∀ a, Preserves I E (next a)) : Preserves I E (work >>= next) := by
  intro b hb
  rw [meets_bind]
  exact (h b hb).mono (fun a c hc => hn a c hc) fun _ _ hh => hh

theorem reckon {result : Except Halt α} (h : ∀ halt, result = .error halt → E halt) :
    Preserves I E (reckon result) := by
  intro b hb
  cases result with
  | ok a => exact hb
  | error halt => exact h halt rfl

theorem attempt (hfault : ∀ fault, E (.fault fault)) (result : Except Fault α) :
    Preserves I E (attempt result) := by
  intro b hb
  cases result with
  | ok a => exact hb
  | error fault => exact hfault fault

theorem nodeAt (hfault : ∀ fault, E (.fault fault)) (path : Path) : Preserves I E (nodeAt path) :=
  bind get fun _ => attempt hfault _

theorem whenFeasible {work : BranchM Unit} (h : Preserves I E work) :
    Preserves I E (whenFeasible work) :=
  fun b hb => meets_whenFeasible.mpr ⟨fun _ => h b hb, fun _ => hb⟩

theorem forM {work : β → BranchM Unit} {l : List β} (h : ∀ a ∈ l, Preserves I E (work a)) :
    Preserves I E (l.forM work) := by
  intro b hb
  refine (meets_forM (fun left c => (∀ a ∈ left, a ∈ l) ∧ I c) ?_ ⟨fun _ ha => ha, hb⟩).mono
    (fun _ _ hc => hc.2) fun _ _ hh => hh
  rintro a left c ⟨hleft, hc⟩
  exact (h a (hleft a List.mem_cons_self) c hc).mono
    (fun _ _ hd => ⟨fun x hx => hleft x (List.mem_cons_of_mem a hx), hd⟩) fun _ _ hh => hh

end Preserves

-- Work that keeps a property wherever it starts, also where it ends in a halt of H.
def Outlasts (I : Branch → Prop) (H : Halt → Prop) (work : BranchM α) : Prop :=
  ∀ b, I b → work.Meets b (fun _ c => I c) fun halt c => H halt → I c

namespace Outlasts

variable {H : Halt → Prop}

theorem throw (halt : Halt) : Outlasts I H (throw halt : BranchM α) := fun _ hb _ => hb

theorem reckon (result : Except Halt α) : Outlasts I H (reckon result) := by
  intro b hb
  cases result with
  | ok a => exact hb
  | error halt => exact fun _ => hb

theorem modify {f : Branch → Branch} (h : ∀ b, I b → I (f b)) :
    Outlasts I H (modify f : BranchM PUnit) := h

theorem preserves {work : BranchM α} (h : Outlasts I H work) : Preserves I (fun _ => True) work :=
  fun b hb => (h b hb).mono (fun _ _ hc => hc) fun _ _ _ => trivial

end Outlasts

end Preserves

end TreeSearch.BranchM
