import TreeSearch.Proofs.Branch.Parts

namespace TreeSearch

variable {p : Problem} {t : Tree} {path : Path} {acts : List Action}

-- Something has to occur somewhere in the tree.
def Constraint.Scans : Constraint → Prop
  | .contains _ | .containsSubtree _ => True
  | _ => False

-- Where nothing has to occur, no numbers are involved.
theorem Watch.actions_eq_mapError {w : Watch} (hw : ¬ w.constraint.Scans) (t : Tree) :
    ∃ result : Except Fault (List Action), w.actions p t = result.mapError .fault := by
  unfold Watch.actions
  cases hc : w.constraint with
  | contains | containsSubtree => exact absurd (by rw [hc]; trivial) hw
  | _ => exact ⟨_, rfl⟩

section Uniting

variable {first second : Path}

theorem Host.equate_not_mem_settle (host : Host) : Action.equate first second ∉ host.settle := by
  unfold Host.settle
  split <;> simp

theorem Problem.equate_not_mem_forbidden {template : Tree}
    (h : p.forbiddenActions t path template = .ok acts) : Action.equate first second ∉ acts := by
  obtain ⟨s, -, h⟩ := Except.bind_eq_ok.mp h
  obtain ⟨verdict, -, h⟩ := Except.bind_eq_ok.mp h
  split at h
  · cases h
    simp
  · cases h
    simp
  · split at h <;> cases h <;> simp

theorem Problem.equate_not_mem_ordered {template : Tree} {names : List String}
    (h : p.orderedActions t path template names = .ok acts) : Action.equate first second ∉ acts := by
  obtain ⟨s, -, h⟩ := Except.bind_eq_ok.mp h
  obtain ⟨verdict, -, h⟩ := Except.bind_eq_ok.mp h
  split at h <;> cases h <;> simp

theorem Problem.equate_not_mem_contains {rule : Int}
    (h : p.containsActions t rule = .ok acts) : Action.equate first second ∉ acts := by
  obtain ⟨target, -, h⟩ := Except.bind_eq_ok.mp h
  obtain ⟨total, -, h⟩ := Except.bind_eq_ok.mp h
  obtain ⟨hosts, -, h⟩ := Except.bind_eq_ok.mp h
  split at h
  · cases h
    simp
  · cases h
    simp
  · cases h
    exact Host.equate_not_mem_settle _
  · cases h
    simp

theorem equate_not_mem_forbiddenSequence {sequence ignore : List Int}
    (h : forbiddenSequenceActions t path sequence ignore = .ok acts) :
    Action.equate first second ∉ acts := by
  obtain ⟨s, -, h⟩ := Except.bind_eq_ok.mp h
  split at h
  · rename_i last _
    have hend (certain : Bool) {acts : List Action} (h : (if certain = true then
        if s.decided? = some last then pure [.fail] else pure [.retire, .strike path last]
        else pure [.retire] : Except Fault (List Action)) = .ok acts) :
        Action.equate first second ∉ acts := by
      split at h
      · split at h <;> cases h <;> simp
      · cases h
        simp
    simp only at h
    split at h
    · obtain ⟨possible, -, h⟩ := Except.bind_eq_ok.mp h
      exact hend _ h
    · obtain ⟨possible, -, h⟩ := Except.bind_eq_ok.mp h
      exact hend _ h
  · cases h

theorem equate_not_mem_unique {rule : Int} (h : uniqueActions t rule = .ok acts) :
    Action.equate first second ∉ acts := by
  obtain ⟨target, -, h⟩ := Except.bind_eq_ok.mp h
  simp only at h
  split at h <;> cases h <;> simp

theorem equate_not_mem_rootOnly {rule : Int} (h : rootOnlyActions t path rule = .ok acts) :
    Action.equate first second ∉ acts := by
  obtain ⟨s, -, h⟩ := Except.bind_eq_ok.mp h
  split at h
  · cases h
    split <;> simp
  · cases h
    split <;> simp

-- Only a template that has to occur somewhere unites paths.
theorem Watch.equate_not_mem_actions {w : Watch} (hw : ¬ w.constraint.Scans)
    (h : w.actions p t = .ok acts) : Action.equate first second ∉ acts := by
  unfold Watch.actions at h
  cases hc : w.constraint with
  | forbidden template => exact Problem.equate_not_mem_forbidden (Except.mapError_eq_ok.mp (by rwa [hc] at h))
  | contains rule => exact Problem.equate_not_mem_contains (by rwa [hc] at h)
  | containsSubtree template => exact absurd (by rw [hc]; trivial) hw
  | ordered template names => exact Problem.equate_not_mem_ordered (Except.mapError_eq_ok.mp (by rwa [hc] at h))
  | forbiddenSequence sequence ignore =>
      exact equate_not_mem_forbiddenSequence (Except.mapError_eq_ok.mp (by rwa [hc] at h))
  | unique rule => exact equate_not_mem_unique (Except.mapError_eq_ok.mp (by rwa [hc] at h))
  | rootOnly rule => exact equate_not_mem_rootOnly (Except.mapError_eq_ok.mp (by rwa [hc] at h))

-- Below the root nothing has to occur.
theorem Constraint.watchAt_below {k : Constraint} {w : Watch} (hp : path ≠ [])
    (h : k.watchAt p t path = .ok (some w)) : ¬ w.constraint.Scans := by
  have hnone : path.isEmpty = false := by simpa using hp
  cases k with
  | containsSubtree => simp [Constraint.watchAt, hnone] at h
  | contains | unique => simp [Constraint.watchAt, hnone] at h
  | forbidden | ordered =>
      obtain ⟨s, -, h⟩ := Except.bind_eq_ok.mp h
      obtain ⟨verdict, -, h⟩ := Except.bind_eq_ok.mp h
      split at h <;> cases h
      exact id
  | forbiddenSequence =>
      cases h
      exact id
  | rootOnly =>
      simp only [Constraint.watchAt, hnone] at h
      cases h
      exact id

end Uniting

namespace BranchM

variable {I : Branch → Prop} {E : Halt → Prop} {unifying : Bool} {first second : Path}

-- A property of the tree and the classes that narrowing keeps, and the ways to halt.
structure Calm (p : Problem) (I : Branch → Prop) (E : Halt → Prop) : Prop where
  faults : ∀ fault, E (.fault fault)
  overflows : ¬ p.InRange → E .overflow
  same : ∀ b c, I b → c.tree = b.tree → c.classes = b.classes → I c
  narrowed : ∀ unifying mask path, Preserves I E (narrowOne unifying mask path)

namespace Calm

variable {fill : Filler} {w : Watch}

theorem inherited (h : Calm p I E) : Inherited fun work => Preserves I E work :=
  inherited_preserves h.faults

theorem narrow (h : Calm p I E) (path : Path) (mask : Mask) : Preserves I E (narrow unifying path mask) :=
  h.inherited.narrow (h.narrowed unifying) path mask

theorem steady (h : Calm p I E) (hg : p.grammar.Regular) : Steady p fun work => Preserves I E work := by
  refine h.inherited.steady (fun path => .reckon fun halt hr => ?_) (.modify fun b hb => h.same b _ hb rfl rfl)
    (fun w => .modify fun b hb => h.same b _ hb rfl rfl) (fun w => .modify fun b hb => ?_) h.narrowed
  · rcases Problem.shallow_reckons hg path with hok | ⟨hover, hmeasured⟩
    · cases hok.symm.trans hr
    · cases hover.symm.trans hr
      exact h.overflows (Problem.not_inRange_of_overflow hmeasured)
  · unfold Branch.enlist
    split
    · exact hb
    · exact h.same b _ hb rfl rfl

theorem post (h : Calm p I E) (hg : p.grammar.Regular) (hw : ¬ w.constraint.Scans) :
    Preserves I E (post p fill unifying w) := by
  refine (h.steady hg).post (fun t => ?_) fun _ _ _ _ hacts hmem =>
    absurd hmem (Watch.equate_not_mem_actions hw hacts)
  obtain ⟨result, he⟩ := Watch.actions_eq_mapError (p := p) hw t
  rw [he]
  exact .attempt h.faults result

-- Away from the root nothing has to occur.
theorem announceTo (h : Calm p I E) (hg : p.grammar.Regular) (hp : path ≠ []) (k : Constraint) :
    Preserves I E (announceTo p fill unifying path k) := by
  unfold BranchM.announceTo
  intro b hb
  rw [meets_bind, meets_get, meets_bind]
  cases hwatch : k.watchAt p b.tree path with
  | error fault => exact h.faults fault
  | ok asked =>
      have hlogged : I { b with log := ⟨k, path, asked⟩ :: b.log } := h.same b _ hb rfl rfl
      rw [meets_attempt rfl, meets_bind, meets_modify]
      cases asked with
      | none => exact hlogged
      | some w => exact h.post hg (Constraint.watchAt_below hp hwatch) _ hlogged

theorem announce (h : Calm p I E) (hg : p.grammar.Regular) (hp : path ≠ []) :
    Preserves I E (announce p fill unifying path) :=
  .forM fun k _ => .whenFeasible (h.announceTo hg hp k)

end Calm

end BranchM

end TreeSearch
