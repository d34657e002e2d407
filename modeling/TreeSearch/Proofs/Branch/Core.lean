import TreeSearch.Proofs.Branch.Parts

namespace TreeSearch

variable {p : Problem} {b c : Branch} {α : Type}

namespace Branch

theorem core_eq_iff : b.core = c.core ↔
    b.tree = c.tree ∧ b.classes = c.classes ∧ b.feasible = c.feasible := by
  constructor
  · intro h
    have htree : b.core.tree = c.core.tree := by rw [h]
    have hclasses : b.core.classes = c.core.classes := by rw [h]
    have hfeasible : b.core.feasible = c.core.feasible := by rw [h]
    exact ⟨htree, hclasses, hfeasible⟩
  · rintro ⟨htree, hclasses, hfeasible⟩
    simp only [core, htree, hclasses, hfeasible]

theorem core_notify (b : Branch) (unifying : Bool) (path : Path) : (b.notify unifying path).core = b.core := by
  simp [core_eq_iff]

end Branch

namespace BranchM

-- Work that comes to the same in branches with the same core, and to the same core.
def Oblivious (work : BranchM α) : Prop :=
  ∀ b c, b.core = c.core → work.Meets b
    (fun a d => ∃ e, work.run c = .ok a e ∧ d.core = e.core)
    fun halt d => ∃ e, work.run c = .error halt e ∧ d.core = e.core

theorem Oblivious.throw (halt : Halt) : Oblivious (throw halt : BranchM α) :=
  fun _ c h => ⟨c, rfl, h⟩

theorem Oblivious.modify {f : Branch → Branch} (hf : ∀ b c, b.core = c.core → (f b).core = (f c).core) :
    Oblivious (modify f : BranchM PUnit) :=
  fun b c h => ⟨f c, rfl, hf b c h⟩

theorem Oblivious.reckon (result : Except Halt α) : Oblivious (reckon result) := by
  cases result with
  | ok a => exact fun _ c h => ⟨c, rfl, h⟩
  | error halt => exact .throw halt

theorem composed_oblivious : Composed fun work => Oblivious work where
  pure _ _ c h := ⟨c, rfl, h⟩
  attempt _ := .reckon _
  peek same hn := by
    rename_i next
    intro b c h
    have hsame : next b = next c := (same b).symm.trans ((congrArg next h).trans (same c))
    have hrun : (get >>= next).run c = (next b).run c := by
      rw [hsame]
      rfl
    rw [meets_bind, meets_get, hrun]
    exact hn b b c h
  bind hwork hn := by
    intro b c h
    rw [meets_bind]
    refine (hwork b c h).mono (fun a d hd => ?_) fun halt d hd => ?_
    · obtain ⟨e, hrun, he⟩ := hd
      rw [run_bind, hrun]
      exact hn a d e he
    · obtain ⟨e, hrun, he⟩ := hd
      exact ⟨e, by rw [run_bind, hrun], he⟩

theorem oblivious_edit (unifying : Bool) (path : Path) (part : Tree) (count : Statistics → Statistics) :
    Oblivious (edit unifying path part count) := by
  have h := composed_oblivious
  refine h.peek (fun _ => rfl) fun b => h.bind (h.attempt _) fun tree => .modify fun b c hsame => ?_
  obtain ⟨-, hclasses, hfeasible⟩ := Branch.core_eq_iff.mp hsame
  rw [Branch.core_notify, Branch.core_notify]
  exact Branch.core_eq_iff.mpr ⟨rfl, hclasses, hfeasible⟩

theorem pruning_oblivious (p : Problem) : Pruning p fun work => Oblivious work := by
  have hfail : Oblivious fail := .modify fun b c h => by
    obtain ⟨htree, hclasses, -⟩ := Branch.core_eq_iff.mp h
    exact Branch.core_eq_iff.mpr ⟨htree, hclasses, rfl⟩
  exact composed_oblivious.pruning (fun _ => .reckon _) hfail fun unifying mask path =>
    composed_oblivious.narrowOne hfail (fun part count _ => oblivious_edit unifying path part count) mask

theorem oblivious_unite (f : PathClasses → PathClasses) :
    Oblivious (modify fun b : Branch => { b with classes := f b.classes } : BranchM PUnit) :=
  .modify fun b c h => by
    obtain ⟨htree, hclasses, hfeasible⟩ := Branch.core_eq_iff.mp h
    exact Branch.core_eq_iff.mpr ⟨htree, congrArg f hclasses, hfeasible⟩

theorem oblivious_order (unifying : Bool) (first second : Path) : Oblivious (order p unifying first second) :=
  (pruning_oblivious p).order unifying first second

theorem announce_of_constraints_eq_nil (hnone : p.grammar.constraints = []) (fill : Filler)
    (unifying : Bool) (path : Path) : announce p fill unifying path = pure () := by
  unfold announce
  rw [hnone]
  rfl

-- Without constraints, new positions wake nothing.
theorem oblivious_fillClass (hnone : p.grammar.constraints = []) (steps : Nat) (unifying : Bool)
    (path : Path) (rule : Nat) : Oblivious (fillClass p steps unifying path rule) := by
  refine (pruning_oblivious p).fillClass (fun _ _ part count _ => oblivious_edit _ _ part count)
    (fun _ _ _ => .throw _) oblivious_unite (fun fill unifying path _ => ?_) steps unifying path rule
  rw [announce_of_constraints_eq_nil hnone]
  exact composed_oblivious.pure ()

theorem oblivious_equate (hnone : p.grammar.constraints = []) (steps : Nat) (first second : Path) :
    Oblivious (equate (fillClass p steps) first second) :=
  (pruning_oblivious p).equate (oblivious_fillClass hnone steps) oblivious_unite first second

end BranchM

end TreeSearch
