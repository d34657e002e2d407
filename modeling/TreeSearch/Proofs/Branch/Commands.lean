import TreeSearch.Proofs.Branch.Parts
import TreeSearch.Proofs.Branch.Unified

namespace TreeSearch

variable {p : Problem} {D : Set (Set Path)} {b c : Branch} {root : Tree}

inductive Command where
  | request (asked : Request)
  | fail
  | retire (w : Watch)
  | schedule (w : Watch)
  | propagate (w : Watch)
  | announce (path : Path) (c : Constraint)

def Command.work (p : Problem) (fuel : Nat) : Command → BranchM Unit
  | request asked => asked.work p fuel
  | fail => BranchM.fail
  | retire w => modify (·.retire w)
  | schedule w => modify (·.schedule w)
  | propagate w => BranchM.propagate p (BranchM.fillClass p fuel) false w
  | announce path c => BranchM.announceTo p (BranchM.fillClass p fuel) false path c

-- The branches that come of a tree whose open positions have rules. A command that is interrupted
-- leaves behind what it has done until then.
inductive Branch.Commanded (p : Problem) (root : Tree) : Branch → Prop
  | start {fuel : Nat} {b : Branch} (rules : ∀ x ∈ root.holes, x.2.2.isEmpty = false)
      (done : Branch.start p fuel root = .ok b) : Commanded p root b
  | fork {b : Branch} (h : Commanded p root b) : Commanded p root b.fork
  | command {fuel : Nat} {b c : Branch} (command : Command) (h : Commanded p root b)
      (done : (command.work p fuel).run b = .ok () c) : Commanded p root c
  | halt {fuel : Nat} {halt : Halt} {b c : Branch} (command : Command) (h : Commanded p root b)
      (halted : (command.work p fuel).run b = .error halt c) (between : p.Interrupts halt) :
      Commanded p root c

namespace BranchM

-- Filling, uniting, posting and propagating are up to whoever does them.
theorem Steady.request {L : {α : Type} → BranchM α → Prop} (h : Steady p L) {steps : Nat} {asked : Request}
    (fills : ∀ path rule, L (BranchM.fill p steps path rule))
    (equates : ∀ first second, L (equate (fillClass p steps) first second))
    (posts : ∀ w, L (BranchM.post p (fillClass p steps) false w))
    (settles : asked = .fixPoint → L (BranchM.fixPoint p steps))
    (materializes : L (BranchM.materialize p steps)) : L (asked.work p steps) := by
  cases asked with
  | fill path rule => exact fills path rule
  | strike path rule => exact h.narrowBy path
  | strikeAll path rules => exact h.narrowBy path
  | keep path mask => exact h.narrow false path mask
  | keepAll path rules => exact h.narrowBy path
  | strikeAbove path rule => exact h.narrowBy path
  | strikeBelow path rule => exact h.narrowBy path
  | equate first second => exact equates first second
  | order first second => exact h.bind (h.order false first second) fun _ => h.pure _
  | post w => exact posts w
  | fixPoint => exact h.bind (settles rfl) fun _ => h.pure _
  | materialize => exact h.bind materializes fun _ => h.pure _

theorem Steady.command {L : {α : Type} → BranchM α → Prop} (h : Steady p L) {steps : Nat} {command : Command}
    (requests : ∀ asked, command = .request asked → L (asked.work p steps))
    (schedules : ∀ w, L (modify (Branch.schedule · w) : BranchM PUnit))
    (propagates : ∀ w, L (BranchM.propagate p (fillClass p steps) false w))
    (announces : ∀ path k, command = .announce path k →
      L (BranchM.announceTo p (fillClass p steps) false path k)) : L (command.work p steps) := by
  cases command with
  | request asked => exact requests asked rfl
  | fail => exact h.fail
  | retire w => exact h.retire w
  | schedule w => exact schedules w
  | propagate w => exact propagates w
  | announce path k => exact announces path k rfl

theorem keeps_announceAnywhere (hg : p.grammar.Regular) (steps : Nat) {path : Path} {k : Constraint}
    (hb : b.Balanced p D) :
    Keeps p (fun _ => True) D (announceTo p (fillClass p steps) false path k) b fun _ _ => True := by
  unfold announceTo
  rw [keeps_get_bind]
  refine .attempt_bind hb (Or.inl lenient) fun asked _ => ?_
  refine Keeps.bind (R := fun _ _ => True) (.modify hb rfl rfl (fun hf => hf) trivial)
    fun _ c _ hc _ => ?_
  cases asked with
  | none => exact .pure hc trivial
  | some w => exact keeps_post hg (levels_fillClass hg steps) hc (Or.inl lenient) fun _ => trivial

theorem keeps_command (hg : p.grammar.Regular) (steps : Nat) (command : Command)
    (hb : b.Balanced p D) : Keeps p (fun _ => True) D (command.work p steps) b fun _ _ => True := by
  cases command with
  | request asked => exact keeps_request hg steps asked hb
  | fail => exact .fail hb trivial
  | retire w => exact .modify hb rfl rfl (fun hf => hf) trivial
  | schedule w =>
      have hsame : (b.schedule w).tree = b.tree ∧ (b.schedule w).classes = b.classes ∧
          (b.schedule w).feasible = b.feasible := by
        unfold Branch.schedule
        split <;> exact ⟨rfl, rfl, rfl⟩
      exact .modify hb hsame.1 hsame.2.1 (fun hf => hsame.2.2 ▸ hf) trivial
  | propagate w => exact keeps_propagate hg (levels_fillClass hg steps) hb (Or.inl lenient) fun _ => trivial
  | announce path k => exact keeps_announceAnywhere hg steps hb

end BranchM

namespace Branch

-- What a command leaves behind, whether it ends or is interrupted.
theorem Commanded.spec (hg : p.grammar.Regular) (h : Commanded p root b) :
    b.Balanced p ∅ ∧ p.grammar.WellFormed none root ∧ b.tree.Refines root := by
  induction h with
  | @start fuel b rules done =>
      obtain ⟨hcheck, hrun⟩ := start_eq_ok.mp done
      have hw := (Grammar.check_ofTree hg _).mp hcheck
      obtain ⟨hgrows, hb, -⟩ := (BranchM.keeps_start hg fuel (balanced_of hw rules)).ok hrun
      exact ⟨hb, hw, hgrows.refines⟩
  | fork _ ih =>
      obtain ⟨hb, hw, hr⟩ := ih
      exact ⟨hb.congr rfl rfl fun hf => hf, hw, hr⟩
  | command command _ done ih =>
      obtain ⟨hb, hw, hr⟩ := ih
      obtain ⟨hgrows, hc, -⟩ := (BranchM.keeps_command hg _ command hb).ok done
      exact ⟨hc, hw, hgrows.refines.trans hr⟩
  | halt command _ halted between ih =>
      obtain ⟨hb, hw, hr⟩ := ih
      obtain ⟨-, hgrows, hc⟩ := (BranchM.keeps_command hg _ command hb).error halted between
      exact ⟨hc, hw, hgrows.refines.trans hr⟩

end Branch

end TreeSearch
