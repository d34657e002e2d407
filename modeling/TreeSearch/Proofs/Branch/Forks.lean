import TreeSearch.Proofs.Branch.Waiting
import TreeSearch.Proofs.Branch.WithinLimits

namespace TreeSearch

inductive Reply where
  | done
  | truth (feasible : Bool)
  | outcome (comparison : Comparison)
  deriving DecidableEq

-- A command together with what it answers.
def Command.ask (p : Problem) (fuel : Nat) : Command → BranchM Reply
  | .request (.order first second) => return .outcome (← BranchM.order p false first second)
  | .request .fixPoint => return .truth (← BranchM.fixPoint p fuel)
  | .request .materialize => return .truth (← BranchM.materialize p fuel)
  | command => do
      command.work p fuel
      return .done

-- Commands with the steps that each of them is given.
abbrev Script := List (Command × Nat)

namespace Branch

-- Everything about a branch but the places of the line.
def face (b : Branch) : Branch := b.lined []

-- What a script comes to, command after command: the reply, or how the command has halted, and the
-- face of the branch that is left. The next command goes on from there.
def transcript (p : Problem) (b : Branch) : Script → List (Except Halt Reply × Branch)
  | [] => []
  | (command, steps) :: script => match (command.ask p steps).run b with
      | .ok reply c => (.ok reply, c.face) :: c.transcript p script
      | .error halt c => (.error halt, c.face) :: c.transcript p script

end Branch

variable {p : Problem} {a b c : Branch} {line : List Watch} {root : Tree}

namespace BranchM

-- Where no hole is filled nothing changes.
theorem meets_materialize (steps : Nat) :
    (materialize p steps).Meets b (fun filled c => filled = false → c = b) fun _ _ => True := by
  cases steps with
  | zero => trivial
  | succ steps =>
      unfold materialize
      rw [meets_bind, meets_get]
      split
      · exact fun _ => rfl
      · split
        · exact fun _ => rfl
        · rw [meets_bind]
          refine (Meets.anyhow _).mono (fun _ c _ => ?_) fun _ _ hh => hh
          rw [meets_bind]
          exact (Meets.anyhow _).mono (fun _ _ _ h => nomatch h) fun _ _ hh => hh

theorem mirrors_ask (S : Likeness) (steps : Nat) (command : Command)
    (hpop : command = .request .fixPoint → Mirrors S pop) : Mirrors S (command.ask p steps) := by
  have h := steady_mirrors p S
  have hplain : Mirrors S (command.work p steps >>= fun _ => pure Reply.done) :=
    h.bind (mirrors_command p S steps command hpop) fun _ => h.pure _
  cases command with
  | request asked =>
      cases asked with
      | order first second => exact h.bind (h.order false first second) fun _ => h.pure _
      | fixPoint => exact h.bind (mirrors_fixPoint p S (hpop rfl) steps) fun _ => h.pure _
      | materialize => exact h.bind (mirrors_materialize p S steps) fun _ => h.pure _
      | _ => exact hplain
  | _ => exact hplain

end BranchM

namespace Branch

-- A script does not tell lines apart that may stand in for each other, as long as it is not too late.
theorem transcript_lined {S : Likeness} {script : Script} (hfits : S.fits b line)
    (hpop : ∀ x ∈ script, x.1 = .request .fixPoint → BranchM.Mirrors S BranchM.pop)
    (hnot : ∀ x ∈ b.transcript p script, ¬ S.late x.2.statistics.reactivations) :
    (b.lined line).transcript p script = b.transcript p script := by
  induction script generalizing b line with
  | nil => rfl
  | cons x script ih =>
      obtain ⟨command, steps⟩ := x
      have hask := (BranchM.mirrors_ask (p := p) S steps command
        (hpop (command, steps) List.mem_cons_self)).alike b line hfits
      have hlater := fun y hy => hpop y (List.mem_cons_of_mem _ hy)
      rw [transcript] at hnot ⊢
      rw [transcript]
      cases hr : (command.ask p steps).run b with
      | ok reply c =>
          rw [hr] at hnot
          obtain ⟨rest, hrun, hc⟩ := (hask.ok hr).resolve_left (hnot _ List.mem_cons_self)
          rw [hrun]
          exact congrArg (_ :: ·) (ih hc hlater fun y hy => hnot y (List.mem_cons_of_mem _ hy))
      | error halt c =>
          rw [hr] at hnot
          obtain ⟨rest, hrun, hc⟩ := (hask.error hr).resolve_left (hnot _ List.mem_cons_self)
          rw [hrun]
          exact congrArg (_ :: ·) (ih hc hlater fun y hy => hnot y (List.mem_cons_of_mem _ hy))

-- A fork of a branch that has left no place behind is the branch itself.
theorem fork_eq_self (h : ∀ w ∈ b.queue.line, w ∈ b.queue.pending) : b.fork = b := by
  have hline : b.queue.line.filter (· ∈ b.queue.pending) = b.queue.line :=
    List.filter_eq_self.mpr fun w hw => by simpa using h w hw
  show b.lined (b.queue.line.filter (· ∈ b.queue.pending)) = b
  rw [hline]
  rfl

-- So is a fork that is taken when propagation has ended well.
theorem fork_of_fixPoint (hg : p.grammar.Regular) {steps : Nat} (done : (BranchM.fixPoint p steps).run b = .ok true c) :
    c.fork = c := by
  refine fork_eq_self fun w hw => ?_
  rw [((BranchM.meets_fixPoint hg steps).ok done rfl).1] at hw
  cases hw

-- What has settled is as the last propagation has left it.
theorem fixPoint_of_settle {steps : Nat} (done : (BranchM.settle p steps).run b = .ok true c) :
    ∃ steps' m, (BranchM.fixPoint p steps').run m = .ok true c := by
  induction steps generalizing b with
  | zero => cases done
  | succ steps ih =>
      unfold BranchM.settle at done
      obtain ⟨feasible, m, hfixed, done⟩ := BranchM.run_bind_eq_ok.mp done
      cases feasible with
      | false => cases done
      | true =>
          obtain ⟨again, n, hfilled, hrest⟩ := BranchM.run_bind_eq_ok.mp done
          cases again with
          | true => exact ih hrest
          | false =>
              obtain rfl := (BranchM.meets_materialize steps).ok hfilled rfl
              obtain ⟨-, rfl⟩ := EStateM.Result.ok.inj (show EStateM.Result.ok n.feasible n = .ok true c from hrest)
              exact ⟨steps, b, hfixed⟩

-- And so is every fork that a search takes, which is of a branch that has settled.
theorem fork_of_settle (hg : p.grammar.Regular) {steps : Nat} (done : (BranchM.settle p steps).run b = .ok true c) :
    c.fork = c := by
  obtain ⟨_, _, hfixed⟩ := fixPoint_of_settle done
  exact fork_of_fixPoint hg hfixed

-- A fork goes through a script just as the branch does, if the script does not propagate, if the
-- branch has left no place behind, or if its queue is in order and the script takes no constraint
-- back into service.
theorem Ran.fork_transcript {fuel : Nat} (start : Branch.start p fuel root = .ok a)
    {commands : List Command} (past : a.Ran p commands b) (script : Script)
    (h : (∀ x ∈ script, x.1 ≠ .request .fixPoint) ∨ (∀ w ∈ b.queue.line, w ∈ b.queue.pending) ∨
      b.queue.line.filter (· ∈ b.active) = b.queue.pending ∧ ∀ x ∈ b.transcript p script,
        x.2.statistics.reactivations = b.statistics.reactivations) :
    b.fork.transcript p script = b.transcript p script := by
  have hfork : b.fork = b.lined b.queue.copy.line := rfl
  rcases h with hplain | htidy | ⟨horder, hnone⟩
  · rw [hfork]
    exact transcript_lined (S := .any) trivial (fun x hx he => absurd he (hplain x hx)) fun _ _ => id
  · rw [fork_eq_self htidy]
  · have hb : b.InOrder := ⟨past.listed start, horder⟩
    rw [hfork]
    refine transcript_lined (S := .inOrder b.statistics.reactivations) ⟨Nat.le_refl _, hb, hb.fork⟩
      (fun _ _ _ => Likeness.mirrors_pop_inOrder _) fun x hx hlate => ?_
    exact absurd (hnone x hx) (Nat.ne_of_gt hlate)

section Twins

-- Two constraints on a pair of open positions, of which the first one has retired.
def oneLeaf : Watch := ⟨[], .unique 0⟩

def someLeaf : Watch := ⟨[], .contains 0⟩

def twinsWatched : Branch :=
  { twinsOpen with active := ⟨[oneLeaf, someLeaf]⟩, statistics := ⟨0, 0, 2, 0, 0⟩ }

def twinsWaiting : Branch :=
  { twinsWatched with
    active := ⟨[someLeaf]⟩
    retired := ⟨[oneLeaf]⟩
    queue := ⟨[oneLeaf, someLeaf], [someLeaf]⟩ }

-- The first position is narrowed, which settles the constraint that was waiting.
def twinsScript : Script := [(.request (.strike [0] 1), 1), (.request .fixPoint, 2)]

def twinsNarrowed : Branch :=
  { Branch.of (.node 1 [.hole "S" (.ofList [0]), .hole "S" (.ofList [0, 1])]) with
    active := ⟨[someLeaf]⟩
    retired := ⟨[oneLeaf]⟩
    queue := ⟨[], [someLeaf]⟩
    statistics := ⟨0, 1, 2, 0, 0⟩ }

def twinsServed : Branch :=
  { twinsNarrowed with
    active := ⟨[]⟩
    retired := ⟨[oneLeaf, someLeaf]⟩
    queue := .empty
    statistics := ⟨0, 1, 2, 1, 0⟩ }

theorem fork_transcript_twins :
    (∃ commands, twinsOpen.Ran .twins commands twinsWaiting) ∧ twinsWaiting.fork ≠ twinsWaiting ∧
      twinsWaiting.transcript .twins twinsScript =
        [(.ok .done, twinsNarrowed), (.ok (.truth true), twinsServed)] ∧
      twinsWaiting.fork.transcript .twins twinsScript = twinsWaiting.transcript .twins twinsScript := by
  have hstart : Branch.start .twins 2 (.twins (.hole "S" (.ofList [0, 1]))) = .ok twinsOpen := rfl
  have hone : ((Command.request (.post oneLeaf)).work .twins 1).run twinsOpen =
      .ok () { twinsOpen with active := ⟨[oneLeaf]⟩, statistics := ⟨0, 0, 1, 0, 0⟩ } := rfl
  have hsome : ((Command.request (.post someLeaf)).work .twins 1).run
      { twinsOpen with active := ⟨[oneLeaf]⟩, statistics := ⟨0, 0, 1, 0, 0⟩ } = .ok () twinsWatched := rfl
  have hqueued : ((Command.schedule oneLeaf).work .twins 1).run twinsWatched =
      .ok () { twinsWatched with queue := ⟨[oneLeaf], [oneLeaf]⟩ } := rfl
  have hboth : ((Command.schedule someLeaf).work .twins 1).run
      { twinsWatched with queue := ⟨[oneLeaf], [oneLeaf]⟩ } =
        .ok () { twinsWatched with queue := ⟨[oneLeaf, someLeaf], [oneLeaf, someLeaf]⟩ } := rfl
  have hretired : ((Command.retire oneLeaf).work .twins 1).run
      { twinsWatched with queue := ⟨[oneLeaf, someLeaf], [oneLeaf, someLeaf]⟩ } =
        .ok () twinsWaiting := rfl
  have hpast : twinsOpen.Ran .twins [.request (.post oneLeaf), .request (.post someLeaf),
      .schedule oneLeaf, .schedule someLeaf, .retire oneLeaf] twinsWaiting :=
    .command _ (.command _ (.command _ (.command _ (.command _ .refl hone) hsome) hqueued) hboth) hretired
  have htranscript : twinsWaiting.transcript .twins twinsScript =
      [(.ok .done, twinsNarrowed), (.ok (.truth true), twinsServed)] := rfl
  have hnone : ∀ x ∈ twinsWaiting.transcript .twins twinsScript, x.2.statistics.reactivations = 0 := by
    rw [htranscript]
    decide
  exact ⟨⟨_, hpast⟩, by decide, htranscript,
    hpast.fork_transcript hstart twinsScript (Or.inr (Or.inr ⟨(hpast.inOrder hstart rfl).order, hnone⟩))⟩

-- When the positions are united, the first constraint comes back and takes its old place, which the
-- fork does not have. It is served first in the branch and last in the fork.
theorem fork_parts_twins : ∃ script : Script,
    twinsWaiting.fork.transcript .twins script ≠ twinsWaiting.transcript .twins script :=
  ⟨[(.request (.strike [0] 1), 1), (.request (.equate [0] [1]), 1), (.request .fixPoint, 3)], by decide⟩

end Twins

end Branch

end TreeSearch
