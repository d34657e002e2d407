import TreeSearch.Proofs.Branch.Resting

namespace TreeSearch

variable {p : Problem} {b c : Branch} {α β : Type}

-- A command that leaves it to the constraints of the grammar what is watched.
def Command.Meant (p : Problem) (b : Branch) : Command → Prop
  | request (.post w) => w ∈ b.active ∨ w ∈ b.retired
  | request _ => True
  | fail => True
  | retire w => w ∈ b.active ∨ w ∈ b.retired
  | schedule _ => True
  | propagate w => w ∈ b.active ∨ w ∈ b.retired
  | announce path k => k ∈ p.grammar.constraints ∧ ∃ s, b.tree.get? path = some s

-- The branches that come of a tree whose open positions have rules, when all that is watched comes
-- from the constraints of the grammar.
inductive Branch.Governed (p : Problem) : Branch → Prop
  | start {fuel : Nat} {tree : Tree} {b : Branch} (rules : ∀ x ∈ tree.holes, x.2.2.isEmpty = false)
      (done : Branch.start p fuel tree = .ok b) : Governed p b
  | fork {b : Branch} (h : Governed p b) : Governed p b.fork
  | command {fuel : Nat} {b c : Branch} (command : Command) (h : Governed p b)
      (meant : command.Meant p b) (done : (command.work p fuel).run b = .ok () c) : Governed p c
  | fault {fuel : Nat} {fault : Fault} {b c : Branch} (command : Command) (h : Governed p b)
      (meant : command.Meant p b)
      (halted : (command.work p fuel).run b = .error (.fault fault) c) : Governed p c

def Halt.IsFault : Halt → Prop
  | .fault _ => True
  | .overflow | .outOfFuel => False

namespace BranchM

-- Work that comes to a halt of H only in a first look at the branch.
def Prompt (H : Halt → Prop) (work : BranchM α) (b : Branch) : Prop :=
  work.Meets b (fun _ _ => True) fun halt c => H halt → c = b

section Faults

variable {work : BranchM α} {H : Halt → Prop} {steps : Nat}

theorem Keeps.prompt {F : Halt → Prop} {Q : α → Branch → Prop} (h : Keeps p F ∅ work b Q)
    (hF : ∀ halt, H halt → p.Interrupts halt ∧ ¬ F halt) : work.Prompt H b :=
  h.mono (fun _ _ _ => trivial) fun halt _ hh hhalt =>
    absurd (hh (hF halt hhalt).1).1 (hF halt hhalt).2

-- Work without interruptions.
theorem Keeps.prompt_calm {Q : α → Branch → Prop} (h : Keeps p (fun _ => False) ∅ work b Q) :
    work.Prompt p.Interrupts b :=
  h.prompt fun _ hbetween => ⟨hbetween, id⟩

theorem Prompt.faults (h : work.Prompt p.Interrupts b) : work.Prompt Halt.IsFault b := by
  refine h.mono (fun _ _ _ => trivial) fun halt c hh hfault => ?_
  cases halt with
  | fault fault => exact hh trivial
  | overflow | outOfFuel => exact hfault.elim

theorem Prompt.attempt_bind {result : Except Fault β} {next : β → BranchM α}
    (h : ∀ a, result = .ok a → (next a).Prompt H b) : (attempt result >>= next).Prompt H b := by
  unfold Prompt
  rw [meets_bind]
  cases hr : result with
  | ok a => exact h a hr
  | error fault => exact fun _ => rfl

theorem Prompt.nodeAt_bind {path : Path} {next : Tree → BranchM α}
    (h : ∀ s, b.tree.get? path = some s → (next s).Prompt H b) : (nodeAt path >>= next).Prompt H b := by
  unfold nodeAt
  rw [bind_assoc]
  exact Prompt.attempt_bind fun s hs => h s (Tree.get_eq_ok_iff.mp hs)

theorem Prompt.whenFeasible {work : BranchM Unit} (h : b.feasible = true → work.Prompt H b) :
    (BranchM.whenFeasible work).Prompt H b :=
  meets_whenFeasible.mpr ⟨h, fun _ => trivial⟩

theorem Prompt.done (h : work.Prompt H b) : (work >>= fun _ => (pure () : BranchM Unit)).Prompt H b := by
  unfold Prompt
  rw [meets_bind]
  exact h.mono (fun _ _ _ => trivial) fun _ _ hh => hh

theorem prompt_narrow {unifying : Bool} {path : Path} {mask : Mask} (hb : b.Balanced p ∅) :
    (narrow unifying path mask).Prompt p.Interrupts b := by
  by_cases hs : ∃ s, b.tree.get? path = some s
  · exact (keeps_narrow hb (Or.inr hs)).prompt_calm
  · exact .nodeAt_bind fun s h => absurd ⟨s, h⟩ hs

theorem prompt_fill (hg : p.grammar.Regular) {path : Path} {rule : Int} (hb : b.Balanced p ∅) :
    (fill p steps path rule).Prompt p.Interrupts b := by
  unfold fill
  refine .nodeAt_bind fun s hs => ?_
  split
  · exact fun _ => rfl
  · refine .whenFeasible fun _ => .attempt_bind fun n _ => ?_
    refine Keeps.prompt_calm (Q := fun _ _ => True)
      ((keeps_narrow hb (Or.inr ⟨s, hs⟩)).bind fun _ c hc hcb _ => ?_)
    refine .whenFeasible hcb (fun _ => ?_) fun _ => trivial
    exact levels_fillClass hg steps c false path n ∅ (hcb.excuse _) (hc.placed ⟨s, hs⟩)

theorem prompt_equate (hg : p.grammar.Regular) {first second : Path} (hb : b.Balanced p ∅) :
    (equate (fillClass p steps) first second).Prompt p.Interrupts b := by
  by_cases hs : (∃ s, b.tree.get? first = some s) ∧ ∃ v, b.tree.get? second = some v
  · exact (keeps_equate (levels_fillClass hg steps) hb (Or.inr hs.1) (Or.inr hs.2)).prompt_calm
  · exact .nodeAt_bind fun s h => .nodeAt_bind fun v h' => absurd ⟨⟨s, h⟩, v, h'⟩ hs

theorem orderFrom_eq_orderWith (unifying : Bool) (t : Tree) (first second : Path) :
    ∃ below, orderFrom p unifying t first second = orderWith p unifying below first second := by
  cases t with
  | node r cs => exact ⟨_, rfl⟩
  | hole => exact ⟨_, rfl⟩
  | choice => exact ⟨_, rfl⟩
  | var => exact ⟨_, rfl⟩

theorem prompt_order {unifying : Bool} {first second : Path} (hb : b.Balanced p ∅) :
    (order p unifying first second).Prompt p.Interrupts b := by
  unfold order
  unfold Prompt
  rw [meets_bind, meets_isFeasible]
  split
  · trivial
  · refine Prompt.nodeAt_bind fun s hs => ?_
    by_cases hv : ∃ v, b.tree.get? second = some v
    · exact (keeps_orderFrom s hb ⟨s, hs, .refl s⟩ (Or.inr hv)).prompt_calm
    · obtain ⟨below, he⟩ := orderFrom_eq_orderWith (p := p) unifying s first second
      rw [he]
      unfold orderWith Prompt
      rw [meets_bind, meets_isFeasible]
      split
      · trivial
      · exact Prompt.nodeAt_bind fun _ _ => .nodeAt_bind fun v h => absurd ⟨v, h⟩ hv

-- What has been posted is not posted again.
theorem idles_post {fill : Filler} {unifying : Bool} {w : Watch} (hw : w ∈ b.active ∨ w ∈ b.retired) :
    (post p fill unifying w).Idles b () := by
  unfold post
  refine Idles.bind .get ?_
  rw [if_pos (Or.inr hw)]
  exact .pure ()

-- A fault for want of rules is out of the question where all open positions have rules.
theorem prompt_of_stops {T : Tree → Prop} {limit : Nat → Prop} {Q Q' : α → Branch → Prop}
    (h : work.Meets b Q (Stops p T limit b)) (hk : Keeps p (fun _ => True) ∅ work b Q') :
    work.Prompt Halt.IsFault b := by
  refine (h.and hk).mono (fun _ _ _ => trivial) fun halt c ⟨hstops, hc⟩ hfault => ?_
  cases halt with
  | fault fault =>
      obtain ⟨-, -, path, category, d, hs, hempty⟩ := hstops
      obtain ⟨-, -, hc⟩ := hc trivial
      exact absurd ((hc.intact.rules path category d hs).symm.trans hempty) nofun
  | overflow | outOfFuel => exact hfault.elim

theorem idles_pop (h : b.queue = .empty) : pop.Idles b none := by
  obtain ⟨⟩ := b
  cases h
  exact ⟨rfl, rfl⟩

theorem prompt_command (hg : p.grammar.Regular) {command : Command} (hb : b.Balanced p ∅) (hs : b.Sound p)
    (meant : command.Meant p b) : (command.work p steps).Prompt Halt.IsFault b := by
  have hready : b.Ready p fun _ => False := ⟨hs, fun _ ht => ht.elim⟩
  have hfill := levels_fillClass hg steps
  have hnarrow {path : Path} {mask : Mask} : (narrow false path mask).Prompt Halt.IsFault b :=
    (prompt_narrow hb).faults
  -- a constraint may meet numbers that are too large, but never faults
  have hfault (halt : Halt) (h : halt.IsFault) : p.Interrupts halt ∧ halt ≠ .overflow := by
    cases halt with
    | fault fault => exact ⟨trivial, nofun⟩
    | overflow | outOfFuel => exact h.elim
  cases command with
  | request asked =>
      cases asked with
      | fill path rule => exact (prompt_fill hg hb).faults
      | strike path rule => exact .attempt_bind fun _ _ => hnarrow
      | strikeAll path rules => exact .attempt_bind fun _ _ => hnarrow
      | keep path mask => exact hnarrow
      | keepAll path rules => exact .attempt_bind fun _ _ => hnarrow
      | strikeAbove path rule => exact .attempt_bind fun _ _ => hnarrow
      | strikeBelow path rule => exact .attempt_bind fun _ _ => hnarrow
      | equate first second => exact (prompt_equate hg hb).faults
      | order first second => exact (prompt_order hb).faults.done
      | post w =>
          exact (idles_post meant).mono (fun _ _ _ => trivial) fun _ _ hh => hh.elim
      | fixPoint =>
          exact (prompt_of_stops (operates_fixPoint hg (fun _ ht => ht.elim) steps hready)
            (keeps_fixPoint hg steps hb)).done
      | materialize =>
          exact (prompt_of_stops (operates_materialize hg (fun _ ht => ht.elim) steps hready)
            (keeps_materialize hg steps hb)).done
  | fail => trivial
  | retire w => trivial
  | schedule w => trivial
  | propagate w =>
      obtain ⟨hin, hfits, hplaced⟩ := hs.watched w meant
      exact (keeps_propagate (F := (· = .overflow)) hg hfill hb (Or.inr ⟨hg.tame _ hin, hfits, hplaced⟩)
        fun _ => rfl).prompt hfault
  | announce path k =>
      exact (keeps_announceTo (F := (· = .overflow)) hg hfill hb meant.2 meant.1 fun _ => rfl).prompt hfault

end Faults

end BranchM

-- What holds of a branch between commands.
structure Branch.Poised (p : Problem) (b : Branch) : Prop where
  balanced : b.Balanced p ∅
  sound : b.Sound p
  rested : b.feasible = true → b.Rested p fun _ => False

section Scheduling

variable {busy : Watch → Prop}

theorem Branch.schedule_feasible (b : Branch) (w : Watch) : (b.schedule w).feasible = b.feasible := by
  unfold Branch.schedule
  split <;> rfl

theorem Branch.Sound.schedule (hs : b.Sound p) (w : Watch) : (b.schedule w).Sound p := by
  unfold Branch.schedule
  split
  · rename_i hw
    refine { hs with queue := hs.queue.add w, pending := fun v hv => ?_ }
    rcases (Worklist.mem_add b.queue w v).mp hv with hv | rfl
    · exact hs.pending v hv
    · exact hw
  · exact hs

theorem Branch.Rested.schedule (h : b.Rested p busy) (w : Watch) : (b.schedule w).Rested p busy := by
  unfold Branch.schedule
  split
  · exact fun v hv => (h v hv).imp_right (Or.imp
      (fun hq => (Worklist.mem_add b.queue w v).mpr (Or.inl hq))
      fun hstill => hstill.congr rfl fun _ _ h => h)
  · exact h

end Scheduling

namespace BranchM

open Discipline

section Commands

-- Work that leaves a poised branch poised, but for what the classes are.
def Reposes (p : Problem) (work : BranchM α) (b : Branch) : Prop :=
  b.Sound p → work.Meets b (fun _ c => c.Sound p ∧ (c.feasible = true → b.feasible = true ∧
    (b.Rested p (fun _ => False) → c.Rested p fun _ => False))) fun _ _ => True

theorem reposes_of_made {work : BranchM α} (h : (resting p).Made (fun _ => False) work b) :
    Reposes p work b :=
  fun hs => (h hs).mono (fun _ _ ⟨hc, hl, _⟩ => ⟨hc, fun hf => ⟨hl.1.proceeds.feasible hf, hl.2 hf⟩⟩)
    fun _ _ _ => trivial

theorem reposes_command (hg : p.grammar.Regular) (steps : Nat) {command : Command}
    (meant : command.Meant p b) : Reposes p (command.work p steps) b := by
  have hfill := resting_fillClass (p := p) hg
  cases command with
  | request asked =>
      cases asked with
      | fill path rule => exact reposes_of_made (made_fill hfill steps path rule)
      | strike path rule => exact reposes_of_made (made_narrowBy path)
      | strikeAll path rules => exact reposes_of_made (made_narrowBy path)
      | keep path mask => exact reposes_of_made (made_narrow path mask)
      | keepAll path rules => exact reposes_of_made (made_narrowBy path)
      | strikeAbove path rule => exact reposes_of_made (made_narrowBy path)
      | strikeBelow path rule => exact reposes_of_made (made_narrowBy path)
      | equate first second => exact reposes_of_made (made_equate (hfill steps) first second)
      | order first second => exact reposes_of_made (.followed made_order fun _ _ _ => .done _)
      | post w =>
          refine fun hs => (idles_post meant).mono ?_ fun _ _ _ => trivial
          rintro _ c ⟨-, rfl⟩
          exact ⟨hs, fun hf => ⟨hf, id⟩⟩
      | fixPoint =>
          intro hs
          show (fixPoint p steps >>= fun _ => pure ()).Meets b _ _
          rw [meets_bind]
          exact (comes_fixPoint hg steps hs).mono (fun _ c hc => ⟨hc.sound, fun hf =>
            ⟨hc.feasible hf, hc.rested hf⟩⟩) fun _ _ _ => trivial
      | materialize => exact reposes_of_made (.followed (made_materialize hfill steps) fun _ _ _ => .done _)
  | fail => exact reposes_of_made (.fail trivial)
  | retire w => exact reposes_of_made (.change (.retire meant) trivial)
  | schedule w =>
      exact fun hs => ⟨hs.schedule w, fun hf => ⟨b.schedule_feasible w ▸ hf, fun h => h.schedule w⟩⟩
  | propagate w => exact reposes_of_made (resting_propagate hg steps meant)
  | announce path k =>
      refine reposes_of_made (made_announceTo fun c w hl hw => ?_)
      exact resting_posts hg (hfill steps) _ c false k path w meant.1 (placed hl meant.2) hw

end Commands

end BranchM

namespace Branch

theorem Governed.poised (hg : p.grammar.Regular) (h : b.Governed p) : b.Poised p := by
  induction h with
  | @start fuel tree b rules done =>
      obtain ⟨hcheck, hrun⟩ := start_eq_ok.mp done
      have hw := (Grammar.check_ofTree hg _).mp hcheck
      have hmade : (resting p).Made (fun _ => False) ((tree.positions []).forM fun x =>
          BranchM.whenFeasible (BranchM.announce p (BranchM.fillClass p fuel) false x.1)) (.of tree) :=
        .each fun x hx _ hl => .ifFeasible fun _ => BranchM.made_announce
          (resting_posts hg (resting_fillClass hg fuel))
          (Discipline.placed hl ⟨x.2, (Tree.mem_positions_nil tree x.1 x.2).mp hx⟩)
      obtain ⟨hs, hl, -⟩ := (hmade (sound_of hw)).ok hrun
      exact ⟨((BranchM.keeps_start hg fuel (balanced_of hw rules)).ok hrun).2.1, hs,
        fun hf => hl.2 hf fun w hw => nomatch hw⟩
  | fork _ ih =>
      exact ⟨ih.balanced.congr rfl rfl fun hf => hf, ih.sound.fork, fun hf w hw =>
        (ih.rested hf w hw).imp_right (Or.imp_right fun hstill => hstill.congr rfl fun _ _ h => h)⟩
  | command command _ meant done ih =>
      obtain ⟨-, hc, -⟩ := (BranchM.keeps_command hg _ command ih.balanced).ok done
      obtain ⟨hs, hrest⟩ := (BranchM.reposes_command hg _ meant ih.sound).ok done
      exact ⟨hc, hs, fun hf => (hrest hf).2 (ih.rested (hrest hf).1)⟩
  | fault command _ meant halted ih =>
      obtain rfl := (BranchM.prompt_command hg ih.balanced ih.sound meant).error halted trivial
      exact ih

-- Nothing that a command can bring about keeps propagation from a fixpoint. Where it has ended and
-- the branch is feasible, no constraint that is watched changes the tree any more, and the branch
-- stays as it is when propagation is asked for again.
theorem Governed.fixPoint_stable (hg : p.grammar.Reachable) (h : b.Governed p) {fuel : Nat}
    (done : (BranchM.fixPoint p fuel).run b = .ok true c) :
    c.feasible = true ∧
      (∀ w ∈ c.active, ∀ steps, c.tree.depth ≤ steps →
        ∃ d, (BranchM.propagate p (BranchM.fillClass p steps) false w).run c = .ok () d ∧
          d.tree = c.tree ∧ d.feasible = true) ∧
      ∀ steps, (BranchM.fixPoint p (steps + 1)).run c = .ok true c := by
  have hb := h.poised hg.regular
  obtain ⟨-, hc, -⟩ := (BranchM.keeps_fixPoint hg.regular fuel hb.balanced).ok done
  have hcomes := (comes_fixPoint hg.regular fuel hb.sound).ok done
  have hf : c.feasible = true := hcomes.result.symm
  obtain ⟨hempty, htighten⟩ := hcomes.idle rfl
  refine ⟨hf, fun w hw steps hsteps => ?_, fun steps => ?_⟩
  · rcases hcomes.rested hf (hb.rested (hcomes.feasible hf)) w hw with hbusy | hq | hstill
    · exact hbusy.elim
    · rw [hempty] at hq
      cases hq
    · exact hstill.2 c hc hf rfl (fun _ _ h => h) steps hsteps
  · refine BranchM.idles_iff.mp (.bind (.isFeasible hf) (BranchM.Idles.bind (BranchM.idles_pop hempty) ?_))
    exact .bind (BranchM.idles_iff.mpr htighten) (.isFeasible hf)

section Triple

-- Three places that have been made equal, so that both constraints wait for what is filled in.
def tripleEven : Branch :=
  { Branch.triple .unknown .unknown .unknown [[2], [1], [0], []] 1 0 with
    queue := .empty
    classes := ⟨[[[0], [2], [1]]]⟩
    statistics := ⟨1, 0, 2, 2, 0⟩ }

theorem governed_triple : Branch.Governed .triple (.triple .unknown .unknown .unknown [[2], [1], [0], []] 1 0) := by
  have hstart : Branch.start .triple 4 (.hole "S" {3}) = .ok .tripleRoot := by
    decide +kernel
  have hroot : ((Command.request (.fill [] 3)).work .triple 4).run .tripleRoot =
      .ok () (.triple .unknown .unknown .unknown [[2], [1], [0], []] 1 0) := by
    decide +kernel
  exact .command (.request (.fill [] 3)) (.start (by decide) hstart) trivial hroot

theorem fixPoint_stable_triple :
    Branch.Governed .triple (.triple .unknown .unknown .unknown [[2], [1], [0], []] 1 0) ∧
    (BranchM.fixPoint .triple 4).run (.triple .unknown .unknown .unknown [[2], [1], [0], []] 1 0) =
      .ok true tripleEven ∧
    Watch.outer ∈ tripleEven.active ∧
    tripleEven.feasible = true ∧
      (∀ w ∈ tripleEven.active, ∀ steps, tripleEven.tree.depth ≤ steps →
        ∃ d, (BranchM.propagate .triple (BranchM.fillClass .triple steps) false w).run tripleEven = .ok () d ∧
          d.tree = tripleEven.tree ∧ d.feasible = true) ∧
      ∀ steps, (BranchM.fixPoint .triple (steps + 1)).run tripleEven = .ok true tripleEven := by
  have hrun : (BranchM.fixPoint .triple 4).run (.triple .unknown .unknown .unknown [[2], [1], [0], []] 1 0) =
      .ok true tripleEven := by
    decide +kernel
  exact ⟨governed_triple, hrun, by decide, governed_triple.fixPoint_stable Grammar.reachable_triple hrun⟩

end Triple

end Branch

end TreeSearch
