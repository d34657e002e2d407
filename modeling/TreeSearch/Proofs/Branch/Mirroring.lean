import TreeSearch.Proofs.Branch.Commands
import TreeSearch.Proofs.Branch.Parts

namespace TreeSearch

variable {p : Problem} {b c : Branch} {line : List Watch} {α β : Type}

section Queue

variable {α : Type} [DecidableEq α] {q r : Worklist α}

-- What is pending does not depend on the line.
theorem Worklist.pending_add (h : r.pending = q.pending) (a : α) : (r.add a).pending = (q.add a).pending := by
  unfold Worklist.add
  rw [h]
  split
  · exact h
  · rfl

theorem Worklist.pending_addAll (h : r.pending = q.pending) (items : List α) :
    (r.addAll items).pending = (q.addAll items).pending := by
  induction items generalizing q r with
  | nil => exact h
  | cons a items ih => exact ih (Worklist.pending_add h a)

end Queue

namespace Branch

theorem schedule_lined (b : Branch) (line : List Watch) (w : Watch) :
    (b.lined line).schedule w = (b.schedule w).lined ((b.lined line).schedule w).queue.line := by
  have hsame : ((b.lined line).queue.add w).pending = (b.queue.add w).pending :=
    Worklist.pending_add (q := b.queue) (r := (b.lined line).queue) rfl w
  unfold schedule
  by_cases hw : w ∈ b.active
  · rw [if_pos hw, if_pos (show w ∈ (b.lined line).active from hw)]
    show { b with queue := (b.lined line).queue.add w } = _
    simp only [lined, ← hsame]
  · rw [if_neg hw, if_neg (show w ∉ (b.lined line).active from hw)]
    rfl

theorem notify_lined (b : Branch) (line : List Watch) (unifying : Bool) (path : Path) :
    (b.lined line).notify unifying path =
      (b.notify unifying path).lined ((b.lined line).notify unifying path).queue.line := by
  have hwoken : ((b.lined line).wake path).queue.pending = (b.wake path).queue.pending :=
    Worklist.pending_addAll (q := b.queue) (r := (b.lined line).queue) rfl _
  have hsame : ((b.lined line).notify unifying path).queue.pending = (b.notify unifying path).queue.pending := by
    cases unifying with
    | false => exact hwoken
    | true => exact Worklist.pending_addAll hwoken _
  cases unifying <;> simp only [lined, ← hsame] <;> rfl

theorem enlist_lined (b : Branch) (line : List Watch) (w : Watch) :
    (b.lined line).enlist w = (b.enlist w).lined line := by
  unfold enlist
  by_cases hw : w ∈ b.active ∨ w ∈ b.retired
  · rw [if_pos hw, if_pos (show w ∈ (b.lined line).active ∨ w ∈ (b.lined line).retired from hw)]
  · rw [if_neg hw, if_neg (show ¬ (w ∈ (b.lined line).active ∨ w ∈ (b.lined line).retired) from hw)]
    rfl

theorem reactivations_notify (b : Branch) (unifying : Bool) (path : Path) :
    b.statistics.reactivations ≤ (b.notify unifying path).statistics.reactivations := by
  cases unifying with
  | false => exact Nat.le_refl _
  | true => exact Nat.le_add_right _ _

end Branch

-- Which lines may stand in for the line of a branch, as long as not too many constraints have been
-- taken back into service. Whatever changes but a pop leaves a line that may do so as well.
structure Likeness where
  fits : Branch → List Watch → Prop
  late : Nat → Prop
  mono {m n : Nat} (h : m ≤ n) : late m → late n
  fail {b : Branch} {line : List Watch} : fits b line → fits b.fail []
  retire {b : Branch} {line : List Watch} (w : Watch) : fits b line → fits (b.retire w) line
  enlist {b : Branch} {line : List Watch} (w : Watch) : fits b line → fits (b.enlist w) line
  schedule {b : Branch} {line : List Watch} (w : Watch) :
    fits b line → fits (b.schedule w) ((b.lined line).schedule w).queue.line
  aside {b : Branch} {line : List Watch} (tree : Tree) (classes : PathClasses) (statistics : Statistics)
    (log : List Announcement) (same : statistics.reactivations = b.statistics.reactivations) :
    fits b line → fits { b with tree, classes, statistics, log } line
  notify {b : Branch} {line : List Watch} (unifying : Bool) (path : Path) : fits b line →
    late (b.notify unifying path).statistics.reactivations ∨
      fits (b.notify unifying path) ((b.lined line).notify unifying path).queue.line

namespace BranchM

variable {S : Likeness}

-- Work that comes to the same with any line that may stand in, unless it is too late for that.
structure Mirrors (S : Likeness) (work : BranchM α) : Prop where
  late (b : Branch) : S.late b.statistics.reactivations →
    work.Meets b (fun _ c => S.late c.statistics.reactivations) fun _ c => S.late c.statistics.reactivations
  alike (b : Branch) (line : List Watch) : S.fits b line → work.Meets b
    (fun a c => S.late c.statistics.reactivations ∨
      ∃ rest, work.run (b.lined line) = .ok a (c.lined rest) ∧ S.fits c rest)
    fun halt c => S.late c.statistics.reactivations ∨
      ∃ rest, work.run (b.lined line) = .error halt (c.lined rest) ∧ S.fits c rest

theorem Mirrors.throw (halt : Halt) : Mirrors S (throw halt : BranchM α) :=
  ⟨fun _ h => h, fun _ line h => Or.inr ⟨line, rfl, h⟩⟩

theorem Mirrors.reckon (result : Except Halt α) : Mirrors S (reckon result) := by
  cases result with
  | ok a => exact ⟨fun _ h => h, fun _ line h => Or.inr ⟨line, rfl, h⟩⟩
  | error halt => exact .throw halt

theorem inherited_mirrors (S : Likeness) : Inherited fun work => Mirrors S work where
  pure _ := ⟨fun _ h => h, fun _ line h => Or.inr ⟨line, rfl, h⟩⟩
  attempt _ := .reckon _
  look same hn := by
    refine ⟨fun b hb => (hn b).late b hb, fun b line hb => ?_⟩
    rw [meets_bind, meets_get]
    refine ((hn b).alike b line hb).mono (fun a c hc => ?_) fun halt c hc => ?_
    · rw [← same b line] at hc
      exact hc
    · rw [← same b line] at hc
      exact hc
  bind h hn := by
    refine ⟨fun b hb => ?_, fun b line hb => ?_⟩
    · rw [meets_bind]
      exact (h.late b hb).mono (fun a c hc => (hn a).late c hc) fun _ _ hc => hc
    · rw [meets_bind]
      refine (h.alike b line hb).mono (fun a c hc => ?_) fun halt c hc => hc.imp_right ?_
      · rcases hc with hlate | ⟨rest, hrun, hfits⟩
        · exact ((hn a).late c hlate).mono (fun _ _ => Or.inl) fun _ _ => Or.inl
        · refine ((hn a).alike c rest hfits).mono (fun x d hd => hd.imp_right ?_) fun halt d hd => hd.imp_right ?_
          · rintro ⟨left, hnext, hd⟩
            exact ⟨left, run_bind_eq_ok.mpr ⟨a, _, hrun, hnext⟩, hd⟩
          · rintro ⟨left, hnext, hd⟩
            refine ⟨left, ?_, hd⟩
            rw [run_bind, hrun]
            exact hnext
      · rintro ⟨rest, hrun, hfits⟩
        exact ⟨rest, by rw [run_bind, hrun], hfits⟩

-- With its own line a branch is as it is.
theorem Mirrors.own {work : BranchM α} (h : Mirrors S work)
    (hb : S.late b.statistics.reactivations ∨ S.fits b b.queue.line) : work.Meets b
      (fun _ c => S.late c.statistics.reactivations ∨ S.fits c c.queue.line)
      fun _ c => S.late c.statistics.reactivations ∨ S.fits c c.queue.line := by
  rcases hb with hlate | hfits
  · exact (h.late b hlate).mono (fun _ _ => Or.inl) fun _ _ => Or.inl
  · have hsame := h.alike b b.queue.line hfits
    have hown : work.run (b.lined b.queue.line) = work.run b := rfl
    unfold Meets
    cases hr : work.run b with
    | ok a c =>
        refine (hsame.ok hr).imp_right ?_
        rintro ⟨rest, hrun, hc⟩
        obtain ⟨-, he⟩ := EStateM.Result.ok.inj (hr.symm.trans (hown.symm.trans hrun))
        exact congrArg (·.queue.line) he ▸ hc
    | error halt c =>
        refine (hsame.error hr).imp_right ?_
        rintro ⟨rest, hrun, hc⟩
        obtain ⟨-, he⟩ := EStateM.Result.error.inj (hr.symm.trans (hown.symm.trans hrun))
        exact congrArg (·.queue.line) he ▸ hc

theorem Mirrors.change {f : Branch → Branch}
    (hle : ∀ b, b.statistics.reactivations ≤ (f b).statistics.reactivations)
    (h : ∀ b line, S.fits b line → S.late (f b).statistics.reactivations ∨
      ∃ rest, f (b.lined line) = (f b).lined rest ∧ S.fits (f b) rest) :
    Mirrors S (modify f : BranchM PUnit) := by
  refine ⟨fun b hb => S.mono (hle b) hb, fun b line hb => (h b line hb).imp_right ?_⟩
  rintro ⟨rest, he, hfits⟩
  exact ⟨rest, congrArg (EStateM.Result.ok PUnit.unit) he, hfits⟩

-- A change that the queue and the constraints in service have no part in.
theorem Mirrors.aside {f : Branch → Branch} (hlined : ∀ b line, f (b.lined line) = (f b).lined line)
    (h : ∀ b, ∃ tree classes statistics log,
      f b = { b with tree, classes, statistics, log } ∧
        statistics.reactivations = b.statistics.reactivations) : Mirrors S (modify f : BranchM PUnit) := by
  refine .change (fun b => ?_) fun b line hb => Or.inr ⟨line, hlined b line, ?_⟩
  · obtain ⟨tree, classes, statistics, log, he, hsame⟩ := h b
    rw [he]
    exact Nat.le_of_eq hsame.symm
  · obtain ⟨tree, classes, statistics, log, he, hsame⟩ := h b
    rw [he]
    exact S.aside tree classes statistics log hsame hb

section Narrowing

variable (S) (p)

theorem mirrors_edit (unifying : Bool) (path : Path) (part : Tree) {count : Statistics → Statistics}
    (hcount : ∀ s, (count s).reactivations = s.reactivations) : Mirrors S (edit unifying path part count) := by
  have h := inherited_mirrors S
  refine h.look (fun _ _ => rfl) fun b => h.bind (h.attempt _) fun tree => .change (fun b => ?_) fun b line hb => ?_
  · refine Nat.le_trans (Nat.le_of_eq (hcount b.statistics).symm) ?_
    exact Branch.reactivations_notify { b with tree, statistics := count b.statistics } unifying path
  · let changed : Branch := { b with tree, statistics := count b.statistics }
    have hchanged : S.fits changed line :=
      S.aside tree b.classes (count b.statistics) b.log (hcount b.statistics) hb
    refine (S.notify unifying path hchanged).imp_right fun hfits => ⟨_, ?_, hfits⟩
    exact Branch.notify_lined changed line unifying path

theorem mirrors_narrowOne (unifying : Bool) (mask : Mask) (path : Path) :
    Mirrors S (narrowOne unifying mask path) :=
  (inherited_mirrors S).narrowOne
    (.change (fun _ => Nat.le_refl _) fun _ _ hb => Or.inr ⟨[], rfl, S.fail hb⟩)
    (fun part _ => mirrors_edit S unifying path part) mask

theorem steady_mirrors : Steady p fun work => Mirrors S work := by
  refine (inherited_mirrors S).steady (fun _ => .reckon _) ?_ (fun w => ?_) (fun w => ?_) (mirrors_narrowOne S)
  · exact .change (fun _ => Nat.le_refl _) fun _ _ hb => Or.inr ⟨[], rfl, S.fail hb⟩
  · exact .change (fun _ => Nat.le_refl _) fun _ line hb => Or.inr ⟨line, rfl, S.retire w hb⟩
  · refine .change (fun b => ?_) fun b line hb => Or.inr ⟨line, b.enlist_lined line w, S.enlist w hb⟩
    unfold Branch.enlist
    split <;> exact Nat.le_refl _

theorem mirrors_unite (f : PathClasses → PathClasses) :
    Mirrors S (modify fun b : Branch => { b with classes := f b.classes } : BranchM PUnit) :=
  .aside (fun _ _ => rfl) fun b => ⟨b.tree, _, b.statistics, b.log, rfl, rfl⟩

end Narrowing

section Filling

variable (S) (p) {fill : Filler} (hfill : ∀ unifying path rule, Mirrors S (fill unifying path rule))

include hfill

theorem mirrors_propagate (unifying : Bool) (w : Watch) : Mirrors S (propagate p fill unifying w) :=
  (steady_mirrors p S).propagate (fun _ => .reckon _) fun _ _ first second _ _ =>
    (steady_mirrors p S).equate hfill (mirrors_unite S) first second

theorem mirrors_post (unifying : Bool) (w : Watch) : Mirrors S (post p fill unifying w) :=
  (steady_mirrors p S).post (fun _ => .reckon _) fun _ _ first second _ _ =>
    (steady_mirrors p S).equate hfill (mirrors_unite S) first second

theorem mirrors_announceTo (unifying : Bool) (path : Path) (k : Constraint) :
    Mirrors S (announceTo p fill unifying path k) := by
  have h := inherited_mirrors S
  refine h.look (fun _ _ => rfl) fun b => h.bind (h.attempt _) fun asked => ?_
  refine h.bind (.aside (fun _ _ => rfl) fun b => ⟨b.tree, b.classes, b.statistics, _, rfl, rfl⟩) fun _ => ?_
  cases asked with
  | some w => exact mirrors_post p S hfill unifying w
  | none => exact h.pure _

theorem mirrors_announce (unifying : Bool) (path : Path) : Mirrors S (announce p fill unifying path) := by
  have h := inherited_mirrors S
  exact h.forM fun k _ => h.whenFeasible (mirrors_announceTo p S hfill unifying path k)

omit hfill

theorem mirrors_fillClass (steps : Nat) (unifying : Bool) (path : Path) (rule : Nat) :
    Mirrors S (fillClass p steps unifying path rule) :=
  (steady_mirrors p S).fillClass (fun _ _ part _ => mirrors_edit S _ _ part) (fun _ _ _ => .throw _)
    (mirrors_unite S) (fun _ unifying path hfill => mirrors_announce p S hfill unifying path)
    steps unifying path rule

theorem mirrors_materialize (steps : Nat) : Mirrors S (materialize p steps) :=
  (steady_mirrors p S).materialize (.throw _) (fun steps => mirrors_fillClass p S steps false) steps

-- Propagation takes from the queue.
theorem mirrors_fixPoint (hpop : Mirrors S pop) (steps : Nat) : Mirrors S (fixPoint p steps) :=
  (steady_mirrors p S).fixPoint ⟨.reckon _, fun _ => .reckon _, fun _ _ _ => .reckon _⟩ (.throw _) hpop
    (.aside (fun _ _ => rfl) fun b => ⟨b.tree, b.classes, _, b.log, rfl, rfl⟩)
    (fun steps w => mirrors_propagate p S (mirrors_fillClass p S steps) false w) steps

theorem mirrors_request (steps : Nat) (request : Request) (hpop : request = .fixPoint → Mirrors S pop) :
    Mirrors S (request.work p steps) := by
  have h := steady_mirrors p S
  have hfill := mirrors_fillClass p S steps
  exact h.request (h.fill (hfill false)) (h.equate hfill (mirrors_unite S)) (mirrors_post p S hfill false)
    (fun he => mirrors_fixPoint p S (hpop he) steps) (mirrors_materialize p S steps)

theorem mirrors_command (steps : Nat) (command : Command)
    (hpop : command = .request .fixPoint → Mirrors S pop) : Mirrors S (command.work p steps) := by
  have hfill := mirrors_fillClass p S steps
  refine (steady_mirrors p S).command (fun asked he => ?_) (fun w => ?_) (mirrors_propagate p S hfill false)
    fun path k _ => mirrors_announceTo p S hfill false path k
  · exact mirrors_request p S steps asked fun hfix => hpop (he.trans (congrArg Command.request hfix))
  · refine .change (fun b => ?_) fun b line hb => Or.inr ⟨_, b.schedule_lined line w, S.schedule w hb⟩
    unfold Branch.schedule
    split <;> exact Nat.le_refl _

end Filling

end BranchM

end TreeSearch
