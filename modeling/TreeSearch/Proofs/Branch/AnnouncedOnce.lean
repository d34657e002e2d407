import TreeSearch.Proofs.Branch.Announcing
import TreeSearch.Proofs.Branch.Fixpoint

namespace TreeSearch

variable {p : Problem} {b c : Branch} {root : Tree} {α β : Type}

-- A branch in which equal positions are alike and every position has been announced.
structure Branch.Informed (p : Problem) (b : Branch) : Prop where
  balanced : b.Balanced p ∅
  told : b.Told p []

namespace BranchM

-- Work that leaves every position announced, also where it is interrupted.
abbrev Informs (p : Problem) (work : BranchM α) : Prop := Outlasts (Branch.Informed p) p.Interrupts work

-- What is queued has no say in it, and neither has what is watched, as long as nothing is forgotten.
theorem informs_watched {f : Branch → α × Branch}
    (hf : ∀ b, ∃ active retired queue statistics, (f b).2 = { b with active, retired, queue, statistics } ∧
      ∀ w, w ∈ b.active ∨ w ∈ b.retired → w ∈ active ∨ w ∈ retired) :
    Informs p (modifyGet f : BranchM α) := by
  intro b hb
  obtain ⟨active, retired, queue, statistics, he, hknown⟩ := hf b
  rw [meets_modifyGet, he]
  exact ⟨hb.balanced.congr rfl rfl fun hf => hf, hb.told.remain rfl rfl (fun hf => hf) hknown⟩

-- Work that is interrupted only before it has changed anything.
theorem informs_of_prompt {work : BranchM α} {Q : Branch → α → Branch → Prop}
    (hprompt : ∀ b, b.Balanced p ∅ → work.Prompt p.Interrupts b)
    (hkeeps : ∀ b, b.Balanced p ∅ → Keeps p (fun _ => True) ∅ work b (Q b))
    (htold : Preserves (Branch.Told p []) (fun _ => True) work) : Informs p work := by
  intro b hb
  refine ((hprompt b hb.balanced).and ((hkeeps b hb.balanced).and (htold b hb.told))).mono
    (fun _ c ⟨_, hc, htold⟩ => ⟨hc.2.1, htold⟩) fun _ c ⟨hsame, _⟩ hbetween => ?_
  rw [hsame hbetween]
  exact hb

section Requests

variable {unifying : Bool}

theorem steady_informs (p : Problem) : Steady p fun work => Informs p work where
  toInherited := inherited_outlasts _ _
  shallow _ := .reckon _
  fail := fun _ hb => ⟨⟨hb.balanced.intact.congr rfl rfl, nofun⟩, hb.told.fail⟩
  retire w := informs_watched fun b => ⟨_, _, _, b.statistics, rfl, fun _ hv => Branch.known_retire w hv⟩
  enlist w := by
    intro b hb
    rw [meets_modify]
    refine ⟨?_, hb.told.enlist w⟩
    unfold Branch.enlist
    split
    · exact hb.balanced
    · exact hb.balanced.congr rfl rfl fun hf => hf
  narrow _ path mask := informs_of_prompt (fun _ hb => prompt_narrow hb)
    (fun _ hb => keeps_narrow hb (Or.inl lenient)) ((steady_told p []).narrow _ path mask)
  order _ first second := informs_of_prompt (fun _ hb => prompt_order hb)
    (fun _ hb => keeps_order hb (Or.inl lenient) (Or.inl lenient)) ((steady_told p []).order _ first second)

variable (hg : p.grammar.Regular) (steps : Nat)

include hg

theorem informs_fill (path : Path) (rule : Int) : Informs p (fill p steps path rule) :=
  informs_of_prompt (fun _ hb => prompt_fill hg hb) (fun _ hb => keeps_fill hg steps hb)
    ((steady_told p []).fill (tellsFills_fillClass hg steps [] false) path rule)

theorem informs_equate (first second : Path) : Informs p (equate (fillClass p steps) first second) :=
  informs_of_prompt (fun _ hb => prompt_equate hg hb)
    (fun _ hb => keeps_equate (levels_fillClass hg steps) hb (Or.inl lenient) (Or.inl lenient))
    (told_equate (tellsFills_fillClass hg steps) first second)

-- A constraint that is not one of the grammar's may fault between two of its actions.
theorem informs_propagate (w : Watch) : Informs p (propagate p (fillClass p steps) unifying w) :=
  (steady_informs p).propagate (fun _ => .reckon _) fun _ _ first second _ _ => informs_equate hg steps first second

theorem informs_post (w : Watch) : Informs p (post p (fillClass p steps) unifying w) :=
  (steady_informs p).post (fun _ => .reckon _) fun _ _ first second _ _ => informs_equate hg steps first second

theorem informs_materialize : Informs p (materialize p steps) := by
  induction steps with
  | zero => exact .throw _
  | succ steps ih =>
      intro b hb
      unfold materialize
      rw [meets_bind, meets_get]
      split
      · exact hb
      · split
        · exact hb
        · rename_i path rule hforced
          obtain ⟨category, hs⟩ := get?_of_firstForced hforced
          have hfill := levels_fillClass hg steps b false path rule ∅ (hb.balanced.excuse _) ⟨_, hs⟩
          have htold := tellsFills_fillClass hg steps [] false path rule b hb.told
          have hrest : Informs p (materialize p steps >>= fun _ => pure true) :=
            (steady_informs p).bind ih fun _ => (steady_informs p).pure _
          rw [meets_bind]
          refine (hfill.and htold).mono (fun _ c ⟨hc, hct⟩ => hrest c ⟨hc.2.1, hct⟩) ?_
          exact fun _ _ ⟨hh, _⟩ hbetween => (hh hbetween).1.elim

theorem informs_fixPoint : Informs p (fixPoint p steps) :=
  (steady_informs p).fixPoint ⟨.reckon _, fun _ => .reckon _, fun _ _ _ => .reckon _⟩ (.throw _)
    (informs_watched fun b => ⟨b.active, b.retired, _, b.statistics, rfl, fun _ hw => hw⟩)
    (informs_watched fun b => ⟨b.active, b.retired, b.queue, _, rfl, fun _ hw => hw⟩)
    (fun steps w => informs_propagate hg steps w) steps

-- All commands but the announcement of a position by somebody else.
theorem informs_command {command : Command} (hown : ∀ path k, command ≠ .announce path k) :
    Informs p (command.work p steps) := by
  refine (steady_informs p).command (fun asked _ => ?_) (fun w => .modify fun b hb => ?_)
    (informs_propagate hg steps) fun path k he => absurd he (hown path k)
  · exact (steady_informs p).request (informs_fill hg steps) (informs_equate hg steps) (informs_post hg steps)
      (fun _ => informs_fixPoint hg steps) (informs_materialize hg steps)
  · unfold Branch.schedule
    split
    · exact ⟨hb.balanced.congr rfl rfl fun hf => hf, hb.told.remain rfl rfl (fun hf => hf) fun _ hv => hv⟩
    · exact hb

end Requests

-- Where the tables of the grammar could not be made, no hole is ever filled, so that nothing is owed.
section Untabled

variable {halt : Halt} {unifying : Bool} {rule : Nat}

abbrev StaysTold (p : Problem) (work : BranchM α) : Prop := Outlasts (Branch.Told p []) (fun _ => True) work

theorem steady_staysTold (p : Problem) : Steady p fun work => StaysTold p work :=
  (inherited_outlasts _ _).steady (fun _ => .reckon _) (.modify fun _ hb => hb.fail)
    (fun w => .modify fun _ hb => hb.retire w) (fun w => .modify fun _ hb => hb.enlist w) (told_narrowOne p [])

theorem staysTold_unite (f : PathClasses → PathClasses) :
    StaysTold p (modify fun b : Branch => { b with classes := f b.classes } : BranchM PUnit) :=
  .modify fun _ hb => hb.remain rfl rfl (fun hf => hf) fun _ hw => hw

variable (hm : p.measured = .error halt)

include hm

theorem opensNothing_fillMember (hb : b.Told p []) (path : Path) :
    (fillMember p unifying rule path).Meets b (fun opened c => opened = [] ∧ c.Told p [])
      fun _ c => c.Told p [] := by
  cases hs : b.tree.get? path with
  | none => exact meets_nodeAt_none hs fun _ => hb
  | some s =>
      refine meets_fillMember hs (hb.wellFormed.get? hs) (fun _ _ => ⟨rfl, hb⟩) (fun _ => ⟨rfl, hb.fail⟩) ?_
      rintro category rules - -
      have hshallow : p.shallow (path ++ [0]) = .error halt := by
        rw [Problem.shallow, hm]
        rfl
      unfold fillOne
      rw [meets_bind, meets_reckon_error hshallow]
      exact hb

theorem opensNothing_fillMembers (members : List Path) (hb : b.Told p []) :
    (fillMembers p unifying rule members).Meets b (fun opened c => opened = [] ∧ c.Told p [])
      fun _ c => c.Told p [] := by
  induction members generalizing b with
  | nil => exact ⟨rfl, hb⟩
  | cons member rest ih =>
      unfold fillMembers
      rw [meets_bind]
      refine (opensNothing_fillMember hm hb member).mono ?_ fun _ _ hh => hh
      rintro _ c ⟨rfl, hc⟩
      rw [meets_bind, meets_isFeasible]
      split
      · rw [meets_bind]
        exact (ih hc).mono (fun _ _ hd => hd) fun _ _ hh => hh
      · exact ⟨rfl, hc⟩

theorem staysTold_fillClass (steps : Nat) (unifying : Bool) (path : Path) (rule : Nat) :
    StaysTold p (fillClass p steps unifying path rule) := by
  have h := steady_staysTold p
  induction steps generalizing unifying path rule with
  | zero => exact .throw _
  | succ steps ih =>
      intro b hb
      unfold fillClass
      rw [meets_bind, meets_get, meets_bind]
      refine (opensNothing_fillMembers hm _ hb).mono ?_ fun _ _ hh _ => hh
      rintro _ c ⟨rfl, hc⟩
      refine h.whenFeasible ?_ c hc
      split
      · exact h.bind (h.attempt _) fun arity => h.bind (h.joinChildren ih staysTold_unite unifying _ arity)
          fun _ => h.pure _
      · exact h.pure _

theorem staysTold_command (steps : Nat) {command : Command} (hown : ∀ path k, command ≠ .announce path k) :
    StaysTold p (command.work p steps) := by
  have h := steady_staysTold p
  have hequate (steps : Nat) (first second : Path) : StaysTold p (equate (fillClass p steps) first second) :=
    h.equate (staysTold_fillClass hm steps) staysTold_unite first second
  have hpropagate (steps : Nat) (w : Watch) : StaysTold p (propagate p (fillClass p steps) false w) :=
    h.propagate (fun _ => .reckon _) fun _ _ first second _ _ => hequate steps first second
  have hwatched {f : Branch → Branch}
      (hf : ∀ b, ∃ queue statistics, f b = { b with queue, statistics }) (b : Branch) (hb : b.Told p []) :
      (f b).Told p [] := by
    obtain ⟨queue, statistics, he⟩ := hf b
    rw [he]
    exact hb.remain rfl rfl (fun hf => hf) fun _ hw => hw
  refine h.command (fun asked _ => h.request (h.fill (staysTold_fillClass hm steps false)) (hequate steps) ?_
    (fun _ => ?_) ?_) (fun w => .modify (hwatched fun b => ?_)) (hpropagate steps)
      fun path k he => absurd he (hown path k)
  · exact fun w => h.post (fun _ => .reckon _) fun _ _ first second _ _ => hequate steps first second
  · exact h.fixPoint ⟨.reckon _, fun _ => .reckon _, fun _ _ _ => .reckon _⟩ (.throw _)
      (fun b hb => hwatched (fun b => ⟨b.queue.pop.2, b.statistics, rfl⟩) b hb)
      (.modify (hwatched fun b => ⟨b.queue, _, rfl⟩)) hpropagate steps
  · exact h.materialize (.throw _) (fun steps => staysTold_fillClass hm steps false) steps
  · unfold Branch.schedule
    split
    · exact ⟨_, b.statistics, rfl⟩
    · exact ⟨b.queue, b.statistics, rfl⟩

end Untabled

end BranchM

namespace Branch

-- At first every position is owed.
theorem told_of (hw : p.grammar.WellFormed none root) :
    (Branch.of root).Told p (p.owes ((root.positions []).map Prod.fst)) := by
  refine ⟨hw, nofun, fun _ k q => ?_⟩
  have hnodup : ((root.positions []).map Prod.fst).Nodup := by
    refine (Tree.nodup_positions root []).map_on ?_
    rintro ⟨path, s⟩ hs ⟨_, v⟩ hv rfl
    obtain rfl := Option.some.inj (((Tree.mem_positions_nil root path s).mp hs).symm.trans
      ((Tree.mem_positions_nil root path v).mp hv))
    rfl
  show 0 + _ = if (root.get? q).isSome then _ else _
  rw [Problem.count_owes, Nat.zero_add]
  split
  · rename_i hs
    obtain ⟨s, hs⟩ := Option.isSome_iff_exists.mp hs
    have hmem := List.mem_map_of_mem (f := Prod.fst) ((Tree.mem_positions_nil root q s).mpr hs)
    rw [List.count_eq_one_of_mem hnodup hmem, Nat.one_mul]
  · rename_i hs
    rw [List.count_eq_zero_of_not_mem, Nat.zero_mul]
    intro hmem
    obtain ⟨⟨_, s⟩, hin, rfl⟩ := List.mem_map.mp hmem
    exact hs (Option.isSome_iff_exists.mpr ⟨s, (Tree.mem_positions_nil root _ s).mp hin⟩)

theorem informed_start (hg : p.grammar.Regular) {fuel : Nat} (rules : ∀ x ∈ root.holes, x.2.2.isEmpty = false)
    (done : Branch.start p fuel root = .ok b) : b.Informed p := by
  obtain ⟨hcheck, hrun⟩ := start_eq_ok.mp done
  have hw := (Grammar.check_ofTree hg _).mp hcheck
  obtain ⟨-, hb, -⟩ := (BranchM.keeps_start hg fuel (balanced_of hw rules)).ok hrun
  refine ⟨hb, ?_⟩
  have htold : ((root.positions []).forM fun x => BranchM.whenFeasible
      (BranchM.announce p (BranchM.fillClass p fuel) false x.1)).Meets (.of root)
        (fun _ c => c.Told p []) fun _ _ => True := by
    refine BranchM.meets_forM (fun left c => c.Told p (p.owes (left.map Prod.fst)))
      (fun x left c hc => ?_) (told_of hw)
    refine BranchM.meets_whenFeasible.mpr ⟨fun _ => ?_, fun hf => hc.of_infeasible hf⟩
    refine BranchM.told_announce (BranchM.tellsFills_fillClass hg fuel) (hc.congr fun y => ?_)
    simp [Problem.owes]
  exact htold.ok hrun

-- The branches that come of a tree whose open positions have rules, when nobody else announces
-- positions to the constraints. A command that ends early leaves behind what it has done.
inductive Unprompted (p : Problem) (root : Tree) : Branch → Prop
  | start {fuel : Nat} {b : Branch} (rules : ∀ x ∈ root.holes, x.2.2.isEmpty = false)
      (done : Branch.start p fuel root = .ok b) : Unprompted p root b
  | fork {b : Branch} (h : Unprompted p root b) : Unprompted p root b.fork
  | command {fuel : Nat} {b c : Branch} (command : Command) (own : ∀ path k, command ≠ .announce path k)
      (h : Unprompted p root b) (done : (command.work p fuel).run b = .ok () c) : Unprompted p root c
  | halt {fuel : Nat} {halt : Halt} {b c : Branch} (command : Command)
      (own : ∀ path k, command ≠ .announce path k) (h : Unprompted p root b)
      (halted : (command.work p fuel).run b = .error halt c) (ended : halt ≠ .outOfFuel) : Unprompted p root c

theorem Unprompted.told (hg : p.grammar.Regular) (h : b.Unprompted p root) : b.Told p [] := by
  cases hm : p.measured with
  | error halt =>
      induction h with
      | start rules done => exact (informed_start hg rules done).told
      | fork _ ih => exact ih.remain rfl rfl (fun hf => hf) fun _ hw => hw
      | command command own _ done ih => exact (BranchM.staysTold_command hm _ own _ ih).ok done
      | halt command own _ halted _ ih => exact (BranchM.staysTold_command hm _ own _ ih).error halted trivial
  | ok analysis =>
      suffices hb : b.Informed p from hb.told
      induction h with
      | start rules done => exact informed_start hg rules done
      | fork _ ih =>
          exact ⟨ih.balanced.congr rfl rfl fun hf => hf, ih.told.remain rfl rfl (fun hf => hf) fun _ hw => hw⟩
      | command command own _ done ih => exact (BranchM.informs_command hg _ own _ ih).ok done
      | halt command own _ halted ended ih =>
          exact (BranchM.informs_command hg _ own _ ih).error halted (p.interrupts_of_measured hm ended)

-- Between commands each position of the tree has been announced to each constraint of the grammar
-- as often as the constraint is attached, and no other announcement has been made. Every announcement
-- was answered: what the constraint asks for at the position, in the tree of that moment, is watched.
theorem Unprompted.announced_once (hg : p.grammar.Reachable) (h : b.Unprompted p root)
    (hf : b.feasible = true) :
    (∀ k path, b.announced.count (k, path) =
      if (b.tree.get? path).isSome then p.grammar.constraints.count k else 0) ∧
    ∀ entry ∈ b.log, (∃ t, b.tree.Refines t ∧ entry.constraint.watchAt p t entry.path = .ok entry.asked) ∧
      ∀ w ∈ entry.asked, w ∈ b.active ∨ w ∈ b.retired := by
  have htold := h.told hg.regular
  exact ⟨htold.counted hf, fun entry he => ⟨(htold.answered entry he).asked, (htold.answered entry he).watched⟩⟩

section Flat

-- No three forks below each other.
def noThreeForks : Constraint := .forbiddenSequence [1, 1, 1] []

def flat : Grammar := { Grammar.twins with constraints := [noThreeForks], version := 3 }

theorem reachable_flat : flat.Reachable := by
  have hattach : Grammar.twins.attach noThreeForks = .ok (flat, true) := rfl
  exact .attach Grammar.reachable_twins hattach

def flatProblem : Problem := .of flat .none

-- A sequence is watched at every position.
def everywhere (k : Constraint) (path : Path) : Announcement := ⟨k, path, some ⟨path, k⟩⟩

-- Two open positions, the same when they have been united, and when one of them has been filled.
def flatOpen : Branch :=
  { Branch.twinsOpen with
    retired := ⟨[⟨[], noThreeForks⟩, ⟨[0], noThreeForks⟩, ⟨[1], noThreeForks⟩]⟩
    statistics := ⟨0, 0, 3, 0, 0⟩
    log := [everywhere noThreeForks [1], everywhere noThreeForks [0], everywhere noThreeForks []] }

def flatUnited : Branch := { flatOpen with classes := ⟨[[[0], [1]]]⟩ }

def flatFilled : Branch :=
  { Branch.of (.twins (.twins (.hole "S" (.ofList [0])))) with
    retired := ⟨flatOpen.retired.toList ++ [⟨[0, 0], noThreeForks⟩, ⟨[0, 1], noThreeForks⟩,
      ⟨[1, 0], noThreeForks⟩, ⟨[1, 1], noThreeForks⟩]⟩
    classes := ⟨[[[0, 1], [1, 1]], [[0, 0], [1, 0]], [[0], [1]]]⟩
    statistics := ⟨2, 6, 7, 0, 0⟩
    log := [everywhere noThreeForks [1, 1], everywhere noThreeForks [1, 0],
      everywhere noThreeForks [0, 1], everywhere noThreeForks [0, 0]] ++ flatOpen.log }

-- The branch on the way there: one rule is left to both positions, both become forks, and their
-- children are united in pairs.
def flatForced : Branch :=
  { flatUnited with
    tree := .twins (.hole "S" (.ofList [1]))
    statistics := ⟨0, 2, 3, 0, 0⟩ }

def flatForked : Branch :=
  { flatUnited with
    tree := .twins (.twins (.hole "S" (.ofList [0, 1])))
    statistics := ⟨2, 2, 3, 0, 0⟩ }

def flatJoined : Branch :=
  { flatForked with classes := ⟨[[[0, 1], [1, 1]], [[0, 0], [1, 0]], [[0], [1]]]⟩ }

open BranchM in
theorem fill_flat : (fill flatProblem 2 [0] 1).run flatUnited = .ok () flatFilled := by
  have hnarrow : (narrow false [0] (.only {1})).run flatUnited = .ok () flatForced := rfl
  have hfork : (fillMembers flatProblem false 1 [[0], [1]]).run flatForced =
      .ok [[0, 0], [0, 1], [1, 0], [1, 1]] flatForked := by
    decide +kernel
  have hjoin : (joinChildren (fillClass flatProblem 1) false [[0], [1]] 2).run flatForked =
      .ok () flatJoined := by
    decide +kernel
  have htell : (([[0, 0], [0, 1], [1, 0], [1, 1]] : List Path).forM fun path => whenFeasible
      (announce flatProblem (fillClass flatProblem 1) false path)).run flatJoined = .ok () flatFilled := by
    decide +kernel
  have hclass : (fillClass flatProblem 2 false [0] 1).run flatForced = .ok () flatFilled := by
    refine run_bind_eq_ok.mpr ⟨flatForced, flatForced, rfl, ?_⟩
    refine run_bind_eq_ok.mpr ⟨_, _, hfork, ?_⟩
    refine run_bind_eq_ok.mpr ⟨true, flatForked, rfl, ?_⟩
    refine run_bind_eq_ok.mpr ⟨2, flatForked, rfl, ?_⟩
    exact run_bind_eq_ok.mpr ⟨(), flatJoined, hjoin, htell⟩
  refine run_bind_eq_ok.mpr ⟨_, flatUnited, rfl, ?_⟩
  refine run_bind_eq_ok.mpr ⟨true, flatUnited, rfl, ?_⟩
  refine run_bind_eq_ok.mpr ⟨1, flatUnited, rfl, ?_⟩
  refine run_bind_eq_ok.mpr ⟨(), flatForced, hnarrow, ?_⟩
  exact run_bind_eq_ok.mpr ⟨true, flatForced, rfl, hclass⟩

theorem announced_once_flat : flatFilled.Unprompted flatProblem (.twins (.hole "S" (.ofList [0, 1]))) ∧
    flatFilled.announced.count (noThreeForks, [1, 1]) = 1 ∧
      flatFilled.announced.count (noThreeForks, [1, 1, 0]) = 0 ∧
      (⟨[1, 1], noThreeForks⟩ ∈ flatFilled.active ∨ ⟨[1, 1], noThreeForks⟩ ∈ flatFilled.retired) := by
  have hstart : Branch.start flatProblem 3 (.twins (.hole "S" (.ofList [0, 1]))) = .ok flatOpen := rfl
  have hequate : ((Command.request (.equate [0] [1])).work flatProblem 1).run flatOpen = .ok () flatUnited := rfl
  have hfill : ((Command.request (.fill [0] 1)).work flatProblem 2).run flatUnited = .ok () flatFilled :=
    fill_flat
  have h : flatFilled.Unprompted flatProblem (.twins (.hole "S" (.ofList [0, 1]))) :=
    .command _ (fun _ _ => Command.noConfusion) (.command _ (fun _ _ => Command.noConfusion) (.start (by decide) hstart) hequate) hfill
  obtain ⟨hcount, hanswered⟩ := h.announced_once reachable_flat rfl
  exact ⟨h, hcount noThreeForks [1, 1], hcount noThreeForks [1, 1, 0],
    (hanswered (everywhere noThreeForks [1, 1]) List.mem_cons_self).2 _ rfl⟩

end Flat

end Branch

end TreeSearch
