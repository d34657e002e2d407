import TreeSearch.Proofs.Branch.Steps
import TreeSearch.Proofs.Branch.Tightness
import TreeSearch.Proofs.Search.Branching

namespace TreeSearch

variable {p : Problem} {T : Tree → Prop} {b c : Branch} {α β : Type}

-- What a result that depends on a number of steps comes to when there are enough of them.
def Eventually (result : Nat → Except Halt α) (outcome : Except Halt α) : Prop :=
  ∃ N, ∀ steps, N ≤ steps → result steps = outcome

-- A result that comes when there are enough steps, unless a table overflows.
def Problem.Finishes (p : Problem) (result : Nat → Except Halt α) : Prop :=
  (∃ a, Eventually result (.ok a)) ∨ Eventually result (.error .overflow) ∧ ¬ p.InRange

section Outcomes

variable {result : Nat → Except Halt β} {next : Nat → β → Except Halt α} {outcome : Except Halt α}

namespace Eventually

theorem of_forall {result : Nat → Except Halt α} (h : ∀ steps, result steps = outcome) :
    Eventually result outcome :=
  ⟨0, fun steps _ => h steps⟩

theorem unique {result : Nat → Except Halt α} {outcome' : Except Halt α} (h : Eventually result outcome)
    (h' : Eventually result outcome') : outcome = outcome' := by
  obtain ⟨N, hN⟩ := h
  obtain ⟨M, hM⟩ := h'
  exact (hN _ (Nat.le_max_left N M)).symm.trans (hM _ (Nat.le_max_right N M))

theorem bind {x : β} (h : Eventually result (.ok x))
    (hn : Eventually (fun steps => next steps x) outcome) :
    Eventually (fun steps => result steps >>= next steps) outcome := by
  obtain ⟨N, hN⟩ := h
  obtain ⟨M, hM⟩ := hn
  refine ⟨max N M, fun steps hs => ?_⟩
  have hx := hN steps (Nat.le_trans (Nat.le_max_left N M) hs)
  have hout := hM steps (Nat.le_trans (Nat.le_max_right N M) hs)
  simp only [hx, Except.ok_bind, hout]

theorem bind_error {halt : Halt} (h : Eventually result (.error halt)) :
    Eventually (fun steps => result steps >>= next steps) (.error halt) := by
  obtain ⟨N, hN⟩ := h
  refine ⟨N, fun steps hs => ?_⟩
  simp only [hN steps hs, Except.error_bind]

-- A result that takes one step itself.
theorem succ {result next : Nat → Except Halt α} (h : ∀ steps, result (steps + 1) = next steps)
    (hn : Eventually next outcome) : Eventually result outcome := by
  obtain ⟨N, hN⟩ := hn
  refine ⟨N + 1, fun steps hs => ?_⟩
  obtain ⟨steps, rfl⟩ : ∃ k, steps = k + 1 := ⟨steps - 1, by omega⟩
  rw [h]
  exact hN steps (Nat.le_of_succ_le_succ hs)

end Eventually

namespace Problem.Finishes

theorem of_ok {result : Nat → Except Halt α} {a : α} (h : Eventually result (.ok a)) :
    p.Finishes result :=
  Or.inl ⟨a, h⟩

theorem of_reckons {result : Except Halt α} {a : α} (h : ReckonsUnless (¬ p.InRange) result a) :
    p.Finishes fun _ => result :=
  h.imp (fun he => ⟨a, .of_forall fun _ => he⟩) (And.imp_left fun he => .of_forall fun _ => he)

theorem eventually_ok {result : Nat → Except Halt α} (h : p.Finishes result) (hrange : p.InRange) :
    ∃ a, Eventually result (.ok a) :=
  h.resolve_right fun ho => ho.2 hrange

theorem bind (h : p.Finishes result)
    (hn : ∀ x, Eventually result (.ok x) → p.Finishes fun steps => next steps x) :
    p.Finishes fun steps => result steps >>= next steps := by
  rcases h with ⟨x, hx⟩ | ⟨ho, hrange⟩
  · exact (hn x hx).imp (fun ⟨a, ha⟩ => ⟨a, hx.bind ha⟩) (And.imp_left hx.bind)
  · exact Or.inr ⟨ho.bind_error, hrange⟩

theorem mapM {l : List β} {f : Nat → β → Except Halt α}
    (h : ∀ x ∈ l, p.Finishes fun steps => f steps x) : p.Finishes fun steps => l.mapM (f steps) := by
  induction l with
  | nil => exact .of_ok (.of_forall fun _ => rfl)
  | cons x l ih =>
      simp only [List.mapM_cons]
      refine .bind (h x List.mem_cons_self) fun a _ => ?_
      refine .bind (ih fun y hy => h y (List.mem_cons_of_mem x hy)) fun r _ => ?_
      exact .of_ok (.of_forall fun _ => rfl)

theorem succ {result next : Nat → Except Halt α} (h : ∀ steps, result (steps + 1) = next steps)
    (hn : p.Finishes next) : p.Finishes result :=
  hn.imp (fun ⟨a, ha⟩ => ⟨a, ha.succ h⟩) (And.imp_left (.succ h))

end Problem.Finishes

end Outcomes

-- Whatever is open has rules left, each of them with a tree within the depth limit.
structure Branch.Promising (p : Problem) (b : Branch) : Prop where
  sound : b.Sound p
  hopeful : b.Hopeful p
  roomy : p.Roomy b.tree

theorem Branch.Promising.of_proceeds (hb : b.Promising p) (h : Proceeds p T b c) : c.Promising p :=
  ⟨h.sound hb.sound, h.hopeful hb.hopeful, h.roomy hb.roomy⟩

-- Its smallest completion has a size, so that only the tables can overflow.
theorem Branch.Promising.not_inRange (hg : p.grammar.Regular) (hb : b.Promising p)
    (hs : p.Strained b.tree) : ¬ p.InRange := by
  obtain ⟨n, hn⟩ := hb.roomy.exists_leastSize hg hb.sound.wellFormed hb.hopeful.shallow hb.hopeful.rules
  exact hs.resolve_right (by simp [hn])

namespace BranchM

theorem Extends.runOn {work work' : BranchM α} (h : Extends work work')
    (hne : work.runOn b ≠ .error .outOfFuel) : work'.runOn b = work.runOn b := by
  rcases h b with hout | he
  · exact absurd (runOn_eq_error.mpr hout) hne
  · unfold BranchM.runOn
    rw [he]

-- Work whose trees keep within some depth, however many steps it is given.
def Contained (work : Nat → BranchM α) (b : Branch) : Prop :=
  ∃ D, ∀ steps c, (work steps).run b = .error .outOfFuel c → c.tree.depth ≤ D

-- Work that more steps only complete, and that halts only for want of steps or of range.
structure Gradual (p : Problem) (work : Nat → BranchM α) (b : Branch) : Prop where
  mono : ∀ steps steps', steps ≤ steps' → Extends (work steps) (work steps')
  stops : ∀ steps, (work steps).Meets b (fun _ _ => True)
    (Stops p (fun _ => False) (fun D => steps ≤ b.toil p D + 2) b)
  promising : b.Promising p

namespace Gradual

variable {work : Nat → BranchM α} {a : α} {steps : Nat}

theorem eventually (h : Gradual p work b) (hne : (work steps).runOn b ≠ .error .outOfFuel) :
    Eventually (fun steps => (work steps).runOn b) ((work steps).runOn b) :=
  ⟨steps, fun _ hs => (h.mono _ _ hs).runOn hne⟩

theorem eventually_of_ok (h : Gradual p work b) (hr : (work steps).run b = .ok a c) :
    Eventually (fun steps => (work steps).runOn b) (.ok (a, c)) := by
  have hrun := runOn_eq_ok.mpr hr
  exact hrun ▸ h.eventually (by simp [hrun])

-- The result does not depend on the number of steps.
theorem ok_unique (h : Gradual p work b) {steps' : Nat} {a' : α} {c' : Branch}
    (hr : (work steps).run b = .ok a c) (hr' : (work steps').run b = .ok a' c') : a = a' ∧ c = c' := by
  have he := (h.eventually_of_ok hr).unique (h.eventually_of_ok hr')
  exact Prod.mk.inj (Except.ok.inj he)

theorem error_spec (hg : p.grammar.Regular) (h : Gradual p work b) {halt : Halt}
    (hr : (work steps).run b = .error halt c) : c.Promising p ∧
      (halt = .outOfFuel ∧ (∀ D, c.tree.depth ≤ D → steps ≤ b.toil p D + 2) ∨
        halt = .overflow ∧ ¬ p.InRange) := by
  obtain ⟨hproceeds, hhalt⟩ := (h.stops steps).error hr
  have hpromising := h.promising.of_proceeds hproceeds
  refine ⟨hpromising, ?_⟩
  cases halt with
  | outOfFuel => exact Or.inl ⟨rfl, hhalt⟩
  | overflow => exact Or.inr ⟨rfl, hpromising.not_inRange hg hhalt⟩
  | fault fault =>
      obtain ⟨-, path, category, d, hs, hd⟩ := hhalt
      rw [hpromising.hopeful.rules path category d hs] at hd
      cases hd

-- What does not run out of its steps has come to its end.
theorem finishes (hg : p.grammar.Regular) (h : Gradual p work b) (steps : Nat)
    (hne : (work steps).runOn b ≠ .error .outOfFuel) : p.Finishes fun steps => (work steps).runOn b := by
  cases hr : (work steps).run b with
  | ok a c => exact .of_ok (h.eventually_of_ok hr)
  | error halt c =>
      have hrun := runOn_eq_error.mpr ⟨c, hr⟩
      rcases (h.error_spec hg hr).2 with ⟨rfl, -⟩ | ⟨rfl, hrange⟩
      · exact absurd hrun hne
      · exact Or.inr ⟨hrun ▸ h.eventually hne, hrange⟩

-- Within a depth there is no way to go on without end.
theorem finishes_of_contained (hg : p.grammar.Regular) (h : Gradual p work b) (hc : Contained work b) :
    p.Finishes fun steps => (work steps).runOn b := by
  obtain ⟨D, hD⟩ := hc
  refine h.finishes hg (b.toil p D + 3) fun hout => ?_
  obtain ⟨c, hr⟩ := runOn_eq_error.mp hout
  rcases (h.error_spec hg hr).2 with ⟨-, hsteps⟩ | ⟨he, -⟩
  · have := hsteps D (hD _ c hr)
    omega
  · cases he

-- Work that ends has built finitely many trees on the way.
theorem contained_of_ok (h : Gradual p work b) (hr : (work steps).run b = .ok a c) : Contained work b := by
  obtain ⟨N, hN⟩ := h.eventually_of_ok hr
  have hbefore (n : Nat) : ∃ D, ∀ steps < n, ∀ c, (work steps).run b = .error .outOfFuel c →
      c.tree.depth ≤ D := by
    induction n with
    | zero => exact ⟨0, nofun⟩
    | succ n ih =>
        obtain ⟨D, hD⟩ := ih
        have hlast : ∃ E, ∀ c, (work n).run b = .error .outOfFuel c → c.tree.depth ≤ E := by
          cases (work n).run b with
          | ok a c => exact ⟨0, nofun⟩
          | error halt c => exact ⟨c.tree.depth, fun d hd => by cases hd; exact Nat.le_refl _⟩
        obtain ⟨E, hE⟩ := hlast
        refine ⟨max D E, fun steps hs c hc => ?_⟩
        rcases Nat.lt_succ_iff_lt_or_eq.mp hs with hs | rfl
        · exact Nat.le_trans (hD steps hs c hc) (Nat.le_max_left D E)
        · exact Nat.le_trans (hE c hc) (Nat.le_max_right D E)
  obtain ⟨D, hD⟩ := hbefore N
  refine ⟨D, fun steps d hd => ?_⟩
  rcases Nat.lt_or_ge steps N with hs | hs
  · exact hD steps hs d hd
  · cases (runOn_eq_error.mpr ⟨d, hd⟩).symm.trans (hN steps hs)

-- A depth limit contains all work.
theorem contained_of_maxDepth (hg : p.grammar.Regular) (h : Gradual p work b) {limit : Nat}
    (hl : limit ∈ p.bounds.maxDepth) : Contained work b :=
  ⟨limit, fun _ _ hr => (h.error_spec hg hr).1.hopeful.shallow limit hl⟩

end Gradual

end BranchM

namespace Enumerator

variable (e : Enumerator)

-- The pieces of work of a pass, each with the branch that it begins with.
inductive Attempts : (Nat → BranchM Bool) → Branch → Prop
  | opening {rules : Domain} (opens : e.Opens rules) :
      Attempts (e.opening rules) (.of (.hole e.start rules))
  | rule {work : Nat → BranchM Bool} {b c : Branch} {steps : Nat} {path : Path} {category : String}
      {rules : Domain} {rule : Nat} (before : Attempts work b)
      (done : (work steps).run b = .ok true c) (chosen : e.strategy.hole? c.tree = some path)
      (found : c.tree.get? path = some (.hole category rules)) (mem : rule ∈ rules) :
      Attempts (e.attempt path rule) c.fork

-- The branches that come of them.
def Visits (c : Branch) : Prop :=
  ∃ work b steps, e.Attempts work b ∧ (work steps).run b = .ok true c

variable {e} {work : Nat → BranchM Bool}

theorem Attempts.settled (hg : e.problem.grammar.Regular) (h : e.Attempts work b) {steps : Nat}
    (hr : (work steps).run b = .ok true c) : c.Settled e.problem := by
  induction h generalizing steps c with
  | opening opens =>
      obtain ⟨hf, -, hdone⟩ := opening_spec hg opens hr
      exact hdone hf.symm
  | rule _ done _ found _ ih =>
      obtain ⟨hf, -, hdone⟩ := attempt_spec hg (ih done) found hr
      exact (hdone hf.symm).1

theorem Visits.settled (hg : e.problem.grammar.Regular) (h : e.Visits b) : b.Settled e.problem := by
  obtain ⟨work, first, steps, hwork, hr⟩ := h
  exact hwork.settled hg hr

section Gradual

variable (e)

theorem extends_opening (rules : Domain) {steps steps' : Nat} (hle : steps ≤ steps') :
    BranchM.Extends (e.opening rules steps) (e.opening rules steps') := by
  refine .bind (.forM (fun x => .whenFeasible ?_) _) fun _ => BranchM.extends_settle _ hle
  exact BranchM.extends_announce _ (BranchM.extends_fillClass _ hle) false x.1

theorem extends_attempt (path : Path) (rule : Nat) {steps steps' : Nat} (hle : steps ≤ steps') :
    BranchM.Extends (e.attempt path rule steps) (e.attempt path rule steps') :=
  .bind (BranchM.extends_fill _ hle path rule) fun _ => BranchM.extends_settle _ hle

variable {e}

-- Settling after work on a branch.
theorem operates_then_settle (hg : p.grammar.Regular) {T : Tree → Prop} (hT : ∀ t, T t → p.Solves t)
    {first : BranchM Unit} {steps : Nat} {Q : Unit → Branch → Prop} (hb : b.Ready p T)
    (h : BranchM.Settles p T (fun D => steps ≤ b.ceiling p D) first b Q) :
    (first >>= fun _ => BranchM.settle p steps).Meets b (fun _ c => Proceeds p T b c)
      (Stops p T (fun D => steps ≤ b.toil p D + 2) b) := by
  rw [BranchM.meets_bind]
  refine BranchM.Meets.mono h (fun _ c hc => ?_) fun _ _ hs => hs.of_proceeds .refl fun D _ hl => ?_
  · have hproceeds := hc.1.moves.proceeds
    refine BranchM.Meets.mono (BranchM.operates_settle hg hT steps (hc.1.ready hb))
      (fun _ d hd => hproceeds.trans hd.1.proceeds) fun _ _ hs => hs.of_proceeds hproceeds fun D hD hl => ?_
    exact Nat.le_trans hl (Nat.add_le_add_right (hproceeds.toil_le hb.sound hD) 2)
  · unfold Branch.toil
    omega

-- The first branch loses no tree in question.
theorem opening_proceeds (hg : e.problem.grammar.Regular) {rules : Domain} (ho : e.Opens rules)
    {T : Tree → Prop} (hT : ∀ t, T t → e.problem.Solves t) (steps : Nat) :
    (e.opening rules steps).Meets (.of (.hole e.start rules))
      (fun _ c => Proceeds e.problem T (.of (.hole e.start rules)) c)
      (Stops e.problem T (fun D => steps ≤ (Branch.of (.hole e.start rules)).toil e.problem D + 2)
        (.of (.hole e.start rules))) :=
  operates_then_settle hg hT (Branch.ready_of (ho.wellFormed hg)) (does_start hg hT steps (ho.wellFormed hg))

-- An attempt loses no tree in question, if all of them have the rule.
theorem attempt_proceeds (hg : e.problem.grammar.Regular) (hb : b.Settled e.problem) {path : Path}
    {category : String} {rules : Domain} (hs : b.tree.get? path = some (.hole category rules))
    {rule : Nat} {T : Tree → Prop} (hT : ∀ t, T t → e.problem.SolvesWith path rule t) (steps : Nat) :
    (e.attempt path rule steps).Meets b.fork (fun _ c => Proceeds e.problem T b.fork c)
      (Stops e.problem T (fun D => steps ≤ b.fork.toil e.problem D + 2) b.fork) := by
  have hsolves (t : Tree) (ht : T t) : e.problem.Solves t := (hT t ht).1
  have hready : b.fork.Ready e.problem T :=
    ⟨hb.fork.ready.sound, fun t ht => hb.fork.ready.loyal t (hsolves t ht)⟩
  refine operates_then_settle hg hsolves hready (BranchM.does_fill hg hsolves steps hready hs fun t ht _ => ?_)
  obtain ⟨-, cs, hcs⟩ := hT t ht
  exact ⟨rule, cs, hcs, (Domain.mem_singleton rule rule).mpr rfl⟩

theorem Opens.promising (hg : e.problem.grammar.Regular) {rules : Domain} (h : e.Opens rules) :
    (Branch.of (.hole e.start rules)).Promising e.problem := by
  refine ⟨(Branch.ready_of (T := fun _ => False) (h.wellFormed hg)).sound, h.hopeful, ?_⟩
  intro path category d hs r hr
  obtain ⟨-, _, -, rfl⟩ := h
  obtain ⟨rfl, he⟩ := Tree.get?_hole_eq_some hs
  cases he
  exact ((Domain.mem_inter _ _ _).mp hr).2

theorem gradual_opening (hg : e.problem.grammar.Regular) {rules : Domain} (ho : e.Opens rules) :
    BranchM.Gradual e.problem (e.opening rules) (.of (.hole e.start rules)) :=
  ⟨fun _ _ hle => extends_opening e rules hle,
    fun steps => (opening_proceeds hg ho nofun steps).mono (fun _ _ _ => trivial) fun _ _ hs => hs,
    ho.promising hg⟩

theorem gradual_attempt (hg : e.problem.grammar.Regular) (hb : b.Settled e.problem)
    (hroomy : e.problem.Roomy b.tree) {path : Path} {category : String} {rules : Domain}
    (hs : b.tree.get? path = some (.hole category rules)) (rule : Nat) :
    BranchM.Gradual e.problem (e.attempt path rule) b.fork :=
  ⟨fun _ _ hle => extends_attempt e path rule hle,
    fun steps => (attempt_proceeds hg hb hs nofun steps).mono (fun _ _ _ => trivial) fun _ _ h => h,
    hb.fork.ready.sound, hb.fork.hopeful, hroomy⟩

theorem Attempts.roomy (hg : e.problem.grammar.Regular) (h : e.Attempts work b) {steps : Nat}
    {feasible : Bool} (hr : (work steps).run b = .ok feasible c) : e.problem.Roomy c.tree := by
  induction h generalizing steps feasible c with
  | opening opens =>
      have hproceeds := (opening_proceeds hg opens (T := fun _ => False) nofun steps).ok hr
      exact hproceeds.roomy (opens.promising hg).roomy
  | rule before done _ found _ ih =>
      have hparent := ih done
      have hsettled := before.settled hg done
      exact ((attempt_proceeds hg hsettled found (T := fun _ => False) nofun steps).ok hr).roomy hparent

theorem Visits.roomy (hg : e.problem.grammar.Regular) (h : e.Visits b) : e.problem.Roomy b.tree := by
  obtain ⟨work, first, steps, hwork, hr⟩ := h
  exact hwork.roomy hg hr

theorem Visits.promising (hg : e.problem.grammar.Regular) (h : e.Visits b) : b.Promising e.problem :=
  ⟨(h.settled hg).ready.sound, (h.settled hg).hopeful, h.roomy hg⟩

theorem Attempts.gradual (hg : e.problem.grammar.Regular) (h : e.Attempts work b) :
    BranchM.Gradual e.problem work b := by
  cases h with
  | opening opens => exact gradual_opening hg opens
  | rule before done chosen found mem =>
      exact gradual_attempt hg (before.settled hg done) (before.roomy hg done) found _

end Gradual

end Enumerator

end TreeSearch
