import TreeSearch.Proofs.Branch.Conservation
import TreeSearch.Search.Enumerator

namespace TreeSearch

variable {α : Type}

theorem BranchM.runOn_eq_ok {work : BranchM α} {b c : Branch} {a : α} :
    work.runOn b = .ok (a, c) ↔ work.run b = .ok a c := by
  unfold runOn
  cases work.run b with
  | ok x next => simp
  | error halt next => simp

theorem BranchM.runOn_bind {β : Type} (work : BranchM β) (next : β → BranchM α) (b : Branch) :
    (work >>= next).runOn b = work.runOn b >>= fun r => (next r.1).runOn r.2 := by
  unfold runOn
  rw [run_bind]
  cases work.run b <;> rfl

theorem BranchM.runOn_eq_error {work : BranchM α} {b : Branch} {halt : Halt} :
    work.runOn b = .error halt ↔ ∃ c, work.run b = .error halt c := by
  unfold runOn
  cases work.run b with
  | ok a c => simp
  | error h c => simp

section Holes

variable {t : Tree}

-- A fold that keeps what it has or takes the next item instead ends with one of them.
theorem exists_foldl_eq_some {α : Type} {step : Option α → α → Option α} {l : List α} {found : α}
    {best : Option α} (he : l.foldl step (some found) = best)
    (hstep : ∀ a b, step (some a) b = some b ∨ step (some a) b = some a) :
    ∃ a ∈ found :: l, best = some a := by
  induction l generalizing found with
  | nil => exact ⟨found, List.mem_cons_self, he.symm⟩
  | cons b l ih =>
      rw [List.foldl_cons] at he
      rcases hstep found b with hb | hb
      · obtain ⟨a, ha, hbest⟩ := ih (hb ▸ he)
        exact ⟨a, List.mem_cons_of_mem found ha, hbest⟩
      · obtain ⟨a, ha, hbest⟩ := ih (hb ▸ he)
        rcases List.mem_cons.mp ha with rfl | ha
        · exact ⟨a, List.mem_cons_self, hbest⟩
        · exact ⟨a, List.mem_cons_of_mem found (List.mem_cons_of_mem b ha), hbest⟩

theorem Tree.nearestHole?_eq_some (hc : t.isComplete = false) :
    ∃ path category d, t.nearestHole? = some path ∧ t.get? path = some (.hole category d) := by
  unfold Tree.nearestHole?
  cases hh : t.holes with
  | nil => simp [Tree.isComplete, hh] at hc
  | cons hole rest =>
      rw [List.map_cons, List.foldl_cons]
      generalize he : (rest.map (·.1)).foldl _ _ = best
      obtain ⟨path, hp, rfl⟩ := exists_foldl_eq_some he fun found path => by
        simp only
        split <;> simp
      obtain ⟨⟨q, category, d⟩, hin, rfl⟩ := List.mem_map.mp (show path ∈ (hole :: rest).map (·.1) from hp)
      exact ⟨q, category, d, rfl, (Tree.mem_holes t q category d).mp (hh ▸ hin)⟩

theorem Tree.firstHole?_eq_some (hc : t.isComplete = false) :
    ∃ path category d, t.firstHole? = some path ∧ t.get? path = some (.hole category d) := by
  unfold Tree.firstHole?
  cases hh : t.holes with
  | nil => simp [Tree.isComplete, hh] at hc
  | cons hole rest =>
      obtain ⟨path, category, d⟩ := hole
      exact ⟨path, category, d, rfl, (Tree.mem_holes t path category d).mp (hh ▸ List.mem_cons_self)⟩

theorem Strategy.hole?_eq_some (strategy : Strategy) (hc : t.isComplete = false) :
    ∃ path category d, strategy.hole? t = some path ∧ t.get? path = some (.hole category d) := by
  cases strategy with
  | breadthFirst => exact t.nearestHole?_eq_some hc
  | depthFirst => exact t.firstHole?_eq_some hc

end Holes

-- What holds of the branches of a search when they have settled.
structure Branch.Settled (p : Problem) (b : Branch) : Prop where
  ready : b.Ready p p.Solves
  hopeful : b.Hopeful p
  tended : b.Tended p
  feasible : b.feasible = true
  idle : b.queue.pending = []
  sized : p.Sized b.tree

variable {p : Problem} {b c : Branch} {t : Tree}

-- A complete tree is all that is left in its branch.
theorem Branch.Settled.admissible_iff_eq (hb : b.Settled p) (hc : b.isComplete = true) :
    p.Admissible b t ↔ t = b.tree := by
  have hcomplete := (Grammar.WellFormed.isComplete_iff hb.ready.sound.wellFormed).mp hc
  rw [Problem.admissible_iff]
  constructor
  · rintro ⟨-, -, hr⟩
    exact hcomplete.eq_of_refines hr
  · rintro rfl
    exact ⟨hb.tended.solves hb.ready.sound hb.hopeful.shallow hb.idle hb.sized hcomplete, hb.feasible, .refl _⟩

theorem Branch.Settled.of_settle (hg : p.grammar.Regular) {steps : Nat} {feasible : Bool}
    (hb : b.Ready p p.Solves) (hh : b.Hopeful p) (ht : b.feasible = true → b.Tended p)
    (hr : (BranchM.settle p steps).run b = .ok feasible c) :
    feasible = c.feasible ∧ (∀ t, p.Admissible c t ↔ p.Admissible b t) ∧
      (c.feasible = true → c.Settled p) := by
  obtain ⟨hadvance, he, hdone⟩ := (BranchM.operates_settle hg (fun _ ht => ht) steps hb).ok hr
  refine ⟨he, hadvance.proceeds.admissible_iff, fun hf => ?_⟩
  obtain ⟨hidle, hsized⟩ := hdone hf
  exact ⟨hadvance.proceeds.ready hb, hadvance.proceeds.hopeful hh,
    hadvance.tended hf (ht (hadvance.proceeds.feasible hf)), hf, hidle, hsized⟩

theorem Branch.Settled.fork (hb : b.Settled p) : b.fork.Settled p where
  ready := hb.ready.fork
  hopeful := ⟨hb.hopeful.rules, hb.hopeful.shallow⟩
  tended := ⟨hb.tended.shown, hb.tended.attended.announced, hb.tended.attended.retired,
    hb.tended.attended.active⟩
  feasible := hb.feasible
  idle := hb.idle
  sized := hb.sized

-- For a tree of the grammar, the first branch is what showing its positions comes to.
theorem Branch.start_of_wellFormed (hg : p.grammar.Regular) {root : Tree}
    (hw : p.grammar.WellFormed none root) (steps : Nat) :
    Branch.start p steps root = (((root.positions []).forM fun x => BranchM.whenFeasible
      (BranchM.announce p (BranchM.fillClass p steps) false x.1)).runOn (.of root)).map Prod.snd := by
  have hstart : Branch.start p steps root = match ((root.positions []).forM fun x =>
      BranchM.whenFeasible (BranchM.announce p (BranchM.fillClass p steps) false x.1)).run (.of root) with
        | .ok _ c => pure c
        | .error halt _ => throw halt := by
    unfold Branch.start
    rw [(Grammar.check_ofTree hg steps).mpr hw]
    rfl
  rw [hstart, BranchM.runOn]
  cases ((root.positions []).forM fun x => BranchM.whenFeasible
    (BranchM.announce p (BranchM.fillClass p steps) false x.1)).run (.of root) <;> rfl

-- The root of a solution has one of the rules that the search begins with.
theorem Problem.Solution.root (hg : p.grammar.Regular) {category : String} {d : Domain}
    (hd : p.grammar.domainFor category = .ok d) (h : p.Solution category t) :
    ∃ (n : Nat) (cs : List Tree), t = .node n cs ∧ n ∈ d ∩ p.shallowRules [] := by
  obtain ⟨⟨hw, hc⟩, hb, -⟩ := h
  obtain ⟨i, cs, rfl, -⟩ := Tree.complete_iff.mp hc
  obtain ⟨r, hr, live, fits, -⟩ := Grammar.wellFormed_node_iff.mp hw
  obtain ⟨n, rfl, -⟩ := Grammar.rule?_eq_some hr
  have hin : n ∈ d := (hg.mem_domainFor hd n).mpr ⟨r, hr, live, fits _ rfl⟩
  have hshallow := Problem.mem_shallowRules hg hw.anyCategory hc hb (Tree.get?_nil _)
  exact ⟨n, cs, rfl, (Domain.mem_inter _ _ _).mpr ⟨hin, hshallow⟩⟩

namespace Enumerator

variable (e : Enumerator)

-- The rules of the first hole, when there are any.
def Opens (rules : Domain) : Prop :=
  rules.isEmpty = false ∧ ∃ d, e.problem.grammar.domainFor e.start = .ok d ∧
    rules = d ∩ e.problem.shallowRules []

-- The work on the first branch: its positions are shown to the constraints, and it settles.
def opening (rules : Domain) (fuel : Nat) : BranchM Bool := do
  ((Tree.hole e.start rules).positions []).forM fun (path, _) =>
    BranchM.whenFeasible (BranchM.announce e.problem (BranchM.fillClass e.problem fuel) false path)
  BranchM.settle e.problem fuel

-- The work on a copy of a branch in which a hole gets a rule.
def attempt (path : Path) (rule fuel : Nat) : BranchM Bool := do
  BranchM.fill e.problem fuel path rule
  BranchM.settle e.problem fuel

variable {e} {fuel : Nat} {found : Option Branch}

section Rules

variable {path : Path} {rule : Nat}

theorem tryRule_eq_ok : e.tryRule fuel b path rule = .ok found ↔
    ∃ feasible c, (e.attempt path rule fuel).run b.fork = .ok feasible c ∧
      found = if feasible then some c else none := by
  constructor
  · intro h
    obtain ⟨⟨feasible, c⟩, hwork, h⟩ := Except.bind_eq_ok.mp h
    exact ⟨feasible, c, BranchM.runOn_eq_ok.mp hwork, (Except.ok.inj h).symm⟩
  · rintro ⟨feasible, c, hwork, rfl⟩
    exact Except.bind_eq_ok.mpr ⟨(feasible, c), BranchM.runOn_eq_ok.mpr hwork, rfl⟩

-- A branch with a rule in the place of a hole has the trees with the rule there.
theorem attempt_spec (hg : e.problem.grammar.Regular) (hb : b.Settled e.problem) {category : String}
    {rules : Domain} (hs : b.tree.get? path = some (.hole category rules)) {feasible : Bool}
    (h : (e.attempt path rule fuel).run b.fork = .ok feasible c) :
    feasible = c.feasible ∧
      (∀ t, e.problem.Admissible c t ↔
        e.problem.Admissible b t ∧ ∃ cs, t.get? path = some (.node rule cs)) ∧
      (c.feasible = true → c.Settled e.problem ∧ Lighter e.problem b c) := by
  obtain ⟨_, m, hfill, hsettle⟩ := BranchM.run_bind_eq_ok.mp h
  have hf := hb.fork
  obtain ⟨hstep, hnode⟩ := (meets_fill hg fuel hf.ready hs).ok hfill
  have hproceeds := hstep.moves.proceeds
  have hready := hproceeds.ready_of_filled hf.ready hnode
  obtain ⟨he, hsame, hdone⟩ := Branch.Settled.of_settle hg hready (hproceeds.hopeful hf.hopeful)
    (fun hm => hstep.advance.tended hm hf.tended) hsettle
  have hshare := hproceeds.admissible_iff_of_filled hnode
  refine ⟨he, fun t => (hsame t).trans (hshare t), fun hc => ⟨hdone hc, fun D hD => ?_⟩⟩
  obtain ⟨hadvance, -⟩ := (BranchM.operates_settle hg (fun _ ht => ht) fuel hready).ok hsettle
  obtain ⟨cs, hcs⟩ := hnode (hadvance.proceeds.feasible hc)
  rcases hproceeds.weight_lt (Nat.le_trans hadvance.proceeds.depth_le hD) with htree | hlt
  · -- the hole is gone
    rw [htree] at hcs
    cases hs.symm.trans hcs
  · exact Nat.lt_of_le_of_lt (hadvance.proceeds.weight_le hD) hlt

-- The branch for a rule has settled, and without a branch there are no trees with the rule.
theorem tryRule_spec (hg : e.problem.grammar.Regular) (hb : b.Settled e.problem) {category : String}
    {rules : Domain} (hs : b.tree.get? path = some (.hole category rules))
    (h : e.tryRule fuel b path rule = .ok found) :
    (∀ c ∈ found, c.Settled e.problem ∧ Lighter e.problem b c) ∧
      ∀ t, (∃ c ∈ found, e.problem.Admissible c t) ↔
        e.problem.Admissible b t ∧ ∃ cs, t.get? path = some (.node rule cs) := by
  obtain ⟨feasible, c, hrun, rfl⟩ := tryRule_eq_ok.mp h
  obtain ⟨rfl, hall, hdone⟩ := attempt_spec hg hb hs hrun
  by_cases hc : c.feasible = true
  · rw [if_pos hc]
    refine ⟨fun d hd => ?_, fun t => ?_⟩
    · obtain rfl : c = d := Option.some.inj hd
      exact hdone hc
    · rw [← hall t]
      exact ⟨fun ⟨d, hd, ht⟩ => Option.some.inj hd ▸ ht, fun ht => ⟨c, rfl, ht⟩⟩
  · rw [if_neg hc]
    exact ⟨nofun, fun t => ⟨nofun, fun ht => absurd ((hall t).mpr ht).1 hc⟩⟩

end Rules

section Sharing

-- What the order of the rules says of any two of them holds of their branches in that order.
theorem pairwise_of_rules {rules : List Nat} {outcomes : List (Option Branch)}
    {R : Nat → Nat → Prop} {P : Nat → Branch → Prop} {S : Branch → Branch → Prop}
    (hrules : rules.Pairwise R)
    (h : List.Forall₂ (fun rule found => ∀ c ∈ found, P rule c) rules outcomes)
    (hS : ∀ rule other c d, R rule other → P rule c → P other d → S c d) :
    (outcomes.filterMap id).Pairwise S := by
  induction h with
  | nil => exact .nil
  | @cons rule found rules outcomes hfound hrest ih =>
      obtain ⟨hrule, hrules⟩ := List.pairwise_cons.mp hrules
      cases found with
      | none => exact ih hrules
      | some c =>
          refine .cons (fun d hd => ?_) (ih hrules)
          obtain ⟨found', hin, he⟩ := List.mem_filterMap.mp hd
          obtain ⟨other, hother, hd⟩ := exists_of_forall₂ hrest.flip hin
          exact hS rule other c d (hrule other hother) (hfound c rfl) (hd d he)

-- The branches for different rules have no trees in common.
theorem apart_of_rules (path : Path) {rules : List Nat} {outcomes : List (Option Branch)}
    {A : Branch → Tree → Prop} (hnodup : rules.Nodup)
    (h : List.Forall₂ (fun (rule : Nat) found => ∀ c ∈ found, ∀ t, A c t →
      ∃ cs, Tree.get? t path = some (.node rule cs)) rules outcomes) :
    (outcomes.filterMap id).Pairwise fun c d => ∀ t, A c t → ¬ A d t := by
  refine pairwise_of_rules hnodup h fun rule other c d hne hc hd t hct hdt => ?_
  obtain ⟨cs, hcs⟩ := hc t hct
  obtain ⟨ds, hds⟩ := hd t hdt
  rw [hcs] at hds
  obtain ⟨hr, -⟩ := Tree.node.inj (Option.some.inj hds)
  exact hne (Int.ofNat.inj hr)

variable {outcomes : List (Option Branch)}

-- A branch with holes is expanded at one of them.
theorem exists_expand_eq (e : Enumerator) (hc : b.isComplete = false) :
    ∃ path category d, e.strategy.hole? b.tree = some path ∧
      b.tree.get? path = some (.hole category d) ∧
        ∀ fuel, e.expand fuel b = d.rules.mapM (e.tryRule fuel b path) := by
  obtain ⟨path, category, d, hhole, hs⟩ := e.strategy.hole?_eq_some hc
  refine ⟨path, category, d, hhole, hs, fun fuel => ?_⟩
  unfold expand
  simp only [hhole, hs]

-- The branches for the rules of a hole share out the trees of the branch.
theorem expand_spec (hg : e.problem.grammar.Regular) (hb : b.Settled e.problem)
    (hc : b.isComplete = false) (h : e.expand fuel b = .ok outcomes) :
    (∀ c ∈ outcomes.filterMap id, c.Settled e.problem ∧ Lighter e.problem b c) ∧
      ((outcomes.filterMap id).Pairwise fun c d =>
        ∀ t, e.problem.Admissible c t → ¬ e.problem.Admissible d t) ∧
      ∀ t, (∃ c ∈ outcomes.filterMap id, e.problem.Admissible c t) ↔ e.problem.Admissible b t := by
  obtain ⟨path, category, d, -, hs, hexpand⟩ := e.exists_expand_eq hc
  rw [hexpand] at h
  have htried := (Except.mapM_eq_ok.mp h).imp fun rule found hf => tryRule_spec hg hb hs hf
  refine ⟨fun c hc => ?_, apart_of_rules path d.rules_nodup ?_,
    fun t => ⟨fun ⟨c, hc, ht⟩ => ?_, fun ht => ?_⟩⟩
  · obtain ⟨found, hin, he⟩ := List.mem_filterMap.mp hc
    obtain ⟨rule, -, hf⟩ := exists_of_forall₂ htried.flip hin
    exact hf.1 c he
  · exact htried.imp fun rule found hf c hc t ht => ((hf.2 t).mp ⟨c, hc, ht⟩).2
  · obtain ⟨found, hin, he⟩ := List.mem_filterMap.mp hc
    obtain ⟨rule, -, hf⟩ := exists_of_forall₂ htried.flip hin
    exact ((hf.2 t).mp ⟨c, he, ht⟩).1
  · obtain ⟨hsolves, hcovers⟩ := Problem.admissible_iff.mp ht
    obtain ⟨v, hv, hcompletes⟩ := (hsolves.completes hcovers).get? hs
    obtain ⟨rule, cs, rfl, hin⟩ := hcompletes.hole
    obtain ⟨found, hmem, hf⟩ := exists_of_forall₂ htried ((Domain.mem_rules rule d).mpr hin)
    obtain ⟨c, hc, hct⟩ := (hf.2 t).mpr ⟨ht, cs, hv⟩
    exact ⟨c, List.mem_filterMap.mpr ⟨found, hmem, hc⟩, hct⟩

end Sharing

section Root

theorem Opens.check {rules : Domain} (h : e.Opens rules) (steps : Nat) :
    e.problem.grammar.check steps none (.ofTree (.hole e.start rules)) = .ok () := by
  obtain ⟨-, d, hd, rfl⟩ := h
  have hzero : Bits.both (d ∩ e.problem.shallowRules []).bits (~~~(d.bits : Int)) = 0 :=
    Grammar.both_compl_eq_zero.mpr fun r hr => ((Domain.mem_inter r _ _).mp hr).1
  simp [Node.ofTree, Grammar.check, Grammar.checkHole, hd, hzero, Except.mapError]

theorem Opens.wellFormed (hg : e.problem.grammar.Regular) {rules : Domain} (h : e.Opens rules) :
    e.problem.grammar.WellFormed none (.hole e.start rules) :=
  (Grammar.check_ofTree hg 0).mp (h.check 0)

theorem Opens.hopeful {rules : Domain} (h : e.Opens rules) :
    (Branch.of (.hole e.start rules)).Hopeful e.problem := by
  refine ⟨fun path category d hs => ?_, fun limit hl => e.problem.bounds.one_le_depth limit hl⟩
  obtain ⟨-, he⟩ := Tree.get?_hole_eq_some hs
  cases he
  exact h.1

-- The solutions are the complete trees that the first hole can become.
theorem Opens.solution_iff (hg : e.problem.grammar.Regular) {rules : Domain} (h : e.Opens rules) :
    e.problem.Solution e.start t ↔ e.problem.Admissible (.of (.hole e.start rules)) t := by
  obtain ⟨-, d, hd, rfl⟩ := h
  rw [Problem.admissible_iff]
  constructor
  · intro ht
    obtain ⟨n, cs, rfl, hn⟩ := Problem.Solution.root hg hd ht
    obtain ⟨⟨hw, hc⟩, hb, hk⟩ := ht
    exact ⟨⟨hw.anyCategory, hc, hb, hk⟩, rfl, .filled hn⟩
  · rintro ⟨⟨hw, hc, hb, hk⟩, -, hr⟩
    obtain ⟨n, cs, hn, rfl, -⟩ := hc.refines_hole hr
    obtain ⟨r, found, live, -, arity, below⟩ := Grammar.wellFormed_node_iff.mp hw
    obtain ⟨q, hq, -, hcat⟩ := (hg.mem_domainFor hd n).mp ((Domain.mem_inter _ _ _).mp hn).1
    obtain rfl := Option.some.inj (found.symm.trans hq)
    refine ⟨⟨.node found live (fun c hm => ?_) arity below, hc⟩, hb, hk⟩
    exact hcat.trans (Option.some.inj hm)

-- The first branch comes of the opening work.
theorem root?_of_opens (hg : e.problem.grammar.Regular)
    (hshallow : e.problem.shallow [] = .ok (e.problem.shallowRules [])) {rules : Domain}
    (ho : e.Opens rules) : e.root? fuel =
      (e.opening rules fuel).runOn (.of (.hole e.start rules)) >>= fun r =>
        .ok (if r.1 then some r.2 else none) := by
  have hstart := Branch.start_of_wellFormed hg (ho.wellFormed hg) fuel
  obtain ⟨hne, d, hd, rfl⟩ := ho
  have hmapped : (e.problem.grammar.domainFor e.start).mapError Halt.fault = .ok d :=
    Except.mapError_eq_ok.mpr hd
  unfold root? opening
  rw [hshallow, Except.ok_bind, hmapped, Except.ok_bind, if_neg (by simp [hne]), hstart,
    BranchM.runOn_bind]
  cases BranchM.runOn _ (Branch.of _) <;> rfl

theorem root?_eq_ok (hg : e.problem.grammar.Regular) : e.root? fuel = .ok found ↔
    e.problem.shallow [] = .ok (e.problem.shallowRules []) ∧
    ((∃ d, e.problem.grammar.domainFor e.start = .ok d ∧
      (d ∩ e.problem.shallowRules []).isEmpty = true ∧ found = none) ∨
    ∃ rules feasible c, e.Opens rules ∧
      (e.opening rules fuel).run (.of (.hole e.start rules)) = .ok feasible c ∧
        found = if feasible then some c else none) := by
  constructor
  · intro h
    unfold root? at h
    obtain ⟨shallow, hshallow, hrest⟩ := Except.bind_eq_ok.mp h
    obtain rfl := (Problem.shallow_reckons hg []).reckons.eq_of_ok hshallow
    obtain ⟨d, hd, hrest⟩ := Except.bind_eq_ok.mp hrest
    have hd := Except.mapError_eq_ok.mp hd
    refine ⟨hshallow, ?_⟩
    by_cases hempty : (d ∩ e.problem.shallowRules []).isEmpty = true
    · rw [if_pos hempty] at hrest
      exact Or.inl ⟨d, hd, hempty, (Except.ok.inj hrest).symm⟩
    · have ho : e.Opens (d ∩ e.problem.shallowRules []) := ⟨by simpa using hempty, d, hd, rfl⟩
      have h : e.root? fuel = .ok found := h
      rw [root?_of_opens hg hshallow ho] at h
      obtain ⟨⟨feasible, c⟩, hrun, h⟩ := Except.bind_eq_ok.mp h
      exact Or.inr ⟨_, feasible, c, ho, BranchM.runOn_eq_ok.mp hrun, (Except.ok.inj h).symm⟩
  · rintro ⟨hshallow, ⟨d, hd, hempty, rfl⟩ | ⟨rules, feasible, c, ho, hrun, rfl⟩⟩
    · refine Except.bind_eq_ok.mpr ⟨_, hshallow, Except.bind_eq_ok.mpr
        ⟨d, Except.mapError_eq_ok.mpr hd, ?_⟩⟩
      rw [if_pos hempty]
      rfl
    · rw [root?_of_opens hg hshallow ho, BranchM.runOn_eq_ok.mpr hrun]
      rfl

-- The first branch has the solutions.
theorem opening_spec (hg : e.problem.grammar.Regular) {rules : Domain} (ho : e.Opens rules)
    {feasible : Bool} (h : (e.opening rules fuel).run (.of (.hole e.start rules)) = .ok feasible c) :
    feasible = c.feasible ∧ (∀ t, e.problem.Admissible c t ↔ e.problem.Solution e.start t) ∧
      (c.feasible = true → c.Settled e.problem) := by
  obtain ⟨_, m, hstart, hsettle⟩ := BranchM.run_bind_eq_ok.mp h
  obtain ⟨hstep, htended⟩ := (does_start hg (T := e.problem.Solves) (fun _ ht => ht) fuel
    (ho.wellFormed hg)).ok hstart
  have hproceeds := hstep.moves.proceeds
  obtain ⟨he, hsame, hdone⟩ := Branch.Settled.of_settle hg
    (hproceeds.ready (Branch.ready_of (ho.wellFormed hg))) (hproceeds.hopeful ho.hopeful) htended hsettle
  refine ⟨he, fun t => ?_, hdone⟩
  rw [hsame t, hproceeds.admissible_iff t, ho.solution_iff hg]

-- The first branch has settled, and without one there are no solutions.
theorem root?_spec (hg : e.problem.grammar.Regular) (h : e.root? fuel = .ok found) :
    (∀ b ∈ found, b.Settled e.problem) ∧
      ∀ t, (∃ b ∈ found, e.problem.Admissible b t) ↔ e.problem.Solution e.start t := by
  obtain ⟨-, ⟨d, hd, hempty, rfl⟩ | ⟨rules, feasible, c, ho, hrun, rfl⟩⟩ := (root?_eq_ok hg).mp h
  · refine ⟨nofun, fun t => ⟨nofun, fun ht => ?_⟩⟩
    obtain ⟨n, -, -, hn⟩ := Problem.Solution.root hg hd ht
    exact absurd hn ((Domain.isEmpty_iff _).mp hempty n)
  · obtain ⟨rfl, hall, hdone⟩ := opening_spec hg ho hrun
    by_cases hc : c.feasible = true
    · rw [if_pos hc]
      refine ⟨fun m hm => ?_, fun t => ?_⟩
      · obtain rfl : c = m := Option.some.inj hm
        exact hdone hc
      · rw [← hall t]
        exact ⟨fun ⟨m, hm, ht⟩ => Option.some.inj hm ▸ ht, fun ht => ⟨c, rfl, ht⟩⟩
    · rw [if_neg hc]
      exact ⟨nofun, fun t => ⟨nofun, fun ht => absurd ((hall t).mpr ht).1 hc⟩⟩

end Root

end Enumerator

end TreeSearch
