import TreeSearch.Proofs.Search.Termination

namespace TreeSearch.Enumerator

variable {e : Enumerator}

-- The branches of a search with a size limit are no deeper than the limit.
theorem Visits.depth_le (hg : e.problem.grammar.Regular) {limit : Nat}
    (hl : limit ∈ e.problem.bounds.maxSize) {b : Branch} (hv : e.Visits b) : b.tree.depth ≤ limit := by
  have hb := hv.settled hg
  have hsized := hb.sized limit hl
  cases hleast : e.problem.leastSize b.tree with
  | infinite =>
      rw [hleast] at hsized
      cases hsized
  | finite n =>
      rw [hleast] at hsized
      have hsize := Problem.size_le_of_leastSize hg hb.ready.sound.wellFormed hleast
      have : (n : Int) ≤ limit := by simpa [Cost.within] using hsized
      exact Nat.le_trans b.tree.depth_le_size (by omega)

-- With a size limit the frontier becomes empty if every piece of work comes to a result, unless a
-- table overflows. It does not when filling forced holes goes on without end, since the limit is not
-- looked at in between.
theorem trees_finish_iff_of_maxSize {g : Grammar} {start : String} {strategy : Strategy}
    {maxDepth maxSize : Option Int} {config : Option Config} (hg : g.Reachable)
    (he : Enumerator.of g start strategy maxDepth maxSize config = .ok e) {limit : Nat}
    (hl : e.problem.bounds.maxSize = some limit) :
    ((∃ trees pass, pass.frontier = [] ∧ Eventually (fun fuel => e.trees fuel none) (.ok (trees, pass))) ↔
      ∀ work b, e.Attempts work b → BranchM.Contained work b) ∨
      Eventually (fun fuel => e.trees fuel none) (.error .overflow) ∧ ¬ e.problem.InRange := by
  obtain ⟨rfl, rfl, hstart⟩ := of_eq_ok he
  have hcontained {trees : List Tree} {pass : Pass} (h : Eventually (fun fuel => e.trees fuel none)
      (.ok (trees, pass))) (work : Nat → BranchM Bool) (b : Branch) (hw : e.Attempts work b) :
      BranchM.Contained work b := by
    obtain ⟨N, hN⟩ := h
    obtain ⟨steps, feasible, c, hrun, -⟩ := Attempts.of_trees hg.regular (hN N (Nat.le_refl N)) hw
    exact (hw.gradual hg.regular).contained_of_ok hrun
  by_cases hall : ∀ work b, e.Attempts work b → BranchM.Contained work b
  · have hends (work : Nat → BranchM Bool) (b : Branch) (hw : e.Attempts work b) :
        e.problem.Finishes fun steps => (work steps).runOn b :=
      (hw.gradual hg.regular).finishes_of_contained hg.regular (hall work b hw)
    refine (trees_finish hg.regular hstart hends (fun b hv => hv.depth_le hg.regular hl) none).imp_left ?_
    rintro ⟨⟨trees, pass⟩, N, hN⟩
    obtain ⟨hend, -⟩ := trees_spec hg.regular (hN N (Nat.le_refl N))
    exact ⟨fun _ => hall, fun _ => ⟨trees, pass, hend rfl, N, hN⟩⟩
  · exact Or.inl ⟨fun ⟨_, _, _, h⟩ => hcontained h, fun h => absurd h hall⟩

section Endless

-- A part that so many rules stand above.
def under : Nat → Tree → Tree
  | 0, t => t
  | k + 1, t => .node 1 [under k t]

def far (k : Nat) : Path := List.replicate k 0

theorem get?_under (k : Nat) (t : Tree) : (under k t).get? (far k) = some t := by
  induction k with
  | zero => rfl
  | succ k ih => exact ih

theorem replace_under (k : Nat) (t u : Tree) : (under k t).replace (far k) u = .ok (under k u) := by
  induction k with
  | zero => cases t <;> rfl
  | succ k ih =>
      show (do return Tree.node 1 ([under k t].set 0 (← (under k t).replace (far k) u))) = _
      rw [ih]
      rfl

theorem under_node (k : Nat) (t : Tree) : under k (.node 1 [t]) = under (k + 1) t := by
  induction k with
  | zero => rfl
  | succ k ih => exact congrArg (fun s => Tree.node 1 [s]) ih

theorem far_succ (k : Nat) : far k ++ [0] = far (k + 1) := by
  simp [far, List.replicate_succ']

theorem depth_under (k : Nat) (category : String) (d : Domain) :
    (under k (.hole category d)).depth = k + 1 := by
  induction k with
  | zero => rfl
  | succ k ih =>
      rw [under, Tree.depth, Tree.depthBelow, Tree.depthBelow, ih, Nat.max_zero]

theorem holes_under (k : Nat) (category : String) (d : Domain) :
    (under k (.hole category d)).holes = [(far k, category, d)] := by
  have hfrom (base : Path) : ((under k (.hole category d)).positions base).filterMap Tree.holeAt? =
      [(base ++ far k, category, d)] := by
    induction k generalizing base with
    | zero => simp [under, Tree.positions, Tree.holeAt?, far]
    | succ k ih =>
        rw [under, Tree.positions, Tree.positionsBelow, Tree.positionsBelow, List.append_nil,
          List.filterMap_cons_none rfl]
        refine (ih _).trans ?_
        rw [far, far, List.append_assoc]
        rfl
  rw [Tree.holes_eq]
  exact hfrom []

theorem firstForced?_under (k : Nat) : (under k (.hole "S" {1})).firstForced? = some (far k, 1) := by
  unfold Tree.firstForced?
  rw [holes_under]
  rfl

-- So many rules down there is one open position, and nothing is left to do.
structure Endless (k n : Nat) (rules : Domain) (b : Branch) : Prop where
  tree : b.tree = under k (.hole "S" rules)
  feasible : b.feasible = true
  classes : b.classes = .empty
  active : b.active = .empty
  retired : ∀ w ∈ b.retired, w.path.length ≤ n

variable {k n : Nat} {b : Branch} {rules : Domain}

theorem Endless.get? (h : Endless k n rules b) : b.tree.get? (far k) = some (.hole "S" rules) := by
  rw [h.tree]
  exact get?_under k _

theorem Endless.members (h : Endless k n rules b) (path : Path) : b.classes.members path = [path] := by
  rw [h.classes]
  rfl

theorem Endless.notify (h : Endless k n rules b) (part : Tree) (j : Nat) (kept : Domain)
    (he : under k part = under j (.hole "S" kept)) (statistics : Statistics) :
    Endless j n kept ({ b with tree := under k part, statistics := statistics }.notify false (far k)) :=
  ⟨he, h.feasible, h.classes, h.active, h.retired⟩

theorem Endless.meets_edit (h : Endless k n rules b) {part : Tree} {j : Nat} {kept : Domain}
    (he : under k part = under j (.hole "S" kept)) (count : Statistics → Statistics) :
    (BranchM.edit false (far k) part count).Meets b (fun _ c => Endless j n kept c) (fun _ _ => False) := by
  unfold BranchM.edit
  rw [BranchM.meets_bind, BranchM.meets_get, BranchM.meets_bind,
    BranchM.meets_attempt (a := under k part) (by rw [h.tree]; exact replace_under k _ part)]
  exact h.notify part j kept he _

-- The position that filling opens.
theorem Endless.meets_fillMembers (h : Endless k n {1} b) :
    (BranchM.fillMembers Problem.endless false 1 [far k]).Meets b
      (fun opened c => opened = [far (k + 1)] ∧ Endless (k + 1) n (.ofList [0, 1]) c)
      (fun _ _ => False) := by
  have hrule : Problem.endless.grammar.rule (1 : Nat) = .ok ⟨1, "S", ["S"], none, none, false⟩ := rfl
  have hproducible : Problem.endless.shallow [] = .ok (.ofList [0, 1]) := by
    decide +kernel
  -- without a depth limit the path does not matter
  have hshallow : Problem.endless.shallow (far k ++ [0]) = .ok (.ofList [0, 1]) := hproducible
  have hholes : Problem.endless.grammar.openChildren (.ofList [0, 1]) ["S"] =
      .ok (some [.hole "S" (.ofList [0, 1])]) := rfl
  unfold BranchM.fillMembers BranchM.fillMember
  rw [BranchM.meets_bind, BranchM.meets_bind, BranchM.meets_nodeAt h.get?]
  simp only
  rw [if_pos (by decide)]
  unfold BranchM.fillOne
  rw [BranchM.meets_bind, BranchM.meets_reckon hshallow, BranchM.meets_bind, BranchM.meets_attempt hrule,
    BranchM.meets_bind, BranchM.meets_attempt hholes]
  simp only
  rw [BranchM.meets_bind]
  refine BranchM.Meets.mono (h.meets_edit (under_node k _) _) (fun _ c hc => ?_) fun _ _ hh => hh
  show BranchM.Meets (BranchM.isFeasible >>= fun feasible => if feasible = true then _ else _) c _ _
  rw [BranchM.meets_bind, BranchM.meets_isFeasible, if_pos hc.feasible]
  exact ⟨by rw [← far_succ]; rfl, hc⟩

theorem Endless.meets_narrow (h : Endless k n (.ofList [0, 1]) b) :
    (BranchM.narrow false (far k) (.except {0})).Meets b
      (fun _ c => Endless k n {1} c) (fun _ _ => False) := by
  unfold BranchM.narrow
  rw [BranchM.meets_bind, BranchM.meets_nodeAt h.get?, BranchM.meets_bind, BranchM.meets_get, h.members]
  show BranchM.Meets (BranchM.whenFeasible (BranchM.narrowOne false (.except {0}) (far k)) >>= fun _ => pure ()) b _ _
  rw [BranchM.meets_bind, BranchM.meets_whenFeasible]
  refine ⟨fun _ => ?_, fun hf => absurd (h.feasible.symm.trans hf) nofun⟩
  unfold BranchM.narrowOne
  rw [BranchM.meets_bind, BranchM.meets_nodeAt h.get?]
  have hkept : (Domain.ofList [0, 1]).restrict (.except {0}) = {1} := rfl
  simp only [hkept]
  rw [if_neg (by decide), if_neg (by decide)]
  exact BranchM.Meets.mono (h.meets_edit rfl _) (fun _ _ hc => hc) fun _ _ hh => hh

-- The new position gets the constraint, which strikes the rule that ends.
theorem Endless.meets_announce (h : Endless (k + 1) k (.ofList [0, 1]) b) (fill : Filler) :
    (BranchM.announce Problem.endless fill false (far (k + 1))).Meets b
      (fun _ c => Endless (k + 1) (k + 1) {1} c) (fun _ _ => False) := by
  let w : Watch := ⟨far (k + 1), .rootOnly 0⟩
  have hwatch : (Constraint.rootOnly 0).watchAt Problem.endless b.tree (far (k + 1)) =
      .ok (some w) := rfl
  have hactions : w.actions Problem.endless b.tree = .ok [.retire, .strike (far (k + 1)) 0] := by
    show (rootOnlyActions b.tree (far (k + 1)) 0).mapError Halt.fault = _
    unfold rootOnlyActions
    rw [Tree.get_eq_ok h.get?]
    rfl
  have hsingle : Domain.single 0 = .ok {0} := rfl
  have hnew : ¬ ((!b.feasible) = true ∨ w ∈ b.active ∨ w ∈ b.retired) := by
    rintro (hf | ha | hr)
    · simp [h.feasible] at hf
    · rw [h.active] at ha
      cases ha
    · have := h.retired w hr
      simp [w, far] at this
  show BranchM.Meets (BranchM.whenFeasible (BranchM.announceTo Problem.endless fill false
    (far (k + 1)) (.rootOnly 0)) >>= fun _ => pure ()) b _ _
  rw [BranchM.meets_bind, BranchM.meets_whenFeasible]
  refine ⟨fun _ => ?_, fun hf => absurd (h.feasible.symm.trans hf) nofun⟩
  unfold BranchM.announceTo
  rw [BranchM.meets_bind, BranchM.meets_get, BranchM.meets_bind, BranchM.meets_attempt hwatch,
    BranchM.meets_bind, BranchM.meets_modify]
  simp only
  unfold BranchM.post
  rw [BranchM.meets_bind, BranchM.meets_get, if_neg hnew, BranchM.meets_bind, BranchM.meets_set]
  unfold BranchM.propagate
  rw [BranchM.meets_bind, BranchM.meets_get, BranchM.meets_bind, BranchM.meets_reckon hactions]
  show BranchM.Meets (BranchM.perform Problem.endless fill false w .retire >>= fun _ =>
    BranchM.perform Problem.endless fill false w (.strike (far (k + 1)) 0) >>= fun _ => pure ()) _ _ _
  rw [BranchM.meets_bind]
  unfold BranchM.perform
  rw [BranchM.meets_modify, BranchM.meets_bind]
  unfold BranchM.strike
  rw [BranchM.meets_bind, BranchM.meets_attempt hsingle]
  refine BranchM.Meets.mono (Endless.meets_narrow ⟨h.tree, h.feasible, h.classes, ?_, fun v hv => ?_⟩)
    (fun _ c hc => hc) fun _ _ hh => hh
  · show (b.active.insert w).erase w = .empty
    rw [h.active]
    simp [OrderedSet.insert, OrderedSet.erase, OrderedSet.empty]
  · rcases (OrderedSet.mem_insert b.retired w v).mp hv with hv | rfl
    · exact Nat.le_succ_of_le (h.retired v hv)
    · simp [w, far]

-- Filling goes one rule further down.
theorem Endless.meets_fillClass (h : Endless k k {1} b) (steps : Nat) :
    (BranchM.fillClass Problem.endless (steps + 1) false (far k) 1).Meets b
      (fun _ c => Endless (k + 1) (k + 1) {1} c) (fun _ _ => False) := by
  unfold BranchM.fillClass
  rw [BranchM.meets_bind, BranchM.meets_get, h.members]
  simp only
  rw [BranchM.meets_bind]
  refine BranchM.Meets.mono h.meets_fillMembers ?_ fun _ _ hh => hh
  rintro opened c ⟨rfl, hc⟩
  rw [BranchM.meets_whenFeasible]
  refine ⟨fun _ => ?_, fun hf => Bool.noConfusion (hc.feasible.symm.trans hf)⟩
  rw [if_neg (by simp)]
  show BranchM.Meets (BranchM.whenFeasible (BranchM.announce _ _ false (far (k + 1))) >>= fun _ => pure ()) c _ _
  rw [BranchM.meets_bind, BranchM.meets_whenFeasible]
  refine ⟨fun _ => ?_, fun hf => Bool.noConfusion (hc.feasible.symm.trans hf)⟩
  exact BranchM.Meets.mono (hc.meets_announce _) (fun _ _ hd => hd) fun _ _ hh => hh

-- However many steps there are, they are used up.
theorem Endless.meets_materialize (h : Endless k k {1} b) (steps : Nat) :
    (BranchM.materialize Problem.endless steps).Meets b (fun _ _ => False)
      (fun halt c => halt = .outOfFuel ∧ k + steps ≤ c.tree.depth) := by
  have hdepth : k + 1 ≤ b.tree.depth := by rw [h.tree, depth_under]
  induction steps generalizing k b with
  | zero => exact ⟨rfl, Nat.le_of_succ_le hdepth⟩
  | succ steps ih =>
      unfold BranchM.materialize
      rw [BranchM.meets_bind, BranchM.meets_get, if_neg (by simp [h.feasible]), h.tree, firstForced?_under]
      simp only
      rw [BranchM.meets_bind]
      cases steps with
      | zero => exact ⟨rfl, hdepth⟩
      | succ steps =>
          refine BranchM.Meets.mono (h.meets_fillClass steps) (fun _ c hc => ?_) fun _ _ hh => hh.elim
          rw [BranchM.meets_bind]
          have hdepth : k + 1 + 1 ≤ c.tree.depth := by rw [hc.tree, depth_under]
          refine BranchM.Meets.mono (ih hc hdepth) (fun _ _ hf => hf.elim) fun _ d hd => ⟨hd.1, ?_⟩
          omega

-- Filling forced holes takes place when nothing is left to propagate.
theorem meets_attempt_of_materialize {path : Path} {rule steps : Nat} {c d : Branch}
    {H : Halt → Branch → Prop}
    (hfill : (BranchM.fill e.problem (steps + 1) path rule).run b = .ok () c)
    (hfixPoint : (BranchM.fixPoint e.problem steps).run c = .ok true d)
    (h : (BranchM.materialize e.problem steps).Meets d (fun _ _ => False) H) :
    (e.attempt path rule (steps + 1)).Meets b (fun _ _ => False) H := by
  unfold attempt
  rw [BranchM.meets_bind]
  refine .of_ok hfill ?_
  unfold BranchM.settle
  rw [BranchM.meets_bind]
  refine .of_ok hfixPoint ?_
  show BranchM.Meets (BranchM.materialize e.problem steps >>= _) d _ _
  rw [BranchM.meets_bind]
  exact h.mono (fun _ _ hf => hf.elim) fun _ _ hh => hh

def endlessSearch : Enumerator := ⟨.endless, "S", .breadthFirst⟩

theorem endless_attempts :
    endlessSearch.Attempts (endlessSearch.attempt [] 1) Branch.endlessFirst.fork := by
  have hopens : endlessSearch.Opens (.ofList [0, 1]) := ⟨rfl, .ofList [0, 1], rfl, rfl⟩
  have hopening : (endlessSearch.opening (.ofList [0, 1]) 3).run (.of (.hole "S" (.ofList [0, 1]))) =
      .ok true .endlessFirst := by
    decide +kernel
  exact .rule (.opening hopens) hopening rfl rfl (by decide)

theorem Endless.not_contained {path : Path} {rule steps : Nat} {c d : Branch}
    (hfill : (BranchM.fill .endless steps path rule).run b = .ok () c)
    (hfixPoint : (BranchM.fixPoint .endless steps).run c = .ok true d) (h : Endless k k {1} d) :
    ¬ BranchM.Contained (endlessSearch.attempt path rule) b := by
  rintro ⟨D, hD⟩
  have hmaterialize : (BranchM.materialize .endless (steps + D + 1)).Meets d (fun _ _ => False)
      fun halt c => halt = .outOfFuel ∧ D < c.tree.depth :=
    (h.meets_materialize (steps + D + 1)).mono (fun _ _ hf => hf) fun _ c hc => ⟨hc.1, by omega⟩
  have hmeets := meets_attempt_of_materialize (e := endlessSearch)
    ((BranchM.extends_fill _ (by omega) path rule).ok hfill)
    ((BranchM.extends_fixPoint _ (by omega)).ok hfixPoint) hmaterialize
  unfold BranchM.Meets at hmeets
  split at hmeets
  · exact hmeets
  · rename_i c hrun
    obtain ⟨rfl, hdepth⟩ := hmeets
    have := hD _ c hrun
    omega

theorem endless_not_contained :
    ¬ BranchM.Contained (endlessSearch.attempt [] 1) Branch.endlessFirst.fork := by
  have hsecond : Endless 1 1 {1} .endlessSecond := by
    refine ⟨rfl, rfl, rfl, rfl, fun w hw => ?_⟩
    obtain rfl := List.mem_singleton.mp hw
    exact Nat.le_refl 1
  have hidle : (BranchM.fixPoint .endless 3).run .endlessSecond = .ok true .endlessSecond := by
    decide +kernel
  exact Endless.not_contained fill_endless hidle hsecond

-- The rule that goes on has the size limit passed by without end.
theorem trees_never_finish_endless :
    Enumerator.of .endless "S" .breadthFirst none (some 3) none = .ok endlessSearch ∧
      ¬ ∃ trees pass, pass.frontier = [] ∧
        Eventually (fun fuel => endlessSearch.trees fuel none) (.ok (trees, pass)) := by
  have he : Enumerator.of .endless "S" .breadthFirst none (some 3) none = .ok endlessSearch := rfl
  have hiff := (trees_finish_iff_of_maxSize Grammar.reachable_endless he rfl).resolve_right
    fun ho => ho.2 (inRange_endless _)
  exact ⟨he, fun h => endless_not_contained (hiff.mp h _ _ endless_attempts)⟩

end Endless

end TreeSearch.Enumerator
