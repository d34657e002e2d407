import TreeSearch.Proofs.Branch.Conservation

namespace TreeSearch

variable {p : Problem} {b c d : Branch}

section Queue

variable {α : Type} [DecidableEq α]

-- Any pending item may be next, and what is left may stand in the line in any order.
inductive Worklist.Serves (q : Worklist α) : Option α → Worklist α → Prop
  | item {a : α} {rest : Worklist α} (mem : a ∈ q.pending)
      (left : rest.pending.Perm (q.pending.erase a)) (proper : rest.Proper) : Serves q (some a) rest
  | idle {rest : Worklist α} (none_ : q.pending = []) (left : rest.pending = [])
      (proper : rest.Proper) : Serves q none rest

-- First in, first out is one way.
theorem Worklist.Proper.serves_pop {q : Worklist α} (hq : q.Proper) : q.Serves q.pop.1 q.pop.2 := by
  rcases hq.pop with ⟨a, he, hmem, hleft, hproper⟩ | ⟨he, hnone, hleft, hproper⟩
  · rw [he]
    exact .item hmem (.of_eq hleft) hproper
  · rw [he]
    exact .idle hnone hleft hproper

end Queue

-- Propagation until nothing is queued and the limits strike nothing more, or the branch has
-- failed, when any queued constraint may come next.
inductive Branch.Propagates (p : Problem) : Branch → Branch → Prop
  | failed {b : Branch} (hf : b.feasible = false) : Propagates p b b
  | next {fuel : Nat} {b c d : Branch} {w : Watch} {queue : Worklist Watch} (hf : b.feasible = true)
      (served : b.queue.Serves (some w) queue)
      (done : (BranchM.propagateQueued p fuel w).run { b with queue } = .ok () c)
      (rest : Propagates p c d) : Propagates p b d
  | again {b c d : Branch} {queue : Worklist Watch} (hf : b.feasible = true)
      (served : b.queue.Serves none queue)
      (done : (BranchM.tighten p).run { b with queue } = .ok true c) (rest : Propagates p c d) :
      Propagates p b d
  | settled {b c : Branch} {queue : Worklist Watch} (hf : b.feasible = true)
      (served : b.queue.Serves none queue)
      (done : (BranchM.tighten p).run { b with queue } = .ok false c) : Propagates p b c

namespace Branch

-- A step by a queued constraint keeps what holds between steps, and the admissible trees.
theorem Sustained.next (hg : p.grammar.Regular) {fuel : Nat} {w : Watch} {queue : Worklist Watch}
    (hb : b.Sustained p) (hf : b.feasible = true) (served : b.queue.Serves (some w) queue)
    (done : (BranchM.propagateQueued p fuel w).run { b with queue } = .ok () c) :
    c.Sustained p ∧ ∀ t, p.Admissible c t ↔ p.Admissible b t := by
  cases served with
  | item mem left proper =>
      have hsub (v : Watch) (hv : v ∈ queue.pending) : v ∈ b.queue.pending :=
        List.mem_of_mem_erase (left.mem_iff.mp hv)
      have hready : { b with queue }.Ready p p.Solves := ⟨hb.ready.sound.queued proper hsub, hb.ready.loyal⟩
      obtain ⟨hstep, hdone⟩ := (BranchM.does_propagateQueued hg (fun _ ht => ht) fuel hready
        (hb.ready.sound.pending w mem)).ok done
      have hproceeds := hstep.moves.proceeds
      refine ⟨⟨hproceeds.ready hready, hproceeds.shallow hb.shallow, fun hfc => ⟨?_, ?_⟩⟩,
        hproceeds.admissible_iff⟩
      · exact hstep.shown.all hproceeds hfc (hb.tended hf).shown
      · refine hdone hfc ((hb.tended hf).attended.taken fun v hv => ?_)
        by_cases hvw : v = w
        · exact Or.inl hvw
        · exact Or.inr (left.mem_iff.mpr ((List.mem_erase_of_ne hvw).mpr hv))

-- So does a step by the limits, for want of queued constraints. In the end they strike nothing.
theorem Sustained.tighten (hg : p.grammar.Regular) {again : Bool} {queue : Worklist Watch}
    (hb : b.Sustained p) (hf : b.feasible = true) (served : b.queue.Serves none queue)
    (done : (BranchM.tighten p).run { b with queue } = .ok again c) :
    c.Sustained p ∧ (∀ t, p.Admissible c t ↔ p.Admissible b t) ∧
      (again = false → c.feasible = true → c.queue.pending = [] ∧ p.Sized c.tree) := by
  cases served with
  | idle none_ left proper =>
      have hready : { b with queue }.Ready p p.Solves :=
        ⟨hb.ready.sound.queued proper (by simp [left]), hb.ready.loyal⟩
      have hidle : { b with queue }.Sustained p :=
        ⟨hready, hb.shallow, fun hf => ⟨(hb.tended hf).shown, (hb.tended hf).attended.idle none_⟩⟩
      have htighten : BranchM.Settles p p.Solves (fun _ => False) (BranchM.tighten p)
          { b with queue } _ := BranchM.does_tighten hg (fun _ ht => ht) hready hf
      obtain ⟨hstep, hq⟩ := htighten.ok done
      refine ⟨hstep.advance.sustained hidle, hstep.moves.proceeds.admissible_iff, fun ha hfc => ?_⟩
      rcases hq with ⟨he, -⟩ | ⟨-, hsame⟩
      · cases ha.symm.trans he
      · obtain ⟨rfl, hsized⟩ := hsame hfc
        exact ⟨left, hsized⟩

-- What propagation comes to, in whatever order.
theorem Propagates.spec (hg : p.grammar.Regular) (h : Propagates p b c) (hb : b.Sustained p) :
    c.Sustained p ∧ (∀ t, p.Admissible c t ↔ p.Admissible b t) ∧
      (c.feasible = true → c.queue.pending = [] ∧ p.Sized c.tree) := by
  induction h with
  | failed hf => exact ⟨hb, fun _ => Iff.rfl, fun hf' => absurd (hf.symm.trans hf') nofun⟩
  | next hf served done _ ih =>
      obtain ⟨hc, hsame⟩ := hb.next hg hf served done
      obtain ⟨hd, hsame', hsettled⟩ := ih hc
      exact ⟨hd, fun t => (hsame' t).trans (hsame t), hsettled⟩
  | again hf served done _ ih =>
      obtain ⟨hc, hsame, -⟩ := hb.tighten hg hf served done
      obtain ⟨hd, hsame', hsettled⟩ := ih hc
      exact ⟨hd, fun t => (hsame' t).trans (hsame t), hsettled⟩
  | settled hf served done =>
      obtain ⟨hc, hsame, hsettled⟩ := hb.tighten hg hf served done
      exact ⟨hc, hsame, hsettled rfl⟩

-- First in, first out is one of the orders.
theorem propagates_of_fixPoint (hg : p.grammar.Regular) {fuel : Nat} {feasible : Bool}
    (hb : b.Sustained p) (done : (BranchM.fixPoint p fuel).run b = .ok feasible c) :
    Propagates p b c ∧ feasible = c.feasible := by
  induction fuel generalizing b with
  | zero => cases done
  | succ fuel ih =>
      unfold BranchM.fixPoint at done
      obtain ⟨_, _, hasked, done⟩ := BranchM.run_bind_eq_ok.mp done
      cases hasked
      cases hf : b.feasible with
      | false =>
          rw [hf] at done
          cases done
          exact ⟨.failed hf, hf.symm⟩
      | true =>
          rw [hf] at done
          obtain ⟨next, _, hpopped, done⟩ := BranchM.run_bind_eq_ok.mp done
          have hpop : BranchM.pop.run b = .ok b.queue.pop.1 b.popped := rfl
          obtain ⟨rfl, rfl⟩ := EStateM.Result.ok.inj (hpop.symm.trans hpopped)
          have hserved := hb.ready.sound.queue.serves_pop
          cases hnext : b.queue.pop.1 with
          | some w =>
              rw [hnext] at hserved done
              obtain ⟨_, m, hqueued, done⟩ := BranchM.run_bind_eq_ok.mp done
              obtain ⟨hrest, he⟩ := ih (hb.next hg hf hserved hqueued).1 done
              exact ⟨.next hf hserved hqueued hrest, he⟩
          | none =>
              rw [hnext] at hserved done
              obtain ⟨again, m, htightened, done⟩ := BranchM.run_bind_eq_ok.mp done
              cases again with
              | true =>
                  obtain ⟨hrest, he⟩ := ih (hb.tighten hg hf hserved htightened).1 done
                  exact ⟨.again hf hserved htightened hrest, he⟩
              | false =>
                  cases done
                  exact ⟨.settled hf hserved htightened, rfl⟩

-- Two runs of propagation that differ in the order admit the same trees. If one of them ends with
-- a complete tree, the other does not fail, and cannot end with another complete tree.
theorem Reached.orders_agree (hg : p.grammar.Reachable) {category : String} (h : b.Reached p category)
    (hc : Propagates p b c) (hd : Propagates p b d) :
    (∀ t, p.Admissible c t ↔ p.Admissible d t) ∧
      (c.feasible = true → c.tree.Complete →
        d.feasible = true ∧ c.tree.Refines d.tree ∧ (d.tree.Complete → d.tree = c.tree)) := by
  have hb := h.sustained hg.regular
  obtain ⟨hcs, hsame, hsettled⟩ := hc.spec hg.regular hb
  obtain ⟨-, hsame', -⟩ := hd.spec hg.regular hb
  have hagree (t : Tree) := (hsame t).trans (hsame' t).symm
  refine ⟨hagree, fun hf hcomplete => ?_⟩
  obtain ⟨hidle, hsized⟩ := hsettled hf
  have hsolves := (hcs.tended hf).solves hcs.ready.sound hcs.shallow hidle hsized hcomplete
  obtain ⟨-, hfd, hrefines⟩ :=
    Problem.admissible_iff.mp ((hagree c.tree).mp (Problem.admissible_iff.mpr ⟨hsolves, hf, .refl _⟩))
  exact ⟨hfd, hrefines, fun hdone => (hdone.eq_of_refines hrefines).symm⟩

end Branch

section Middle

-- Three places. The last one has to equal the first, and it has to equal the one in the middle.
def Constraint.outer : Constraint := .containsSubtree (.node 3 [.var "x", .var "y", .var "x"])

def Constraint.inner : Constraint := .containsSubtree (.node 3 [.var "y", .var "x", .var "x"])

def Grammar.triple : Grammar :=
  ⟨[⟨0, "A", [], none, none, false⟩, ⟨1, "V", ["A"], none, none, false⟩,
      ⟨2, "V", [], none, none, false⟩, ⟨3, "S", ["V", "V", "V"], none, none, false⟩],
    ["A", "V", "S"], [.outer, .inner], 6⟩

theorem Grammar.reachable_triple : Grammar.triple.Reachable := by
  let leaf : Rule := ⟨0, "A", [], none, none, false⟩
  let bud : Rule := ⟨1, "V", ["A"], none, none, false⟩
  let bare : Rule := ⟨2, "V", [], none, none, false⟩
  let root : Rule := ⟨3, "S", ["V", "V", "V"], none, none, false⟩
  have hleaf : empty.add "A" [] none none = .ok (⟨[leaf], ["A"], [], 1⟩, 0) := rfl
  have hbud : (⟨[leaf], ["A"], [], 1⟩ : Grammar).add "V" ["A"] none none =
      .ok (⟨[leaf, bud], ["A", "V"], [], 2⟩, 1) := rfl
  have hbare : (⟨[leaf, bud], ["A", "V"], [], 2⟩ : Grammar).add "V" [] none none =
      .ok (⟨[leaf, bud, bare], ["A", "V"], [], 3⟩, 2) := rfl
  have hroot : (⟨[leaf, bud, bare], ["A", "V"], [], 3⟩ : Grammar).add "S" ["V", "V", "V"] none none =
      .ok (⟨[leaf, bud, bare, root], ["A", "V", "S"], [], 4⟩, 3) := rfl
  have houter : (⟨[leaf, bud, bare, root], ["A", "V", "S"], [], 4⟩ : Grammar).attach .outer =
      .ok (⟨[leaf, bud, bare, root], ["A", "V", "S"], [.outer], 5⟩, true) := rfl
  have hinner : (⟨[leaf, bud, bare, root], ["A", "V", "S"], [.outer], 5⟩ : Grammar).attach .inner =
      .ok (triple, true) := rfl
  exact .attach (.attach (.add (.add (.add (.add .empty hleaf) hbud) hbare) hroot) houter) hinner

def Problem.triple : Problem :=
  .of .triple ⟨some 3, none, Bounds.one_le_three, Bounds.none.one_le_size⟩

-- A place with nothing decided, one that still lacks the only leaf there is, and one that has it.
def Tree.unknown : Tree := .hole "V" (.ofList [1, 2])

def Tree.budding : Tree := .node 1 [.hole "A" {0}]

def Tree.grown : Tree := .node 1 [.node 0 []]

def Watch.outer : Watch := ⟨[], .outer⟩

def Watch.inner : Watch := ⟨[], .inner⟩

-- What has to occur somewhere is only watched at the root.
def Announcement.atRoot (c : Constraint) (path : Path) : Announcement :=
  ⟨c, path, if path.isEmpty then some ⟨path, c⟩ else none⟩

-- A branch with three places, in which both constraints have been shown some paths and wait.
def Branch.triple (first second third : Tree) (paths : List Path) (fills narrowings : Nat) :
    Branch :=
  { Branch.of (.node 3 [first, second, third]) with
    active := ⟨[.outer, .inner]⟩
    queue := ⟨[.outer, .inner], [.outer, .inner]⟩
    statistics := ⟨fills, narrowings, 2, 0, 0⟩
    log := paths.flatMap fun path => [.atRoot .inner path, .atRoot .outer path] }

def Branch.tripleRoot : Branch :=
  { Branch.of (.hole "S" {3}) with
    active := ⟨[.outer, .inner]⟩
    statistics := ⟨0, 0, 2, 0, 0⟩
    log := [.atRoot .inner [], .atRoot .outer []] }

def Branch.tripleOpen : Branch :=
  .triple .grown .budding .unknown [[1, 0], [0, 0], [2], [1], [0], []] 4 2

-- When the outer places are made equal first, the last one has its leaf with the first. The
-- constraint on the inner ones then has nothing left to do, for their leaf is the only one.
def Branch.tripleOuter : Branch :=
  { Branch.triple .grown .budding .grown [[2, 0], [1, 0], [0, 0], [2], [1], [0], []] 6 3 with
    active := .empty
    retired := ⟨[.inner, .outer]⟩
    queue := .empty
    classes := ⟨[[[0, 0], [2, 0]], [[0], [2]]]⟩
    statistics := ⟨6, 3, 2, 3, 0⟩ }

-- The same the other way round, when the last one lacks its leaf with the one in the middle.
def Branch.tripleNext : Branch :=
  { Branch.triple .grown .budding .budding [[2, 0], [1, 0], [0, 0], [2], [1], [0], []] 5 3 with
    classes := ⟨[[[1, 0], [2, 0]], [[1], [2]]]⟩
    statistics := ⟨5, 3, 2, 1, 0⟩ }

def Branch.tripleInner : Branch :=
  { Branch.tripleNext with
    active := .empty
    retired := ⟨[.outer, .inner]⟩
    queue := .empty
    statistics := ⟨5, 3, 2, 3, 0⟩ }

theorem reached_triple : Branch.Reached .triple "S" .tripleOpen := by
  have hstart : Branch.start .triple 4 (.hole "S" {3}) = .ok .tripleRoot := by
    decide +kernel
  have hroot : (BranchM.fill .triple 4 [] (3 : Nat)).run .tripleRoot =
      .ok () (.triple .unknown .unknown .unknown [[2], [1], [0], []] 1 0) := by
    decide +kernel
  have hfirst : (BranchM.fill .triple 4 [0] (1 : Nat)).run
        (.triple .unknown .unknown .unknown [[2], [1], [0], []] 1 0) =
      .ok () (.triple .budding .unknown .unknown [[0, 0], [2], [1], [0], []] 2 1) := by
    decide +kernel
  have hleaf : (BranchM.fill .triple 4 [0, 0] (0 : Nat)).run
        (.triple .budding .unknown .unknown [[0, 0], [2], [1], [0], []] 2 1) =
      .ok () (.triple .grown .unknown .unknown [[0, 0], [2], [1], [0], []] 3 1) := by
    decide +kernel
  have hsecond : (BranchM.fill .triple 4 [1] (1 : Nat)).run
        (.triple .grown .unknown .unknown [[0, 0], [2], [1], [0], []] 3 1) = .ok () .tripleOpen := by
    decide +kernel
  exact .fill (.fill (.fill (.fill (.start hstart) rfl (by decide) hroot) rfl (by decide) hfirst)
    rfl (by decide) hleaf) rfl (by decide) hsecond

theorem propagates_outer : Branch.Propagates .triple .tripleOpen .tripleOuter := by
  have hrun : (BranchM.fixPoint .triple 4).run .tripleOpen = .ok true .tripleOuter := by
    decide +kernel
  have hg := Grammar.reachable_triple.regular
  exact (Branch.propagates_of_fixPoint hg (reached_triple.sustained hg) hrun).1

theorem propagates_inner : Branch.Propagates .triple .tripleOpen .tripleInner := by
  have hserved : Branch.tripleOpen.queue.Serves (some .inner) ⟨[.outer], [.outer]⟩ :=
    .item (by decide) (.refl _) ⟨by decide, by decide⟩
  have hstep : (BranchM.propagateQueued .triple 4 .inner).run
      { Branch.tripleOpen with queue := ⟨[.outer], [.outer]⟩ } = .ok () .tripleNext := by
    decide +kernel
  have hrun : (BranchM.fixPoint .triple 4).run .tripleNext = .ok true .tripleInner := by
    decide +kernel
  have hg := Grammar.reachable_triple.regular
  have hnext := ((reached_triple.sustained hg).next hg rfl hserved hstep).1
  exact .next rfl hserved hstep (Branch.propagates_of_fixPoint hg hnext hrun).1

theorem orders_agree_triple : Branch.Reached .triple "S" .tripleOpen ∧
    Branch.Propagates .triple .tripleOpen .tripleOuter ∧
    Branch.Propagates .triple .tripleOpen .tripleInner ∧
    Branch.tripleOuter.tree ≠ Branch.tripleInner.tree ∧
    ∀ t, Problem.triple.Admissible .tripleOuter t ↔ Problem.triple.Admissible .tripleInner t :=
  ⟨reached_triple, propagates_outer, propagates_inner, by decide,
    (reached_triple.orders_agree Grammar.reachable_triple propagates_outer propagates_inner).1⟩

end Middle

end TreeSearch
