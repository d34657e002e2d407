import TreeSearch.Proofs.Branch.OccursCheck

namespace TreeSearch

variable {p : Problem} {b c : Branch} {rule : Nat} {first second : Path}

theorem Tree.Replaced.takes {old new t u : Tree} {path : Path} (h : Tree.Replaced old new path t u)
    (hold : ∀ q s, t.get? q = some s → s.Takes rule)
    (hnew : ∀ q s, new.get? q = some s → s.Takes rule) :
    ∀ q s, u.get? q = some s → s.Takes rule := by
  intro q s hs
  by_cases hbelow : path <+: q
  · obtain ⟨rest, rfl⟩ := hbelow
    rw [Tree.get?_append_of_get? h.get?_new] at hs
    exact hnew rest s hs
  · by_cases habove : q <+: path
    · obtain ⟨rest, rfl⟩ := habove
      obtain ⟨r, cs, ds, ht, hu, -⟩ := h.get?_above rfl fun he => hbelow (by simp [he])
      obtain rfl := Option.some.inj (hu.symm.trans hs)
      exact hold q (.node r cs) ht
    · rw [h.get?_other hbelow habove] at hs
      exact hold q s hs

-- No constraint watches the tree, and a node of the rule opens children that may take it again.
structure Problem.Recurs (p : Problem) (rule : Nat) : Prop where
  constraints : p.grammar.constraints = []
  opens : ∀ path, ∃ production holes, p.grammar.rule? rule = some production ∧
    p.grammar.openChildren (p.shallowRules path) production.children = .ok (some holes) ∧
      ∀ hole ∈ holes, ∃ category rules, hole = .hole category rules ∧ rule ∈ rules

structure Branch.Thrives (rule : Nat) (b : Branch) : Prop where
  feasible : b.feasible = true
  takes : ∀ path s, b.tree.get? path = some s → s.Takes rule

namespace BranchM

variable {unifying : Bool} {path : Path}

theorem thrives_edit {old new : Tree} {count : Statistics → Statistics} (hb : b.Thrives rule)
    (hs : b.tree.get? path = some old) (hnew : ∀ q s, new.get? q = some s → s.Takes rule) :
    (edit unifying path new count).Meets b (fun _ c => c.Thrives rule) fun _ _ => True := by
  refine meets_edit hs fun tree statistics replaced => ⟨?_, ?_⟩
  · rw [Branch.notify_feasible]
    exact hb.feasible
  · rw [Branch.notify_tree]
    exact replaced.takes hb.takes hnew

theorem thrives_narrowOne {mask : Mask} (hmask : rule ∈ mask) (path : Path) :
    Preserves (Branch.Thrives rule) (fun _ => True) (narrowOne unifying mask path) := by
  intro b hb
  unfold narrowOne
  refine meets_nodeAt_bind (fun _ => trivial) fun s hs => ?_
  have htakes := hb.takes path s hs
  cases s with
  | node r cs =>
      obtain rfl : r = rule := htakes
      simp only
      rw [meets_bind, meets_attempt (Mask.has_natCast mask rule), decide_eq_true hmask]
      exact hb
  | hole category rules =>
      have hkept : rule ∈ rules.restrict mask := (Domain.mem_restrict rule rules mask).mpr ⟨htakes, hmask⟩
      have hopen : (rules.restrict mask).isEmpty = false := (Domain.isEmpty_eq_false_iff _).mpr ⟨rule, hkept⟩
      simp only
      split
      · exact hb
      · rw [hopen, if_neg Bool.false_ne_true]
        refine thrives_edit hb hs fun q s hq => ?_
        obtain ⟨-, rfl⟩ := Tree.get?_hole_eq_some hq
        exact hkept
  | choice => exact hb
  | var => exact hb

theorem thrives_narrow {mask : Mask} (hmask : rule ∈ mask) (path : Path) :
    Preserves (Branch.Thrives rule) (fun _ => True) (narrow unifying path mask) :=
  .bind (.nodeAt (fun _ => trivial) path) fun _ => .bind .get fun _ =>
    .forM fun member _ => .whenFeasible (thrives_narrowOne hmask member)

-- The filled positions agree on the rule, and the open ones have it in common.
theorem thrives_sync {fill : Filler}
    (hfill : ∀ path, Preserves (Branch.Thrives rule) (fun _ => True) (fill unifying path rule)) (path : Path) :
    Preserves (Branch.Thrives rule) (fun _ => True) (sync fill unifying path) := by
  intro b hb
  unfold sync
  rw [meets_bind, meets_get]
  simp only
  split
  · exact hb
  · rw [meets_bind]
    cases htrees : (b.classes.members path).mapM b.tree.get with
    | error fault => exact (meets_attempt_error rfl).mpr trivial
    | ok trees =>
        rw [meets_attempt rfl]
        have htakes (s : Tree) (hs : s ∈ trees) : s.Takes rule := by
          obtain ⟨member, -, hmember⟩ := exists_of_forall₂ (Except.mapM_eq_ok.mp htrees).flip hs
          exact hb.takes member s (Tree.get_eq_ok_iff.mp hmember)
        have hfilled (r : Int) (hr : r ∈ filledRules trees) : r = rule := by
          obtain ⟨cs, hcs⟩ := mem_filledRules.mp hr
          exact htakes _ hcs
        split
        · refine thrives_narrow (mem_commonRules fun s hs d hd => ?_) path b hb
          have hs := htakes s hs
          cases s with
          | node | var => cases hd
          | hole | choice =>
              obtain rfl := Option.some.inj hd
              exact hs
        · rename_i r hone
          obtain rfl := hfilled r (hone ▸ List.mem_singleton_self r)
          rw [meets_bind, meets_attempt (a := rule) (by simp [bitOf])]
          exact Preserves.bind (thrives_narrow ((Domain.mem_singleton rule rule).mpr rfl) path)
            (fun _ => .whenFeasible (hfill path)) b hb
        · rename_i hnil hone
          obtain ⟨r, q, hr, hq, hne⟩ := exists_ne_of_filledRules hnil hone
          exact absurd ((hfilled r hr).trans (hfilled q hq).symm) hne

theorem thrives_fillOne (hg : p.grammar.Regular) {s : Tree} (hp : p.Recurs rule) (hb : b.Thrives rule)
    (hs : b.tree.get? path = some s) :
    (fillOne p unifying rule path).Meets b (fun _ c => c.Thrives rule) fun _ _ => True := by
  obtain ⟨production, holes, hr, hopen, hholes⟩ := hp.opens (path ++ [0])
  unfold fillOne
  refine meets_reckon_bind (Problem.shallow_reckons hg _) (fun _ => trivial) ?_
  rw [meets_bind, meets_attempt (Grammar.rule_eq_ok hr), meets_bind, meets_attempt hopen]
  simp only
  rw [meets_bind]
  refine (thrives_edit hb hs fun q s hq => ?_).mono (fun _ c hc => hc) fun _ _ hh => hh
  cases q with
  | nil =>
      obtain rfl := Option.some.inj hq
      rfl
  | cons i q =>
      rw [Tree.get?_cons] at hq
      obtain ⟨v, hv, hvs⟩ := Option.bind_eq_some_iff.mp hq
      obtain ⟨n, -, hn⟩ := Tree.child?_eq_some.mp hv
      obtain ⟨category, rules, rfl, hrule⟩ := hholes v (List.mem_of_getElem? hn)
      obtain ⟨-, rfl⟩ := Tree.get?_hole_eq_some hvs
      exact hrule

theorem thrives_fillMember (hg : p.grammar.Regular) (hp : p.Recurs rule) (path : Path) :
    Preserves (Branch.Thrives rule) (fun _ => True) (fillMember p unifying rule path) := by
  intro b hb
  unfold fillMember
  refine meets_nodeAt_bind (fun _ => trivial) fun s hs => ?_
  have htakes := hb.takes path s hs
  have hfill (hmem : rule ∈ s.domain?.getD ∅) :
      (if rule ∈ s.domain?.getD ∅ then fillOne p unifying rule path
        else fail >>= fun _ => pure []).Meets b (fun _ c => c.Thrives rule) fun _ _ => True := by
    rw [if_pos hmem]
    exact thrives_fillOne hg hp hb hs
  cases s with
  | node r cs =>
      obtain rfl : r = rule := htakes
      simp only [ne_eq, not_true_eq_false, if_false]
      exact hb
  | hole | choice | var => exact hfill htakes

theorem thrives_fillMembers (hg : p.grammar.Regular) (hp : p.Recurs rule) (members : List Path) :
    Preserves (Branch.Thrives rule) (fun _ => True) (fillMembers p unifying rule members) := by
  induction members with
  | nil => exact .pure _
  | cons member rest ih =>
      refine .bind (thrives_fillMember hg hp member) fun opened => .bind .isFeasible fun feasible => ?_
      split
      · exact .bind ih fun _ => .pure _
      · exact .pure _

theorem thrives_joinChildren {fill : Filler}
    (hfill : ∀ path, Preserves (Branch.Thrives rule) (fun _ => True) (fill unifying path rule))
    (members : List Path) (arity : Nat) :
    Preserves (Branch.Thrives rule) (fun _ => True) (joinChildren fill unifying members arity) := by
  cases members with
  | nil => exact .pure _
  | cons anchor others =>
      refine .forM fun index _ => .whenFeasible (.bind (.modify fun b hb => ?_) fun _ => ?_)
      · exact ⟨hb.feasible, hb.takes⟩
      · exact thrives_sync hfill _

theorem thrives_fillClass (hg : p.grammar.Regular) (hp : p.Recurs rule) (steps : Nat) (path : Path) :
    Preserves (Branch.Thrives rule) (fun _ => True) (fillClass p steps unifying path rule) := by
  induction steps generalizing path with
  | zero => exact fun _ _ => trivial
  | succ steps ih =>
      have hannounce (opened : List Path) : Preserves (Branch.Thrives rule) (fun _ => True)
          (opened.forM fun path => whenFeasible (announce p (fillClass p steps) unifying path)) := by
        refine .forM fun path _ => .whenFeasible ?_
        unfold announce
        rw [hp.constraints]
        exact .pure _
      unfold fillClass
      refine .bind .get fun b => .bind (thrives_fillMembers hg hp _) fun opened => .whenFeasible ?_
      split
      · exact .bind (.attempt (fun _ => trivial) _) fun arity =>
          .bind (thrives_joinChildren ih _ arity) fun _ => hannounce opened
      · exact hannounce opened

theorem thrives_equate (hg : p.grammar.Regular) (hp : p.Recurs rule) (steps : Nat) (hapart : ¬ first <+: second)
    (hapart' : ¬ second <+: first) :
    Preserves (Branch.Thrives rule) (fun _ => True) (equate (fillClass p steps) first second) := by
  refine .bind (.nodeAt (fun _ => trivial) _) fun _ => .bind (.nodeAt (fun _ => trivial) _) fun _ =>
    .bind .isFeasible fun feasible => ?_
  split
  · exact .pure _
  · rw [if_neg (by simp [hapart, hapart'])]
    refine .bind (.modify fun b hb => ⟨hb.feasible, hb.takes⟩) fun _ => ?_
    exact thrives_sync (thrives_fillClass hg hp steps) first

end BranchM

-- No number of steps is enough for a cycle that the two positions do not show.
theorem Branch.Balanced.equate_endless (hg : p.grammar.Regular) (hb : b.Balanced p ∅)
    (hp : p.Recurs rule) (hthrives : b.Thrives rule) (hfirst : ∃ s, b.tree.get? first = some s)
    (hsecond : ∃ s, b.tree.get? second = some s) (hapart : ¬ first <+: second)
    (hapart' : ¬ second <+: first) (hrange : p.InRange) (hcycle : b.Cyclic first second) (steps : Nat) :
    ∃ c, (BranchM.equate (BranchM.fillClass p steps) first second).run b = .error .outOfFuel c := by
  rcases hb.equate_outcome hg hfirst hsecond steps with ⟨c, hrun, hfailed⟩ | hendless | ⟨hno, -⟩
  case inr.inl => exact hendless
  case inr.inr => exact absurd hrange hno
  have hc := (BranchM.thrives_equate hg hp steps hapart hapart' b hthrives).ok hrun
  exact absurd (hc.feasible.symm.trans (hfailed hcycle)) nofun

section Twins

theorem recurs_twins : Problem.twins.Recurs 1 := by
  refine ⟨rfl, fun path => ?_⟩
  have hall : Problem.twins.shallowRules path = .ofList [0, 1] := rfl
  rw [hall]
  refine ⟨_, _, rfl, rfl, fun hole hh => ⟨"S", .ofList [0, 1], ?_, by decide⟩⟩
  rcases List.mem_cons.mp hh with rfl | hh
  · rfl
  · rw [List.mem_singleton.mp hh]
    rfl

-- Two forks, one of which has been made equal to a child of the other.
def Branch.twinsNested : Branch :=
  let fork : Tree := .twins (.hole "S" (.ofList [0, 1]))
  { Branch.of (.node 1 [fork, .node 1 [fork, .hole "S" (.ofList [0, 1])]]) with
    classes := ⟨[[[0, 1], [1, 0, 1]], [[0, 0], [1, 0, 0]], [[0], [1, 0]]]⟩
    statistics := ⟨1, 1, 0, 0, 0⟩ }

theorem commanded_twinsNested : Branch.Commanded .twins
    (.twins (.twins (.hole "S" (.ofList [0, 1])))) .twinsNested := by
  have hstart : Branch.start .twins 2 (.twins (.twins (.hole "S" (.ofList [0, 1])))) =
      .ok (.of (.twins (.twins (.hole "S" (.ofList [0, 1]))))) := rfl
  have hequate : ((Command.request (.equate [0] [1, 0])).work .twins 3).run
      (.of (.twins (.twins (.hole "S" (.ofList [0, 1]))))) = .ok () .twinsNested := by
    decide +kernel
  exact .command _ (.start (by decide) hstart) hequate

theorem cyclic_twins : Branch.twinsNested.Cyclic [1] [0, 0] := by
  have hrecorded : Congruent (Branch.twinsNested.Equated [1] [0, 0]) [0] ([1] ++ [0]) :=
    .joined (Or.inl rfl)
  have hnew : Congruent (Branch.twinsNested.Equated [1] [0, 0]) [1] [0, 0] :=
    .joined (Or.inr ⟨rfl, rfl⟩)
  exact ⟨[0], [0, 0], ⟨_, rfl⟩, by simp, hrecorded.trans (hnew.child 0)⟩

-- Making the other fork equal to a child of the first one closes a circle.
theorem equate_endless_twins (steps : Nat) : ∃ c,
    (BranchM.equate (BranchM.fillClass .twins steps) [1] [0, 0]).run .twinsNested =
      .error .outOfFuel c := by
  have hg := Grammar.reachable_twins.regular
  have htakes : ∀ x ∈ Branch.twinsNested.tree.positions [], x.2.Takes 1 := by decide
  have hthrives : Branch.twinsNested.Thrives 1 :=
    ⟨rfl, fun path s hs => htakes (path, s) ((Tree.mem_positions_nil _ path s).mpr hs)⟩
  exact (commanded_twinsNested.spec hg).1.equate_endless hg recurs_twins hthrives ⟨_, rfl⟩ ⟨_, rfl⟩
    (by decide) (by decide) Problem.inRange_twins cyclic_twins steps

end Twins

end TreeSearch
