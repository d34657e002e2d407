import TreeSearch.Proofs.Branch.Lasting

namespace TreeSearch

variable {p : Problem} {a b c : Branch} {root : Tree}

-- The smallest completion of a tree is within the limit, and where there are limits, every rule of
-- every open position fits them.
structure Problem.Tight (p : Problem) (t : Tree) : Prop where
  sized : p.Sized t
  fitting : p.bounds.maxSize ≠ none ∨ p.bounds.maxDepth ≠ none → ∀ path category d,
    t.get? path = some (.hole category d) →
      ∀ r ∈ d, r ∈ p.fittingRules (p.leastSize t) path (p.grammar.analysis.leastSize d)

namespace BranchM

-- Whatever the limits strike on the way, they call for another round, or the branch fails. So in
-- the last round they find that every rule fits.
theorem meets_tightenHoles (hg : p.grammar.Regular) {total : Cost} {holes : List (Path × Cost)}
    {changed : Bool} :
    (tightenHoles p total holes changed).Meets b
      (fun again c => again = false → c.feasible = true → changed = false ∧ c = b ∧
        ∀ x ∈ holes, ∀ category d, b.tree.get? x.1 = some (.hole category d) →
          ∀ r ∈ d, r ∈ p.fittingRules total x.1 x.2) fun _ _ => True := by
  induction holes generalizing b changed with
  | nil => exact fun hagain _ => ⟨hagain, rfl, by simp⟩
  | cons x holes ih =>
      unfold tightenHoles
      refine .reckon_bind (fun fitting hfitting => ?_) fun _ _ => trivial
      obtain rfl := Problem.fitting_eq_ok hg hfitting
      refine meets_nodeAt_bind (fun _ => trivial) fun s hs => ?_
      split
      · rename_i category rules
        split
        · rename_i hempty
          refine ih.mono (fun again c hc hagain hf => ?_) fun _ _ hh => hh
          obtain ⟨hchanged, rfl, hrest⟩ := hc hagain hf
          refine ⟨hchanged, rfl, fun y hy category' d hd => ?_⟩
          rcases List.mem_cons.mp hy with rfl | hy
          · obtain ⟨-, rfl⟩ := Tree.hole.inj (Option.some.inj (hs.symm.trans hd))
            exact (Domain.isEmpty_sdiff _ _).mp hempty
          · exact hrest y hy category' d hd
        · rw [meets_bind]
          refine (Meets.anyhow _).mono (fun _ c _ => ?_) fun _ _ hh => hh
          rw [meets_bind, meets_isFeasible]
          split
          · exact ih.mono (fun again d hd hagain hf => absurd (hd hagain hf).1 nofun) fun _ _ hh => hh
          · rename_i hf
            exact fun _ hf' => absurd hf' hf
      · rename_i hopen
        refine ih.mono (fun again c hc hagain hf => ?_) fun _ _ hh => hh
        obtain ⟨hchanged, rfl, hrest⟩ := hc hagain hf
        refine ⟨hchanged, rfl, fun y hy category d hd => ?_⟩
        rcases List.mem_cons.mp hy with rfl | hy
        · exact absurd (Option.some.inj (hs.symm.trans hd)) (hopen category d)
        · exact hrest y hy category d hd

theorem meets_tighten (hg : p.grammar.Regular) : (tighten p).Meets b
    (fun again c => again = false → c.feasible = true → c = b ∧ p.Tight c.tree) fun _ _ => True := by
  unfold tighten
  split
  · rename_i hnone
    have hsize := Option.isNone_iff_eq_none.mp hnone.1
    have hdepth := Option.isNone_iff_eq_none.mp hnone.2
    exact fun _ _ => ⟨rfl, by simp [Problem.Sized, hsize], fun hlimit => by simp [hsize, hdepth] at hlimit⟩
  · rw [meets_bind, meets_get]
    refine meets_reckon_bind (Problem.measured_reckons hg) (fun _ => trivial) ?_
    refine meets_reckon_bind (Problem.measure_reckons hg b.tree) (fun _ => trivial) ?_
    split
    · rw [meets_bind, meets_fail]
      exact fun _ hf => nomatch hf
    · rename_i hsized
      refine (meets_tightenHoles hg).mono (fun again c hc hagain hf => ?_) fun _ _ hh => hh
      obtain ⟨-, rfl, hfitting⟩ := hc hagain hf
      refine ⟨rfl, ?_, fun _ path category d hd => ?_⟩
      · by_contra hno
        exact hsized ((any_not_within_iff c.tree).mpr hno)
      · exact hfitting (path, p.grammar.analysis.leastSize d)
          (List.mem_map.mpr ⟨_, (Tree.mem_holes c.tree path category d).mpr hd, rfl⟩) category d hd

-- When propagation ends well, the line is empty, and the limits leave the tree as it is, whichever
-- constraints have acted.
theorem meets_fixPoint_tight (hg : p.grammar.Regular) (steps : Nat) : (fixPoint p steps).Meets b
    (fun feasible c => feasible = true → c.queue.line = [] ∧ p.Tight c.tree) fun _ _ => True := by
  induction steps generalizing b with
  | zero => trivial
  | succ steps ih =>
      unfold fixPoint
      rw [meets_bind, meets_isFeasible]
      split
      · exact fun h => Bool.noConfusion h
      · rw [meets_bind, meets_pop]
        split
        · rw [meets_bind]
          exact (Meets.anyhow _).mono (fun _ _ _ => ih) fun _ _ hh => hh
        · rename_i hnone
          rw [meets_bind]
          refine (meets_tighten hg).mono (fun again c hc => ?_) fun _ _ hh => hh
          cases again with
          | true => exact ih
          | false =>
              intro hf
              obtain ⟨rfl, htight⟩ := hc rfl hf
              exact ⟨Worklist.line_pop_of_eq_none hnone, htight⟩

theorem meets_fixPoint (hg : p.grammar.Regular) (steps : Nat) : (fixPoint p steps).Meets b
    (fun feasible c => feasible = true → c.queue.line = [] ∧ p.Sized c.tree) fun _ _ => True :=
  (meets_fixPoint_tight hg steps).mono (fun _ _ h hf => (h hf).imp_right (·.sized)) fun _ _ hh => hh

end BranchM

section Depth

variable {path : Path} {old new t u : Tree}

-- Beyond the depth limit a tree has no positions but those of a first one.
def Problem.Rooted (p : Problem) (root t : Tree) : Prop :=
  ∀ limit ∈ p.bounds.maxDepth, ∀ path s, t.get? path = some s → limit ≤ path.length →
    ∃ v, root.get? path = some v

theorem Edit.rooted (h : Edit p path old new) (hr : Tree.Replaced old new path t u)
    (ht : p.Rooted root t) : p.Rooted root u := by
  intro limit hl q s hs hlong
  rcases hr.get?_of_new hs with ⟨v, hv⟩ | ⟨rest, rfl, hne, hnew⟩
  · exact ht limit hl q v hv hlong
  · obtain ⟨hlen, hwithin, -⟩ := h.get?_new_below hnew hne
    have hroom := hwithin limit hl
    rw [List.length_append, hlen] at hlong
    omega

theorem Problem.Rooted.depth_le_iff (h : p.Rooted root t) (hr : t.Refines root) {limit : Nat}
    (hl : limit ∈ p.bounds.maxDepth) : t.depth ≤ limit ↔ root.depth ≤ limit := by
  refine ⟨hr.depth_le.trans, fun hroot => Tree.depth_le_iff.mpr fun path s hs => ?_⟩
  by_contra hlong
  obtain ⟨v, hv⟩ := h limit hl path s hs (by omega)
  exact hlong (Tree.depth_le_iff.mp hroot path v hv)

end Depth

namespace Branch

-- A complete tree that propagation has found feasible is within the size limit. It is within the
-- depth limit if the first tree was, since what is deeper has been there from the start.
theorem Ran.complete_within_limits (hg : p.grammar.Reachable) {fuel steps : Nat} {commands : List Command}
    (start : Branch.start p fuel root = .ok a) (past : a.Ran p commands b)
    (done : (BranchM.fixPoint p steps).run b = .ok true c) (hc : c.isComplete = true) :
    (∀ limit ∈ p.bounds.maxSize, c.tree.size ≤ limit) ∧ ∀ limit ∈ p.bounds.maxDepth,
      (∀ path s, c.tree.get? path = some s → limit ≤ path.length → ∃ v, root.get? path = some v) ∧
        (c.tree.depth ≤ limit ↔ root.depth ≤ limit) := by
  let I (t : Tree) : Prop := p.Rooted root t ∧ t.Refines root
  have hedit {path : Path} {old new t u : Tree} (h : Edit p path old new)
      (hr : Tree.Replaced old new path t u) (ht : I t) : I u :=
    ⟨h.rooted hr ht.1, (hr.refines h.refines).trans ht.2⟩
  have hroot : I root := ⟨fun _ _ _ s hs _ => ⟨s, hs⟩, .refl root⟩
  have hrun : a.Ran p (commands ++ [.request .fixPoint]) c :=
    past.command (.request .fixPoint) (BranchM.run_bind_eq_ok.mpr ⟨true, c, done, rfl⟩)
  obtain ⟨hw, hrooted, hrefines⟩ := hrun.keeps hedit hg.regular
    (Branch.start_keeps hedit hg.regular start hroot)
  refine ⟨fun limit hl => ?_, fun limit hl => ⟨hrooted limit hl, hrooted.depth_le_iff hrefines hl⟩⟩
  have hcomplete := (Grammar.WellFormed.isComplete_iff hw).mp hc
  have hsized := ((BranchM.meets_fixPoint hg.regular steps).ok done rfl).2 limit hl
  rw [Problem.leastSize_of_complete hcomplete] at hsized
  simpa [Cost.within] using hsized

section Twins

-- Two levels and three nodes.
def pairBounds : Bounds := ⟨some 2, some 3, by simp, by simp⟩

def twinsWithin : Problem := .of .twins pairBounds

-- An open position, and the only pair that fits.
def twinsSeed : Branch := .of (.hole "S" (.ofList [0, 1]))

def twinsGrown : Branch :=
  { Branch.of (.twins (.node 0 [])) with statistics := ⟨3, 1, 0, 0, 0⟩ }

theorem complete_within_limits_twins :
    Branch.start twinsWithin 3 (.hole "S" (.ofList [0, 1])) = .ok twinsSeed ∧
      twinsSeed.Ran twinsWithin [.request (.fill [] 1), .request .materialize] twinsGrown ∧
        (BranchM.fixPoint twinsWithin 1).run twinsGrown = .ok true twinsGrown ∧
          twinsGrown.isComplete = true ∧ twinsGrown.tree.size ≤ 3 ∧ (twinsGrown.tree.depth ≤ 2 ↔ 1 ≤ 2) := by
  have hstart : Branch.start twinsWithin 3 (.hole "S" (.ofList [0, 1])) = .ok twinsSeed := by
    decide +kernel
  have hfill : ((Command.request (.fill [] 1)).work twinsWithin 3).run twinsSeed =
      .ok () { Branch.of (.twins (.hole "S" (.ofList [0]))) with statistics := ⟨1, 1, 0, 0, 0⟩ } := by
    decide +kernel
  have hrest : ((Command.request .materialize).work twinsWithin 3).run
      { Branch.of (.twins (.hole "S" (.ofList [0]))) with statistics := ⟨1, 1, 0, 0, 0⟩ } =
        .ok () twinsGrown := by
    decide +kernel
  have hdone : (BranchM.fixPoint twinsWithin 1).run twinsGrown = .ok true twinsGrown := by
    decide +kernel
  have hpast : twinsSeed.Ran twinsWithin [.request (.fill [] 1), .request .materialize] twinsGrown :=
    .command _ (.command _ .refl hfill) hrest
  obtain ⟨hsize, hdepth⟩ := Ran.complete_within_limits Grammar.reachable_twins hstart hpast hdone rfl
  exact ⟨hstart, hpast, hdone, rfl, hsize 3 rfl, (hdepth 2 rfl).2⟩

end Twins

end Branch

end TreeSearch
