import TreeSearch.Proofs.Branch.Hosts

namespace TreeSearch

-- The live rules within a budget are those with a tree that is.
theorem Grammar.Regular.mem_rulesWhere_within {g : Grammar} (hg : g.Regular) (m : Measure) {budget : Int}
    {r : Nat} : r ∈ g.analysis.rulesWhere (g.analysis.ruleCosts m) (Cost.within budget) ↔
      ∃ s, g.Roots r s ∧ (m.of s : Int) ≤ budget := by
  rw [hg.mem_rulesWhere, (hg.ruleCosts_isLeastOf m r).within_iff]
  refine and_iff_right_of_imp fun ⟨s, hs, _⟩ => ?_
  obtain ⟨rule, -, hrule, live, -⟩ := roots_iff.mp hs
  exact ⟨rule, hrule, live⟩

variable {p : Problem}

namespace Problem

variable {expected : Option String} {category : String} {d : Domain} {path : Path} {t : Tree} {r : Nat}

-- The rules that fit below the depth limit are those with a tree that does.
theorem mem_shallowRules_iff (hg : p.grammar.Regular) : r ∈ p.shallowRules path ↔
    ∃ s, p.grammar.Roots r s ∧ ∀ limit ∈ p.bounds.maxDepth, path.length + s.depth ≤ limit := by
  rw [shallowRules, depthBudget]
  cases hl : p.bounds.maxDepth with
  | none => simp [Analysis.withinDepth, hg.mem_producible]
  | some limit =>
      refine (hg.mem_rulesWhere_within .depth).trans (exists_congr fun s => and_congr_right fun _ => ?_)
      simp only [Option.mem_some_iff, forall_eq', Measure.of]
      omega

-- The least size of a hole is spent again on any of its rules that fits.
theorem Tight.exists_completes_at (hg : p.grammar.Regular) (hw : p.grammar.WellFormed expected t)
    (h : p.Tight t) {limit : Nat} (hl : limit ∈ p.bounds.maxSize)
    (ht : t.get? path = some (.hole category d)) (hr : r ∈ d) :
    ∃ u cs, p.Completes u t ∧ u.get? path = some (.node r cs) ∧ u.size ≤ limit := by
  have hl : p.bounds.maxSize = some limit := hl
  have hsized := h.sized limit hl
  cases htotal : p.leastSize t with
  | infinite =>
      rw [htotal] at hsized
      cases hsized
  | finite total =>
      obtain ⟨hole, hhole⟩ := exists_leastSize_eq ht htotal
      have hfits := h.fitting (Or.inl (by simp [hl])) path category d ht r hr
      unfold fittingRules at hfits
      rw [hl, htotal, hhole, Cost.known, Cost.known] at hfits
      obtain ⟨s, ⟨hs, hc, cs, rfl⟩, hsize⟩ :=
        (hg.mem_rulesWhere_within .size).mp ((Domain.mem_inter _ _ _).mp hfits).2
      obtain ⟨u, hu, hplace, hsum⟩ := exists_completes_with hg hw ht htotal hhole ⟨hs, hc, .filled hr⟩
      refine ⟨u, cs, hu, hplace, ?_⟩
      rw [Measure.of] at hsize
      omega

theorem Tight.shallow (h : p.Tight t) (hlimit : p.bounds.maxSize ≠ none ∨ p.bounds.maxDepth ≠ none)
    (ht : t.get? path = some (.hole category d)) (hr : r ∈ d) : r ∈ p.shallowRules path := by
  have hfits := h.fitting hlimit path category d ht r hr
  unfold fittingRules at hfits
  split at hfits
  · exact ((Domain.mem_inter _ _ _).mp hfits).1
  · exact hfits

-- Every rule of every open position has a tree within the depth limit.
def Roomy (p : Problem) (t : Tree) : Prop :=
  ∀ path category d, t.get? path = some (.hole category d) → ∀ r ∈ d, r ∈ p.shallowRules path

-- Where every open position at and below a path has a rule within the depth limit, there is a
-- completion within it.
theorem exists_completes_below (hg : p.grammar.Regular) (hw : p.grammar.WellFormed expected t)
    (above : Path) (hdepth : ∀ limit ∈ p.bounds.maxDepth, above.length + t.depth ≤ limit)
    (hrules : ∀ path category d, t.get? path = some (.hole category d) →
      ∃ r ∈ d, r ∈ p.shallowRules (above ++ path)) :
    ∃ u, p.Completes u t ∧ ∀ limit ∈ p.bounds.maxDepth, above.length + u.depth ≤ limit := by
  induction t using Tree.induction generalizing expected above with
  | node r cs ih =>
      obtain ⟨ds, hds⟩ := exists_forall₂ (l := cs) (R := fun c d => p.Completes d c ∧
          ∀ limit ∈ p.bounds.maxDepth, above.length + 1 + d.depth ≤ limit) fun c hc => by
        obtain ⟨i, hi⟩ := List.mem_iff_getElem?.mp hc
        obtain ⟨category, hchild⟩ := hw.child hi
        obtain ⟨d, hd, hlimit⟩ := ih c hc hchild (above ++ [(i : Int)])
          (fun limit hl => by
            have := hdepth limit hl
            have := Tree.depth_child_lt (r := r) hc
            rw [List.length_append, List.length_singleton]
            omega)
          fun path category d hd => by
            rw [List.append_assoc]
            refine hrules (i :: path) category d ?_
            rw [Tree.get?_cons, Tree.child?_node, hi]
            exact hd
        refine ⟨d, hd, fun limit hl => ?_⟩
        have := hlimit limit hl
        rwa [List.length_append, List.length_singleton] at this
      refine ⟨.node r ds, completes_node hw (hds.imp fun _ _ hcd => hcd.1), fun limit hl => ?_⟩
      have hroom := hdepth limit hl
      have hbelow : Tree.depthBelow ds ≤ limit - (above.length + 1) := by
        refine Tree.depthBelow_le fun d hd => ?_
        obtain ⟨c, -, -, hlimit⟩ := exists_of_forall₂ hds.flip hd
        have := hlimit limit hl
        omega
      rw [Tree.depth] at hroom ⊢
      omega
  | hole category d =>
      obtain ⟨r, hr, hshallow⟩ := hrules [] category d (Tree.get?_nil _)
      rw [List.append_nil, mem_shallowRules_iff hg] at hshallow
      obtain ⟨u, ⟨hu, hc, cs, rfl⟩, hlimit⟩ := hshallow
      exact ⟨_, ⟨hu, hc, .filled hr⟩, hlimit⟩
  | choice => cases hw
  | var => cases hw

-- So it has a smallest completion.
theorem Roomy.exists_leastSize (hg : p.grammar.Regular) (hw : p.grammar.WellFormed expected t)
    (h : p.Roomy t) (hdepth : ∀ limit ∈ p.bounds.maxDepth, t.depth ≤ limit)
    (hopen : ∀ path category d, t.get? path = some (.hole category d) → d.isEmpty = false) :
    ∃ n, p.leastSize t = .finite n := by
  obtain ⟨u, hu, -⟩ := exists_completes_below hg hw [] (by simpa using hdepth) fun path category d ht => by
    obtain ⟨n, hn⟩ := (Domain.isEmpty_eq_false_iff d).mp (hopen path category d ht)
    exact ⟨n, hn, h path category d ht n hn⟩
  obtain ⟨n, -, hn⟩ := leastSize_fits hg hu
  exact ⟨n, hn⟩

-- The other open positions do not matter for how deep one of them may be filled.
theorem Roomy.exists_completes_at (hg : p.grammar.Regular) (hw : p.grammar.WellFormed expected t)
    (h : p.Roomy t) (hdepth : ∀ limit ∈ p.bounds.maxDepth, t.depth ≤ limit)
    (hopen : ∀ path category d, t.get? path = some (.hole category d) → d.isEmpty = false)
    (ht : t.get? path = some (.hole category d)) (hr : r ∈ d) :
    ∃ u cs, p.Completes u t ∧ u.get? path = some (.node r cs) ∧
      ∀ limit ∈ p.bounds.maxDepth, u.depth ≤ limit := by
  obtain ⟨v, ⟨hv, hc, cs, rfl⟩, hlimit⟩ := (mem_shallowRules_iff hg).mp (h path category d ht r hr)
  have hcompletes : p.Completes (.node r cs) (.hole category d) := ⟨hv, hc, .filled hr⟩
  obtain ⟨s, -, hs⟩ := Tree.replace_of_get? ht (.node r cs)
  have hsw : p.grammar.WellFormed expected s :=
    hw.replaced hs fun _ hold => hold.of_refines hv hcompletes.refines
  have hsdepth : ∀ limit ∈ p.bounds.maxDepth, s.depth ≤ limit := by
    intro limit hl
    refine Tree.depth_le_iff.mpr fun q w hq => ?_
    rcases hs.get?_of_new hq with ⟨x, hx⟩ | ⟨rest, rfl, -, hnew⟩
    · exact Tree.depth_le_iff.mp (hdepth limit hl) q x hx
    · have := hlimit limit hl
      have := Tree.depth_le_iff.mp (Nat.le_refl _) rest w hnew
      rw [List.length_append]
      omega
  have hrules : ∀ q category d, s.get? q = some (.hole category d) →
      ∃ r ∈ d, r ∈ p.shallowRules q := by
    intro q category d hq
    have hold : t.get? q = some (.hole category d) := by
      refine (hs.get?_of_hole hq).resolve_left fun ⟨rest, _, hnew⟩ => ?_
      cases hc.get? hnew
    obtain ⟨n, hn⟩ := (Domain.isEmpty_eq_false_iff d).mp (hopen q category d hold)
    exact ⟨n, hn, h q category d hold n hn⟩
  obtain ⟨u, hu, hwithin⟩ := exists_completes_below hg hsw [] (by simpa using hsdepth) hrules
  obtain ⟨hut, hplace⟩ := hu.of_replaced hs hcompletes
  exact ⟨u, cs, hut, hplace, by simpa using hwithin⟩

end Problem

section Keeping

variable {T : Tree → Prop} {b c : Branch}

-- An edit leaves some of the rules that there were, or opens positions with rules that fit.
theorem Edit.roomy {path : Path} {old new t u : Tree} (h : Edit p path old new)
    (hr : Tree.Replaced old new path t u) (ht : p.Roomy t) : p.Roomy u := by
  intro q category d hs r hrd
  rcases h.hole_cases hr hs with hold | ⟨-, ⟨rules, hold, hsub⟩ | hshallow⟩
  · exact ht q category d hold r hrd
  · exact ht q category rules hold r (hsub r hrd)
  · exact hshallow r hrd

theorem Move.roomy (h : Move p T b c) (hb : p.Roomy b.tree) : p.Roomy c.tree := by
  cases h with
  | edit unifying statistics change replaced =>
      rw [Branch.notify_tree]
      exact change.roomy replaced hb
  | _ => exact hb

theorem Proceeds.roomy (h : Proceeds p T b c) (hb : p.Roomy b.tree) : p.Roomy c.tree := by
  induction h with
  | refl => exact hb
  | tail _ hstep ih =>
      rcases hstep with hstep | rfl
      · exact hstep.roomy ih
      · exact ih

end Keeping

namespace Branch

variable {a b c : Branch} {root : Tree}

-- When propagation ends well, whichever constraints there are and whatever has been asked of the
-- branch before, no rule is left that the size limit or the depth limit excludes on its own.
theorem Ran.fixPoint_consistent (hg : p.grammar.Reachable) {fuel steps : Nat} {commands : List Command}
    (start : Branch.start p fuel root = .ok a) (past : a.Ran p commands b)
    (done : (BranchM.fixPoint p steps).run b = .ok true c) {path : Path} {category : String} {d : Domain}
    (hole : c.tree.get? path = some (.hole category d)) {r : Nat} (hr : r ∈ d) :
    (∀ limit ∈ p.bounds.maxSize, ∃ u cs,
      p.Completes u c.tree ∧ u.get? path = some (.node r cs) ∧ u.size ≤ limit) ∧
    ∀ limit ∈ p.bounds.maxDepth, ∃ t, p.grammar.Roots r t ∧ path.length + t.depth ≤ limit := by
  have hrun : a.Ran p (commands ++ [.request .fixPoint]) c :=
    past.command (.request .fixPoint) (BranchM.run_bind_eq_ok.mpr ⟨true, c, done, rfl⟩)
  have hw := hrun.wellFormed hg.regular start
  have htight := ((BranchM.meets_fixPoint_tight hg.regular steps).ok done rfl).2
  refine ⟨fun limit hl => htight.exists_completes_at hg.regular hw hl hole hr, fun limit hl => ?_⟩
  have hne : p.bounds.maxDepth ≠ none := Option.ne_none_iff_exists'.mpr ⟨limit, hl⟩
  obtain ⟨t, ht, hdepth⟩ :=
    (Problem.mem_shallowRules_iff hg.regular).mp (htight.shallow (Or.inr hne) hole hr)
  exact ⟨t, ht, hdepth limit hl⟩

-- A pair may be no larger, so the limits strike the pair from both of its open positions.
def twinsTightened : Branch :=
  { Branch.of (.twins (.hole "S" (.ofList [0]))) with statistics := ⟨0, 2, 0, 0, 0⟩ }

theorem fixPoint_consistent_twins :
    Branch.start twinsWithin 3 (.twins (.hole "S" (.ofList [0, 1]))) = .ok twinsOpen ∧
      (BranchM.fixPoint twinsWithin 2).run twinsOpen = .ok true twinsTightened ∧
      (∃ u cs, twinsWithin.Completes u twinsTightened.tree ∧ u.get? [0] = some (.node 0 cs) ∧ u.size ≤ 3) ∧
      ∃ t, twinsWithin.grammar.Roots 0 t ∧ 1 + t.depth ≤ 2 := by
  have hstart : Branch.start twinsWithin 3 (.twins (.hole "S" (.ofList [0, 1]))) = .ok twinsOpen := by
    decide +kernel
  have hdone : (BranchM.fixPoint twinsWithin 2).run twinsOpen = .ok true twinsTightened := by
    decide +kernel
  have hhole : twinsTightened.tree.get? [0] = some (.hole "S" (.ofList [0])) := rfl
  obtain ⟨hsize, hdepth⟩ := Ran.fixPoint_consistent Grammar.reachable_twins hstart .refl hdone hhole
    ((Domain.mem_ofList [0] 0).mpr List.mem_cons_self)
  exact ⟨hstart, hdone, hsize 3 rfl, hdepth 2 rfl⟩

end Branch

end TreeSearch
