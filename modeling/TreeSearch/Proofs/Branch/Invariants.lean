import TreeSearch.Branch.Completion
import TreeSearch.Proofs.Branch.Settling

namespace TreeSearch

variable {p : Problem} {T : Tree → Prop} {b c : Branch}

-- Every open position has rules left, and none is beyond the depth limit.
structure Branch.Hopeful (p : Problem) (b : Branch) : Prop where
  rules : ∀ path category d, b.tree.get? path = some (.hole category d) → d.isEmpty = false
  shallow : ∀ limit ∈ p.bounds.maxDepth, b.tree.depth ≤ limit

-- Every position has been shown to every constraint, and no constraint is forgotten.
structure Branch.Tended (p : Problem) (b : Branch) : Prop where
  shown : ∀ k ∈ p.grammar.constraints, ∀ path s, b.tree.get? path = some s → (k, path) ∈ b.announced
  attended : Attended p (fun _ => False) b

section Hopeful

-- Below the position of an edit there are only the children that it opens.
theorem Edit.get?_new_below {path rest : Path} {old new s : Tree} (h : Edit p path old new)
    (hs : new.get? rest = some s) (hne : rest ≠ []) : rest.length = 1 ∧
      (∀ limit ∈ p.bounds.maxDepth, path.length + 1 < limit) ∧
        ∃ category d, s = .hole category d ∧ d.isEmpty = false ∧
          ∀ r : Nat, r ∈ d → r ∈ p.shallowRules (path ++ rest) := by
  cases h with
  | narrowed => exact absurd (Tree.get?_hole_eq_some hs).1 hne
  | @filled category rules n production holes mem found opened within =>
      obtain ⟨i, rest, rfl⟩ := List.exists_cons_of_ne_nil hne
      rw [Tree.get?_cons] at hs
      obtain ⟨hole, hhole, hrest⟩ := Option.bind_eq_some_iff.mp hs
      obtain ⟨m, rfl, hm⟩ := Tree.child?_eq_some.mp hhole
      have hin : hole ∈ holes := List.mem_of_getElem? hm
      obtain ⟨category, -, -, d, rfl, hd, hrules⟩ := exists_of_forall₂ opened.flip hin
      obtain ⟨rfl, rfl⟩ := Tree.get?_hole_eq_some hrest
      refine ⟨rfl, within (List.ne_nil_of_mem hin), category, d, rfl, hd, fun r hr => ?_⟩
      have hlevel : (path ++ [(m : Int)]).length = (path ++ [0]).length := by simp
      rw [Problem.shallowRules_congr hlevel]
      exact (hrules r hr).2

-- The holes of the new tree are those of the old one, or they have rules: some of those that they
-- had, or those within the depth limit.
theorem Edit.hole_cases {path q : Path} {old new t u : Tree} {category : String} {d : Domain}
    (h : Edit p path old new) (hr : Tree.Replaced old new path t u)
    (hs : u.get? q = some (.hole category d)) : t.get? q = some (.hole category d) ∨ d.isEmpty = false ∧
      ((∃ rules : Domain, t.get? q = some (.hole category rules) ∧ ∀ r : Nat, r ∈ d → r ∈ rules) ∨
        ∀ r : Nat, r ∈ d → r ∈ p.shallowRules q) := by
  rcases hr.get?_of_hole hs with ⟨rest, rfl, hnew⟩ | hold
  · refine Or.inr ?_
    by_cases hne : rest = []
    · subst hne
      obtain rfl : new = .hole category d := by simpa using hnew
      cases h with
      | @narrowed _ rules _ sub ne open_ =>
          refine ⟨open_, Or.inl ⟨rules, ?_, sub⟩⟩
          rw [List.append_nil]
          exact hr.get?_old
    · obtain ⟨-, -, _, _, he, hd, hrules⟩ := h.get?_new_below hnew hne
      obtain ⟨rfl, rfl⟩ := Tree.hole.inj he
      exact ⟨hd, Or.inr hrules⟩
  · exact Or.inl hold

theorem Edit.hole_of_replaced {path q : Path} {old new t u : Tree} {category : String} {d : Domain}
    (h : Edit p path old new) (hr : Tree.Replaced old new path t u)
    (hs : u.get? q = some (.hole category d)) :
    t.get? q = some (.hole category d) ∨ d.isEmpty = false :=
  (h.hole_cases hr hs).imp_right (·.1)

-- A branch stays within the depth limit.
theorem Move.shallow (h : Move p T b c) (hb : ∀ limit ∈ p.bounds.maxDepth, b.tree.depth ≤ limit) :
    ∀ limit ∈ p.bounds.maxDepth, c.tree.depth ≤ limit := by
  cases h with
  | @edit path old new tree unifying statistics change replaced kept =>
      intro limit hl
      rw [Branch.notify_tree]
      refine Tree.depth_le_iff.mpr fun q s hs => ?_
      rcases replaced.get?_of_new hs with ⟨v, hv⟩ | ⟨rest, rfl, hne, hnew⟩
      · exact Tree.depth_le_iff.mp (hb limit hl) q v hv
      · obtain ⟨hlen, hwithin, -⟩ := change.get?_new_below hnew hne
        have := hwithin limit hl
        rw [List.length_append, hlen]
        exact this
  | _ => exact hb

theorem Move.hopeful (h : Move p T b c) (hb : b.Hopeful p) : c.Hopeful p := by
  refine ⟨?_, h.shallow hb.shallow⟩
  cases h with
  | edit unifying statistics change replaced =>
      intro q category d hs
      rw [Branch.notify_tree] at hs
      exact (change.hole_of_replaced replaced hs).elim (hb.rules q category d) id
  | _ => exact hb.rules

theorem Proceeds.shallow (h : Proceeds p T b c) (hb : ∀ limit ∈ p.bounds.maxDepth, b.tree.depth ≤ limit) :
    ∀ limit ∈ p.bounds.maxDepth, c.tree.depth ≤ limit := by
  induction h with
  | refl => exact hb
  | tail _ hstep ih =>
      rcases hstep with hstep | rfl
      · exact hstep.shallow ih
      · exact ih

theorem Proceeds.hopeful (h : Proceeds p T b c) (hb : b.Hopeful p) : c.Hopeful p := by
  induction h with
  | refl => exact hb
  | tail _ hstep ih =>
      rcases hstep with hstep | rfl
      · exact hstep.hopeful ih
      · exact ⟨ih.rules, ih.shallow⟩

end Hopeful

section Tended

-- When all positions were shown before, they still are.
theorem Shown.all (h : Shown p (fun _ => False) b c) (hbc : Proceeds p T b c) (hf : c.feasible = true)
    (hb : ∀ k ∈ p.grammar.constraints, ∀ path s, b.tree.get? path = some s → (k, path) ∈ b.announced) :
    ∀ k ∈ p.grammar.constraints, ∀ path s, c.tree.get? path = some s → (k, path) ∈ c.announced := by
  intro k hk path s hs
  rcases h hf k hk path s hs with ⟨v, hv⟩ | ho | hn
  · exact hbc.announced (hb k hk path v hv)
  · exact ho.elim
  · exact hn

theorem Advance.tended (h : Advance p T b c) (hf : c.feasible = true) (hb : b.Tended p) : c.Tended p :=
  ⟨h.shown.all h.proceeds hf hb.shown, h.attended hf hb.attended⟩

-- A constraint says nothing about paths that lead nowhere.
theorem Constraint.holdsAt_of_get?_eq_none {u : Tree} {path : Path} (k : Constraint)
    (h : u.get? path = none) : k.HoldsAt u path := by
  have hroot (hp : path = []) : False := by simp [hp] at h
  cases k with
  | forbidden template =>
      rintro value ⟨s, hs, -⟩
      simp [h] at hs
  | ordered template names =>
      rintro value ⟨s, hs, -⟩
      simp [h] at hs
  | contains rule => exact fun hp => (hroot hp).elim
  | containsSubtree template => exact fun hp => (hroot hp).elim
  | unique rule => exact fun hp => (hroot hp).elim
  | forbiddenSequence sequence ignore =>
      intro rules hrules
      obtain ⟨r, cs, hs⟩ := Tree.rulesTo_node hrules
      simp [h] at hs
  | rootOnly rule =>
      intro cs hs
      simp [h] at hs

-- When nothing is queued, a complete tree satisfies all constraints.
theorem Branch.Tended.holds (hb : b.Tended p) (hs : b.Sound p) (hq : b.queue.pending = [])
    (hc : b.tree.Complete) {k : Constraint} (hk : k ∈ p.grammar.constraints) : k.Holds b.tree := by
  refine (k.holds_iff b.tree).mpr fun path => ?_
  cases hp : b.tree.get? path with
  | none => exact k.holdsAt_of_get?_eq_none hp
  | some s =>
      have hself : p.Completes b.tree b.tree := .refl hs.wellFormed hc
      rcases hb.attended.announced k path (hb.shown k hk path s hp) with (hw | hw) | he
      · rcases hb.attended.active _ hw with hbusy | hpending | hquiet
        · exact hbusy.elim
        · rw [hq] at hpending
          cases hpending
        · exact hquiet.2 s hp (hc.get? hp)
      · exact (hb.attended.retired _ hw).resolve_left id _ hself
      · exact he _ hself

-- The tree of a branch that has settled is a solution when it is complete.
theorem Branch.Tended.solves (hb : b.Tended p) (hs : b.Sound p)
    (hshallow : ∀ limit ∈ p.bounds.maxDepth, b.tree.depth ≤ limit) (hq : b.queue.pending = []) (hsized : p.Sized b.tree) (hc : b.tree.Complete) :
    p.Solves b.tree := by
  refine ⟨hs.wellFormed, hc, ⟨hshallow, fun limit hl => ?_⟩, fun k hk => hb.holds hs hq hc hk⟩
  have := hsized limit hl
  rw [Problem.leastSize_of_complete hc] at this
  simpa [Cost.within] using this

end Tended

section Start

variable {tree : Tree}

theorem Branch.sound_of (hw : p.grammar.WellFormed none tree) : (Branch.of tree).Sound p where
  wellFormed := hw
  classes := nofun
  united := nofun
  watched := by rintro w (hw | hw) <;> cases hw
  apart := nofun
  queue := Worklist.proper_empty
  pending := nofun

theorem Branch.ready_of (hw : p.grammar.WellFormed none tree) : (Branch.of tree).Ready p T :=
  ⟨Branch.sound_of hw, fun _ _ _ => nofun⟩

theorem Branch.attended_of : Attended p (fun _ => False) (Branch.of tree) := ⟨nofun, nofun, nofun⟩

-- The first branch loses no tree, and every position in it has been shown.
theorem does_start (hg : p.grammar.Regular) (hT : ∀ t, T t → p.Solves t) (steps : Nat)
    (hw : p.grammar.WellFormed none tree) :
    BranchM.Settles p T (fun D => steps ≤ (Branch.of tree).ceiling p D)
      ((tree.positions []).forM fun x => BranchM.whenFeasible
        (BranchM.announce p (BranchM.fillClass p steps) false x.1)) (.of tree)
      fun _ c => c.feasible = true → c.Tended p := by
  have hready : (Branch.of tree).Ready p T := Branch.ready_of hw
  refine (BranchM.Does.forM (fun left c => (∀ x ∈ left, x ∈ tree.positions []) ∧ (c.feasible = true →
    ∀ x ∈ tree.positions [], x ∈ left ∨ ∀ k ∈ p.grammar.constraints, (k, x.1) ∈ c.announced))
    ⟨fun _ h => h, fun _ x hx => Or.inl hx⟩ ?_).post fun _ c hc ⟨_, hdone⟩ hf => ⟨?_, ?_⟩
  · rintro ⟨path, s⟩ left c hc ⟨hleft, hdone⟩
    have hleft' := fun x hx => hleft x (List.mem_cons_of_mem (path, s) hx)
    have hs := (Tree.mem_positions_nil tree path s).mp (hleft _ List.mem_cons_self)
    obtain ⟨v, hv⟩ := hc.moves.proceeds.placed ⟨s, hs⟩
    refine .whenFeasible (fun hf => ?_) fun hf => ⟨hleft', fun hf' => absurd (hf.symm.trans hf') nofun⟩
    refine (BranchM.does_announce hg (BranchM.fills_fillClass hg hT steps) hT (hc.ready hready) hv).mono
      (fun _ d hd hnow => ⟨hleft', fun hfd x hx => ?_⟩) fun D hD hl =>
        Nat.le_trans hl (hc.moves.proceeds.ceiling_le hD)
    rcases hdone hf x hx with hx | hx
    · rcases List.mem_cons.mp hx with rfl | hx
      · exact Or.inr (hnow hfd)
      · exact Or.inl hx
    · exact Or.inr fun k hk => hd.moves.proceeds.announced (hx k hk)
  · intro k hk path s hs
    rcases hc.shown hf k hk path s hs with ⟨v, hv⟩ | ho | hn
    · have hin := (Tree.mem_positions_nil tree path v).mpr hv
      exact (hdone hf _ hin).resolve_left nofun k hk
    · exact ho.elim
    · exact hn
  · exact hc.attended hf Branch.attended_of

theorem Branch.start_eq_ok {steps : Nat} : Branch.start p steps tree = .ok b ↔
    p.grammar.check steps none (.ofTree tree) = .ok () ∧ ((tree.positions []).forM fun x => BranchM.whenFeasible
      (BranchM.announce p (BranchM.fillClass p steps) false x.1)).run (.of tree) = .ok () b := by
  constructor
  · intro h
    obtain ⟨_, hcheck, h⟩ := Except.bind_eq_ok.mp h
    refine ⟨hcheck, ?_⟩
    simp only at h
    split at h
    · rename_i hrun
      cases h
      exact hrun
    · cases h
  · rintro ⟨hcheck, h⟩
    refine Except.bind_eq_ok.mpr ⟨(), hcheck, ?_⟩
    simp only
    split
    · rename_i hrun
      cases hrun.symm.trans h
      rfl
    · rename_i hrun
      cases hrun.symm.trans h

end Start

end TreeSearch
