import TreeSearch.Proofs.Branch.Echo

namespace TreeSearch

variable {p : Problem} {b c d : Branch} {w : Watch} {busy : Watch → Prop}

-- As long as the subtree at its position stays as it is, the constraint changes no level branch
-- with the same united paths.
def Still (p : Problem) (b : Branch) (w : Watch) : Prop :=
  w.Sensitive ∧ ∀ e : Branch, e.Balanced p ∅ → e.feasible = true →
    e.tree.get? w.path = b.tree.get? w.path →
    (∀ path, ∀ other ∈ b.classes.members path, other ∈ e.classes.members path) →
    ∀ steps, e.tree.depth ≤ steps →
      ∃ d, (BranchM.propagate p (BranchM.fillClass p steps) false w).run e = .ok () d ∧
        d.tree = e.tree ∧ d.feasible = true

theorem Still.congr (h : Still p b w) (hview : c.tree.get? w.path = b.tree.get? w.path)
    (hm : ∀ path, ∀ other ∈ b.classes.members path, other ∈ c.classes.members path) : Still p c w :=
  ⟨h.1, fun e he hf hviewe hme => h.2 e he hf (hviewe.trans hview) fun path other ho =>
    hme path other (hm path other ho)⟩

-- Every active constraint is at work, is queued, or is still.
def Branch.Rested (p : Problem) (busy : Watch → Prop) (b : Branch) : Prop :=
  ∀ w ∈ b.active, busy w ∨ w ∈ b.queue.pending ∨ Still p b w

section Changes

theorem Branch.Rested.mono {busy' : Watch → Prop} (h : b.Rested p busy) (hb : ∀ w, busy w → busy' w) :
    b.Rested p busy' :=
  fun w hw => (h w hw).imp_left (hb w)

-- A constraint that is accounted for otherwise needs no excuse.
theorem Branch.Rested.discharge (h : b.Rested p fun v => busy v ∨ v = w)
    (hw : w ∈ b.active → w ∈ b.queue.pending ∨ Still p b w) : b.Rested p busy := by
  intro v hv
  rcases h v hv with (hbusy | rfl) | hrest
  · exact Or.inl hbusy
  · exact Or.inr (hw hv)
  · exact Or.inr hrest

theorem Branch.Change.move (h : b.Change p (fun w => w ∈ b.active ∨ w ∈ b.retired) c) :
    Move p (fun _ => False) b c := by
  cases h with
  | edit unifying statistics feasible change replaced =>
      exact .edit unifying statistics change replaced fun _ ht => ht.elim
  | fail => exact .fail fun _ ht => ht.elim
  | retire known => exact .retire known
  | log entry => exact .log entry
  | unite placed placed' => exact .unite placed placed' fun _ ht => ht.elim
  | count statistics => exact .count statistics

-- What a change leaves as it is may rest. The others are queued.
theorem Branch.Rested.change (hs : b.Sound p) (h : b.Change p (fun w => w ∈ b.active ∨ w ∈ b.retired) c)
    (hf : c.feasible = true) (hb : b.Rested p busy) : c.Rested p busy := by
  have hmembers := h.move.members hs
  cases h with
  | @edit path old new tree unifying statistics feasible change replaced =>
      intro v hv
      rw [mem_notify_pending]
      by_cases hm : v.minds path = true
      · exact Or.inr (Or.inl (Or.inr ⟨hv, hm⟩))
      · rw [mem_notify_active] at hv
        have hv : v ∈ b.active := hv.resolve_right fun hr => hm hr.2.2
        obtain ⟨-, -, s, hplaced⟩ := hs.watched v (Or.inl hv)
        refine (hb v hv).imp_right (Or.imp Or.inl fun hstill => hstill.congr ?_ hmembers)
        rw [notify_tree]
        exact change.get?_of_not_minds replaced hstill.1 hm hplaced
  | fail => cases hf
  | @retire v known =>
      intro u hu
      obtain ⟨hu, hne⟩ := (OrderedSet.mem_erase _ _ _).mp hu
      exact (hb u hu).imp_right (Or.imp_left fun hp => (hs.queue.mem_remove v u).mpr ⟨hp, hne⟩)
  | log => exact hb
  | unite => exact fun v hv => (hb v hv).imp_right (Or.imp_right fun hstill => hstill.congr rfl hmembers)
  | count => exact hb

-- Work keeps all constraints at rest but those that are at work.
def resting (p : Problem) : Discipline p (Watch → Prop) where
  sound b := b.Sound p
  admits b w := w ∈ b.active ∨ w ∈ b.retired
  leads busy b c := Moves p (fun _ => False) b c ∧ (c.feasible = true → b.Rested p busy → c.Rested p busy)
  halts _ _ _ := True
  wellFormed h := h.wellFormed
  refl _ _ := ⟨.refl, fun _ h => h⟩
  trans h h' := ⟨h.1.trans h'.1, fun hf hb => h'.2 hf (h.2 (h'.1.proceeds.feasible hf) hb)⟩
  halt _ := trivial
  halt_trans _ _ := trivial
  refines h := h.1.proceeds.refines
  admitted h hw := h.1.proceeds.known hw
  change hs h := ⟨h.move.sound hs, .single h.move, .change hs h⟩

end Changes

section Views

variable {t u : Tree} {s : Tree} {acts : List Action}

-- What a sensitive constraint asks for depends on the subtree at its position alone.
theorem Watch.Sensitive.actions_congr (hsens : w.Sensitive) (hfits : w.Fits) (hs : t.get? w.path = some s)
    (h : u.get? w.path = t.get? w.path) : w.actions p u = w.actions p t := by
  have hget : u.get w.path = t.get w.path := by
    rw [Tree.get_eq_ok hs, Tree.get_eq_ok (h.trans hs)]
  obtain ⟨path, constraint⟩ := w
  have hroot (hp : path = []) : u = t := by
    subst hp
    simpa using h
  cases constraint with
  | forbidden template =>
      show Except.mapError Halt.fault (p.forbiddenActions u path template) = _
      rw [Problem.forbiddenActions, hget]
      rfl
  | ordered template names =>
      show Except.mapError Halt.fault (p.orderedActions u path template names) = _
      rw [Problem.orderedActions, hget]
      rfl
  | contains rule => rw [hroot hfits]
  | containsSubtree template => rw [hroot hfits]
  | unique rule => rw [hroot hfits]
  | forbiddenSequence => exact absurd hsens id
  | rootOnly => exact absurd hsens id

-- A constraint that is watched below the root and stays in service without putting anything in
-- order asks for nothing.
theorem Watch.actions_eq_nil_or (hsens : w.Sensitive) (hfits : w.Fits) (h : w.actions p t = .ok acts)
    (hplain : ∀ a ∈ acts, a.Plain) : acts = [] ∨ w.path = [] := by
  obtain ⟨path, constraint⟩ := w
  cases constraint with
  | forbidden template =>
      have h : p.forbiddenActions t path template = .ok acts := Except.mapError_eq_ok.mp h
      obtain ⟨s, -, h⟩ := Except.bind_eq_ok.mp h
      obtain ⟨verdict, -, h⟩ := Except.bind_eq_ok.mp h
      split at h
      · cases h
        exact (hplain .retire (by simp)).elim
      · cases h
        exact (hplain .fail (by simp)).elim
      · split at h
        · cases h
          exact (hplain .retire (by simp)).elim
        · cases h
          exact Or.inl rfl
  | ordered template names =>
      have h : p.orderedActions t path template names = .ok acts := Except.mapError_eq_ok.mp h
      obtain ⟨s, -, h⟩ := Except.bind_eq_ok.mp h
      obtain ⟨verdict, -, h⟩ := Except.bind_eq_ok.mp h
      split at h
      · cases h
        exact (hplain .retire (by simp)).elim
      · cases h
        exact (hplain _ List.mem_cons_self).elim
      · cases h
        exact Or.inl rfl
  | contains rule => exact Or.inr hfits
  | containsSubtree template => exact Or.inr hfits
  | unique rule => exact Or.inr hfits
  | forbiddenSequence => exact absurd hsens id
  | rootOnly => exact absurd hsens id

-- Variables are bound at or below the position that is watched.
theorem Watch.bindings_below (hsens : w.Sensitive) (hfits : w.Fits) {bindings : List Binding}
    {names : List String} (h : w.actions p t = .ok [.order bindings names]) :
    ∀ x ∈ bindings, w.path <+: x.path := by
  obtain ⟨path, constraint⟩ := w
  have hroot (hp : path = []) : ∀ x ∈ bindings, path <+: x.path := fun x _ => hp ▸ List.nil_prefix
  cases constraint with
  | forbidden template =>
      have h : p.forbiddenActions t path template = .ok _ := Except.mapError_eq_ok.mp h
      obtain ⟨s, -, h⟩ := Except.bind_eq_ok.mp h
      obtain ⟨verdict, -, h⟩ := Except.bind_eq_ok.mp h
      split at h
      · cases h
      · cases h
      · split at h <;> cases h
  | ordered template names =>
      have h : p.orderedActions t path template names = .ok _ := Except.mapError_eq_ok.mp h
      obtain ⟨s, -, h⟩ := Except.bind_eq_ok.mp h
      obtain ⟨verdict, hv, h⟩ := Except.bind_eq_ok.mp h
      split at h
      · cases h
      · cases h
        rw [Tree.match?_under] at hv
        obtain ⟨inner, -, hv⟩ := Except.map_eq_ok.mp hv
        cases inner with
        | matched found =>
            cases hv
            intro x hx
            obtain ⟨y, -, rfl⟩ := List.mem_map.mp hx
            exact List.prefix_append path y.path
        | refuted => cases hv
        | undecided => cases hv
      · cases h
  | contains rule => exact hroot hfits
  | containsSubtree template => exact hroot hfits
  | unique rule => exact hroot hfits
  | forbiddenSequence => exact absurd hsens id
  | rootOnly => exact absurd hsens id

end Views

section Acting

open BranchM Discipline

variable {fill : Filler} {unifying : Bool}

theorem meets_of_run {α : Type} {work : BranchM α} {Q : α → Branch → Prop} {H : Halt → Branch → Prop}
    (h : ∀ a c, work.run b = .ok a c → Q a c) (hh : ∀ halt c, work.run b = .error halt c → H halt c) :
    work.Meets b Q H := by
  unfold Meets
  split
  · rename_i hrun
    exact h _ _ hrun
  · rename_i hrun
    exact hh _ _ hrun

-- What an action leaves behind in a branch that it has not ended.
def Action.Done (b : Branch) : Action → Prop
  | .retire => True
  | .fail => False
  | .keep path mask => Masked b.tree path mask
  | .strike path rule => ∃ d, Domain.single rule = .ok d ∧ Masked b.tree path (.except d)
  | .equate first second => (∃ s, b.tree.get? first = some s) ∧ second ∈ b.classes.members first
  | .order .. => True

theorem Action.Done.moves {T : Tree → Prop} {a : Action} (h : a.Done b) (hs : b.Sound p) (hm : Moves p T b c) :
    a.Done c := by
  cases a with
  | retire => trivial
  | fail => exact h
  | keep path mask => exact h.refines hm.proceeds.refines
  | strike path rule =>
      obtain ⟨d, hd, hmasked⟩ := h
      exact ⟨d, hd, hmasked.refines hm.proceeds.refines⟩
  | equate first second => exact ⟨hm.proceeds.placed h.1, hm.proceeds.members hs first second h.2⟩
  | order => trivial

theorem makes_equate (hfill : MakesFills (resting p) fill) (first second : Path) :
    (resting p).Makes busy (equate fill first second) b fun _ c =>
      c.feasible = true → (Action.equate first second).Done c := by
  unfold equate
  refine .nodeAt_bind fun s hs => .nodeAt_bind fun v hv => .isFeasible_bind ?_
  split
  · rename_i hdone
    refine .pure fun hf => ⟨⟨s, hs⟩, ?_⟩
    obtain rfl : first = second := hdone.resolve_left (by simp [hf])
    exact b.classes.mem_members_self first
  · split
    · exact .fail nofun
    · refine .bind (R := fun _ c => (Action.equate first second).Done c)
        (fun hb => ?_) fun _ c _ hc => ?_
      · obtain ⟨hc, hl⟩ := (resting p).change (i := busy) hb (.unite ⟨s, hs⟩ ⟨v, hv⟩)
        exact ⟨hc, hl, ⟨s, hs⟩, hb.classes.mem_members_unite first second⟩
      · intro hb
        refine ((made_sync hfill first : (resting p).Made busy _ c) hb).mono ?_ fun _ _ h => h
        exact fun _ d ⟨hd, hl, _⟩ => ⟨hd, hl, fun _ => hc.moves hb hl.1⟩

theorem makes_perform (hfill : MakesFills (resting p) fill) (hw : w ∈ b.active ∨ w ∈ b.retired)
    (a : Action) : (resting p).Makes busy (perform p fill unifying w a) b fun _ c =>
      c.feasible = true → a.Done c := by
  cases a with
  | retire => exact (made_perform hfill hw .retire).post fun _ _ _ _ _ _ => trivial
  | fail => exact .fail nofun
  | keep path mask => exact makes_narrow path mask
  | strike path rule =>
      exact .attempt_bind fun d hd => (makes_narrow path _).post fun _ _ _ _ hmasked hf => ⟨d, hd, hmasked hf⟩
  | equate first second => exact makes_equate hfill first second
  | order bindings names => exact (made_perform hfill hw _).post fun _ _ _ _ _ _ => trivial

theorem makes_performAll (busy : Watch → Prop) (hfill : MakesFills (resting p) fill) (hw : w ∈ b.active ∨ w ∈ b.retired)
    (acts : List Action) : (resting p).Makes busy (acts.forM (perform p fill unifying w)) b fun _ c =>
      c.feasible = true → ∀ a ∈ acts, a.Done c := by
  refine (Makes.forM (fun left c => c.feasible = true → ∀ a ∈ acts, a ∈ left ∨ a.Done c)
    (fun _ a ha => Or.inl ha) fun a left c hl hdone hc => ?_).post
      fun _ c _ _ hdone hf a ha => (hdone hf a ha).resolve_left List.not_mem_nil
  refine (makes_perform hfill ((resting p).admitted hl hw) a hc).mono ?_ fun _ _ h => h
  rintro _ d ⟨hd, hl', hnow⟩
  refine ⟨hd, hl', fun hf x hx => ?_⟩
  rcases hdone (hl'.1.proceeds.feasible hf) x hx with hx | hx
  · rcases List.mem_cons.mp hx with rfl | hx
    · exact Or.inr (hnow hf)
    · exact Or.inl hx
  · exact Or.inr (hx.moves hc hl'.1)

-- What has been done is found done.
theorem idles_perform {e : Branch} (he : e.Balanced p ∅) (hf : e.feasible = true) {a : Action}
    (hplain : a.Plain) (h : a.Done e) {steps : Nat} (hsteps : e.tree.depth ≤ steps) :
    (perform p (fillClass p steps) false w a).Idles e () := by
  cases a with
  | keep path mask => exact idles_narrow he hf h
  | strike path rule =>
      obtain ⟨d, hd, hmasked⟩ := h
      exact .bind (.attempt hd) (idles_narrow he hf hmasked)
  | equate first second =>
      obtain ⟨⟨s, hs⟩, hm⟩ := h
      exact idles_equate he hf hs hm (by have := Tree.depth_le_of_get? hs; omega)
  | retire => exact hplain.elim
  | fail => exact hplain.elim
  | order => exact hplain.elim

-- The constraint stays away when it retires, unless it is queued as it comes back.
theorem pending_of_retired {T : Tree → Prop} (hs : b.Sound p) (hm : Moves p T b c) (hf : c.feasible = true)
    (hw : w ∈ b.retired) (hactive : w ∈ c.active) : w ∈ c.queue.pending := by
  by_contra hq
  exact hs.apart w (hm.undisturbed hs hf (Or.inr hw) hactive hq).1 hw

-- A constraint that has done its work in a branch whose view of it did not change is still.
theorem still_of_done (hfits : w.Fits) {s : Tree} (hplaced : b.tree.get? w.path = some s)
    {acts : List Action} (hacts : w.actions p b.tree = .ok acts) (hsens : w.Sensitive) (hplain : ∀ a ∈ acts, a.Plain)
    (hdone : ∀ a ∈ acts, a.Done c) (hview : c.tree.get? w.path = b.tree.get? w.path) : Still p c w := by
  refine ⟨hsens, fun e he hf hviewe hmembers steps hsteps => ⟨e, ?_, rfl, hf⟩⟩
  have hsame := hviewe.trans hview
  have hagain : w.actions p e.tree = .ok acts :=
    (hsens.actions_congr hfits hplaced hsame).trans hacts
  refine idles_iff.mp (Idles.bind .get (.bind (.reckon hagain) (.forM fun a ha => ?_)))
  refine idles_perform he hf (hplain a ha) ?_ hsteps
  rcases Watch.actions_eq_nil_or hsens hfits hacts hplain with rfl | hroot
  · cases ha
  · have htree : e.tree = c.tree := by simpa [hroot] using hviewe
    have hd := hdone a ha
    cases a with
    | keep path mask => exact (htree ▸ hd : Masked e.tree path mask)
    | strike path rule =>
        obtain ⟨d, hd, hmasked⟩ := hd
        exact ⟨d, hd, htree ▸ hmasked⟩
    | equate first second => exact ⟨htree ▸ hd.1, hmembers first second hd.2⟩
    | retire => trivial
    | fail => exact hd
    | order => trivial

-- The same for a constraint that puts variables in order.
theorem still_of_order (hs : b.Sound p) (hfits : w.Fits) {s : Tree}
    (hplaced : b.tree.get? w.path = some s) {bindings : List Binding} {names : List String}
    (hacts : w.actions p b.tree = .ok [.order bindings names]) (hsens : w.Sensitive)
    (hrun : (orderNames p unifying w bindings names true).run b = .ok () c) (hf : c.feasible = true)
    (hview : c.tree.get? w.path = b.tree.get? w.path) : Still p c w := by
  refine ⟨hsens, fun e he hfe hviewe _ steps _ => ?_⟩
  have hsame := hviewe.trans hview
  have hagain : w.actions p e.tree = .ok [.order bindings names] :=
    (hsens.actions_congr hfits hplaced hsame).trans hacts
  obtain ⟨d, hd, hd'⟩ := orderNames_again (Watch.bindings_below hsens hfits hacts) hs.wellFormed hrun hf
    hview he hfe hsame
  refine ⟨d, ?_, ?_⟩
  · unfold propagate
    rw [Idles.get.run_bind, (Idles.reckon hagain).run_bind]
    exact run_bind_eq_ok.mpr ⟨(), d, hd, rfl⟩
  · rcases hd' with rfl | rfl
    · exact ⟨rfl, hfe⟩
    · exact ⟨rfl, hfe⟩

theorem rests_propagate (busy : Watch → Prop) (hg : p.grammar.Regular)
    (hfill : MakesFills (resting p) fill) (hs : b.Sound p) (hw : w ∈ b.active ∨ w ∈ b.retired) :
    (propagate p fill unifying w).Meets b (fun _ c => c.Sound p ∧ Moves p (fun _ => False) b c ∧
      (c.feasible = true → b.Rested p (fun v => busy v ∨ v = w) → c.Rested p busy)) fun _ _ => True := by
  obtain ⟨hin, hfits, s, hplaced⟩ := hs.watched w hw
  obtain ⟨acts, hacts, hanswers⟩ := Watch.actions_spec (P := True) hg hs.wellFormed (hg.tame _ hin) hfits hplaced
    (fun _ _ => trivial) fun _ _ _ _ => trivial
  unfold propagate
  rw [meets_bind, meets_get, meets_bind]
  rcases hacts with hacts | ⟨hover, -⟩
  case inr => exact (meets_reckon_error hover).mpr trivial
  rw [meets_reckon hacts]
  -- all that has to be shown is what becomes of the constraint itself
  suffices hself : (acts.forM (perform p fill unifying w)).Meets b
      (fun _ c => c.feasible = true → w ∈ c.active → w ∈ c.queue.pending ∨ Still p c w) fun _ _ => True by
    refine ((makes_performAll (fun v => busy v ∨ v = w) hfill hw acts hs).and hself).mono ?_ fun _ _ _ => trivial
    rintro _ c ⟨⟨hc, hl, -⟩, hnow⟩
    exact ⟨hc, hl.1, fun hf hb => (hl.2 hf hb).discharge (hnow hf)⟩
  have hmade : (acts.forM (perform p fill unifying w)).Meets b _ _ :=
    makes_performAll (fun _ => True) hfill hw acts hs
  cases hanswers.kind with
  | @settled rest =>
      show (modify (·.retire w) >>= fun _ => rest.forM (perform p fill unifying w)).Meets b _ _
      rw [meets_bind, meets_modify]
      have hretire : Move p (fun _ => False) b (b.retire w) := .retire hw
      have hretired : w ∈ (b.retire w).retired := (OrderedSet.mem_insert _ _ _).mpr (Or.inr rfl)
      refine (makes_performAll (fun _ => True) hfill (Or.inr hretired) rest (hretire.sound hs)).mono
        ?_ fun _ _ _ => trivial
      rintro _ c ⟨-, hl, -⟩ hf hactive
      exact Or.inl (pending_of_retired (hretire.sound hs) hl.1 hf hretired hactive)
  | failed =>
      refine hmade.mono ?_ fun _ _ _ => trivial
      rintro _ c ⟨-, -, hdone⟩ hf
      exact (hdone hf .fail (by simp)).elim
  | @ordered bindings names hsens =>
      refine meets_of_run (fun _ c hrun hf hactive => ?_) fun _ _ _ => trivial
      obtain ⟨-, hl, -⟩ := hmade.ok hrun
      obtain ⟨_, _, horder, hnil⟩ := run_bind_eq_ok.mp hrun
      cases hnil
      refine or_iff_not_imp_left.mpr fun hq => ?_
      exact still_of_order hs hfits hplaced hacts hsens horder hf ((hl.1.undisturbed hs hf hw hactive hq).2 hsens)
  | unsettled hplain hsens =>
      refine hmade.mono ?_ fun _ _ _ => trivial
      rintro _ c ⟨-, hl, hdone⟩ hf hactive
      refine or_iff_not_imp_left.mpr fun hq => ?_
      have hview := (hl.1.undisturbed hs hf hw hactive hq).2 hsens
      exact still_of_done hfits hplaced hacts hsens hplain (hdone hf) hview

-- A constraint that is posted is at work for the first time.
theorem resting_posts (hg : p.grammar.Regular) (hfill : MakesFills (resting p) fill) :
    Posts (resting p) fill := by
  intro busy b unifying k path w hk hs hw hb
  obtain ⟨s, hs⟩ := hs
  obtain ⟨rfl, hfits⟩ : w = ⟨path, k⟩ ∧ Watch.Fits ⟨path, k⟩ := by
    rcases k.watchAt_spec hb.wellFormed (hg.tame k hk) hs with ⟨hw', hfits⟩ | ⟨hw', -⟩
    · exact ⟨Option.some.inj (Except.ok.inj (hw.symm.trans hw')), hfits⟩
    · cases hw.symm.trans hw'
  unfold post
  rw [meets_bind, meets_get]
  split
  · exact Makes.done (D := resting p) (i := busy) () hb
  · rename_i hgo
    obtain ⟨hf, hactive, hretired⟩ : b.feasible = true ∧ Watch.mk path k ∉ b.active ∧
        Watch.mk path k ∉ b.retired := by simpa using hgo
    rw [meets_bind, meets_set]
    let watching : Branch := { b with
      active := b.active.insert ⟨path, k⟩
      statistics.posted := b.statistics.posted + 1 }
    have hpost : Move p (fun _ => False) b watching := .post _ hk hfits ⟨s, hs⟩ hactive hretired
    have hin : Watch.mk path k ∈ watching.active := (OrderedSet.mem_insert _ _ _).mpr (Or.inr rfl)
    refine (rests_propagate busy hg hfill (hpost.sound hb) (Or.inl hin)).mono ?_ fun _ _ _ => trivial
    rintro _ c ⟨hc, hm, hrested⟩
    refine ⟨hc, ⟨.head hpost hm, fun hf hb' => hrested hf fun v hv => ?_⟩, trivial⟩
    rcases (OrderedSet.mem_insert _ _ _).mp hv with hv | rfl
    · exact (hb' v hv).imp Or.inl (Or.imp_right fun hstill => hstill.congr rfl fun _ _ h => h)
    · exact Or.inl (Or.inr rfl)

theorem resting_fillClass (hg : p.grammar.Regular) (steps : Nat) :
    MakesFills (resting p) (fillClass p steps) :=
  makesFills_fillClass hg (fun _ hfill => resting_posts hg hfill) steps

theorem resting_propagate (hg : p.grammar.Regular) (steps : Nat) (hw : w ∈ b.active ∨ w ∈ b.retired) :
    (resting p).Made busy (propagate p (fillClass p steps) false w) b := by
  intro hb
  refine (rests_propagate busy hg (resting_fillClass hg steps) hb hw).mono ?_ fun _ _ _ => trivial
  exact fun _ c ⟨hc, hm, hrested⟩ =>
    ⟨hc, ⟨hm, fun hf hr => hrested hf (hr.mono fun _ => Or.inl)⟩, trivial⟩

end Acting

section Propagating

open BranchM Discipline

-- A constraint that is taken off the queue is at work now.
theorem Branch.Rested.popped {queue : Worklist Watch} (h : b.Rested p busy)
    (hpending : ∀ v ∈ b.queue.pending, v = w ∨ v ∈ queue.pending) :
    { b with queue }.Rested p fun v => busy v ∨ v = w := by
  intro v hv
  rcases h v hv with hbusy | hq | hstill
  · exact Or.inl (Or.inl hbusy)
  · exact (hpending v hq).imp Or.inr Or.inl
  · exact Or.inr (Or.inr (hstill.congr rfl fun _ _ h => h))

theorem rests_propagateQueued (busy : Watch → Prop) (hg : p.grammar.Regular) (steps : Nat)
    (hs : b.Sound p) :
    (propagateQueued p steps w).Meets b (fun _ c => c.Sound p ∧ (c.feasible = true →
      b.Rested p (fun v => busy v ∨ v = w) → c.Rested p busy)) fun _ _ => True := by
  unfold propagateQueued
  rw [meets_bind, meets_get]
  split
  · rename_i hw
    let counted : Branch := { b with statistics.propagations := b.statistics.propagations + 1 }
    have hcount : Move p (fun _ => False) b counted := .count _
    rw [meets_bind, meets_modify]
    refine (rests_propagate busy hg (resting_fillClass hg steps) (hcount.sound hs) (Or.inl hw)).mono
      ?_ fun _ _ _ => trivial
    exact fun _ c ⟨hc, _, hrested⟩ => ⟨hc, fun hf hb => hrested hf fun v hv =>
      (hb v hv).imp_right (Or.imp_right fun hstill => hstill.congr rfl fun _ _ h => h)⟩
  · rename_i hw
    exact ⟨hs, fun _ hb => hb.discharge fun hactive => absurd hactive hw⟩

-- What propagation comes to: rest, with nothing queued, and limits that have nothing to strike.
structure Branch.Comes (p : Problem) (b : Branch) (answer : Bool) (c : Branch) : Prop where
  sound : c.Sound p
  feasible : c.feasible = true → b.feasible = true
  rested : c.feasible = true → b.Rested p (fun _ => False) → c.Rested p fun _ => False
  result : answer = c.feasible
  idle : answer = true → c.queue = .empty ∧ (tighten p).run c = .ok false c

theorem Branch.Comes.after {answer : Bool} (h : c.Comes p answer d) (hf : b.feasible = true)
    (hrested : c.feasible = true → b.Rested p (fun _ => False) → c.Rested p fun _ => False) :
    b.Comes p answer d :=
  { h with
    feasible := fun _ => hf
    rested := fun hfd hb => h.rested hfd (hrested (h.feasible hfd) hb) }

theorem Branch.Rested.pop (h : b.Rested p fun _ => False) (hnil : b.queue.pending = []) :
    b.popped.Rested p fun _ => False :=
  fun v hv => (h v hv).imp_right (Or.imp (fun hq => absurd hq (by simp [hnil]))
    fun hstill => hstill.congr rfl fun _ _ h => h)

-- With nothing queued, the limits are tried, and propagation goes on as long as they strike rules.
theorem comes_tighten (hg : p.grammar.Regular) {steps : Nat} (hs : b.Sound p) (hf : b.feasible = true)
    (hnil : b.queue.pending = []) (hempty : b.popped.queue = .empty)
    (ih : ∀ {c : Branch}, c.Sound p → (fixPoint p steps).Meets c (c.Comes p) fun _ _ => True) :
    (tighten p >>= fun again => if again = true then fixPoint p steps else isFeasible).Meets b.popped
      (b.Comes p) fun _ _ => True := by
  rw [meets_bind]
  have hready : b.popped.Ready p fun _ => False := ⟨hs.popped, fun _ ht => ht.elim⟩
  have htighten : Settles p (fun _ => False) (fun _ => False) (tighten p) b.popped _ :=
    does_tighten hg (fun _ ht => ht.elim) hready hf
  refine meets_of_run (fun again c hrun => ?_) fun _ _ _ => trivial
  obtain ⟨hc, hl, -⟩ := (made_tighten (D := resting p) (i := fun _ => False) hs.popped).ok hrun
  have hrested (hfc : c.feasible = true) (hb : b.Rested p fun _ => False) :
      c.Rested p fun _ => False := hl.2 hfc (hb.pop hnil)
  cases again with
  | true => exact (ih hc).mono (fun _ d hd => hd.after hf hrested) fun _ _ _ => trivial
  | false =>
      refine ⟨hc, fun _ => hf, hrested, rfl, fun hfc => ?_⟩
      -- No limit has struck a rule, so that the branch is still the one that was popped.
      rcases (htighten.ok hrun).2 with ⟨ha, -⟩ | ⟨-, hsame⟩
      · cases ha
      · obtain ⟨rfl, -⟩ := hsame hfc
        exact ⟨hempty, hrun⟩

theorem comes_fixPoint (hg : p.grammar.Regular) (steps : Nat) (hs : b.Sound p) :
    (fixPoint p steps).Meets b (b.Comes p) fun _ _ => True := by
  induction steps generalizing b with
  | zero => trivial
  | succ steps ih =>
      unfold fixPoint
      rw [meets_bind, meets_isFeasible]
      split
      · rename_i hf
        have hf : b.feasible = false := by simpa using hf
        exact ⟨hs, fun h => h, fun _ h => h, hf.symm, fun h => Bool.noConfusion h⟩
      · rename_i hf
        have hf : b.feasible = true := by simpa using hf
        rw [meets_bind, meets_pop]
        rcases hs.queue.pop with ⟨w, he, -, hpop, -⟩ | ⟨he, hnil, hpop, -⟩
        · rw [he]
          show Meets (propagateQueued p steps w >>= fun _ => fixPoint p steps) _ _ _
          rw [meets_bind]
          refine (rests_propagateQueued (fun _ => False) hg steps hs.popped).mono ?_ fun _ _ _ => trivial
          rintro _ c ⟨hc, hrested⟩
          refine (ih hc).mono (fun _ d hd => hd.after hf fun hfc hb => ?_) fun _ _ _ => trivial
          refine hrested hfc (hb.popped fun v hv => ?_)
          by_cases hvw : v = w
          · exact Or.inl hvw
          · exact Or.inr (hpop ▸ (List.mem_erase_of_ne hvw).mpr hv)
        · rw [he]
          exact comes_tighten hg hs hf hnil (hs.queue.pop_eq_empty he) ih

end Propagating

end TreeSearch
