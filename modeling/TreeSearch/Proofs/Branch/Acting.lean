import TreeSearch.Branch.Post
import TreeSearch.Proofs.Branch.Unifying

namespace TreeSearch

variable {p : Problem} {T : Tree → Prop} {busy : Watch → Prop} {owed : Path → Prop}
  {limit : Nat → Prop} {b c : Branch} {w : Watch} {α : Type}

theorem Problem.Solves.holdsAt {t : Tree} (h : p.Solves t) {c : Constraint}
    (hc : c ∈ p.grammar.constraints) (path : Path) : c.HoldsAt t path :=
  (c.holds_iff t).mp (h.holds c hc) path

section Discharging

theorem Attended.discharge (h : Attended p (· = w) b) (hr : w ∈ b.retired → Entailed p b.tree w)
    (ha : w ∈ b.active → w ∈ b.queue.pending ∨ Quiet b.tree w) : Attended p (fun _ => False) b := by
  refine ⟨h.announced, fun v hv => Or.inr ?_, fun v hv => Or.inr ?_⟩
  · rcases h.retired v hv with rfl | he
    · exact hr hv
    · exact he
  · rcases h.active v hv with rfl | hq
    · exact ha hv
    · exact hq

-- Work that wants no constraint to be busy, where the busy ones have nothing to do.
theorem BranchM.Settles.rebusy {work : BranchM α} (h : Settles p T limit work b fun _ _ => True)
    (hidle : b.feasible = true → Attended p busy b → Attended p (fun _ => False) b) :
    Does p T busy owed limit work b fun _ c =>
      c.feasible = true → Attended p busy b → Attended p (fun _ => False) c := by
  refine Meets.mono h (fun a c hc => ?_) fun _ _ hs => hs
  have hattended (hf : c.feasible = true) (ha : Attended p busy b) : Attended p (fun _ => False) c :=
    hc.1.attended hf (hidle (hc.1.moves.proceeds.feasible hf) ha)
  exact ⟨⟨hc.1.moves, (hc.1.owe fun _ => False.elim).shown,
    fun hf ha => (hattended hf ha).mono fun _ => False.elim⟩, hattended⟩

end Discharging

-- Narrowing completes nothing, so what is still open was open before.
theorem Narrowed.exists_open (h : Narrowed b c) {bindings : List Binding} {z : Binding} {s : Tree}
    (hz : z ∈ bindings) (hs : c.tree.get? z.path = some s) (hopen : ¬ s.Complete) :
    ∃ x s, x ∈ bindings ∧ b.tree.get? x.path = some s ∧ ¬ s.Complete := by
  obtain ⟨v, hv, hvs⟩ := BranchM.exists_of_skeleton h.skeleton.symm hs
  exact ⟨z, v, hz, hv, fun hc => hopen ((BranchM.complete_congr hvs).mp hc)⟩

namespace BranchM

variable {fill : Filler} {steps : Nat} {unifying : Bool}

section Order

variable {bindings : List Binding}

-- A smaller tree comes before all that a larger one comes before.
theorem met_order_cons {u : Tree} {name next : String} {rest : List String} {x y : Binding}
    {t : Tree} (hx : Findings.binding? ⟨[], [], bindings⟩ name = some x)
    (hy : Findings.binding? ⟨[], [], bindings⟩ next = some y) (ht : u.get? y.path = some t)
    (hpair : ∀ s t, u.get? x.path = some s → u.get? y.path = some t → s.UpTo t)
    (h : (Action.order bindings (next :: rest)).Met u) :
    (Action.order bindings (name :: next :: rest)).Met u := by
  refine List.pairwise_cons.mpr ⟨fun other ho first second s v hf hs hsv hv => ?_, h⟩
  obtain rfl := Option.some.inj (hx.symm.trans hf)
  rcases List.mem_cons.mp ho with rfl | ho
  · obtain rfl := Option.some.inj (hy.symm.trans hs)
    exact hpair s v hsv hv
  · exact (hpair s t hsv ht).trans ((List.pairwise_cons.mp h).1 other ho y second t v hy hs ht hv)

-- What comes of comparing variables one by one: all pairs are in order for good, and the
-- constraint has retired, or something that is compared is not complete.
def Arranged (p : Problem) (w : Watch) (bindings : List Binding) (names : List String)
    (settled : Bool) (b c : Branch) : Prop :=
  (settled = true ∧ w ∉ c.active ∧
    ∀ u, p.Completes u c.tree → (Action.order bindings names).Met u) ∨
  Narrowed b c ∧ (settled = true → ∃ x s, x ∈ bindings ∧ b.tree.get? x.path = some s ∧
    ¬ s.Complete)

-- A single variable, or none, has nothing to be compared with.
theorem does_lastName (hb : b.Ready p T) (hw : w ∈ b.active) {names : List String} (settled : Bool)
    (hall : ∀ u, (Action.order bindings names).Met u) :
    Does p T (· = w) owed limit (if settled = true then modify (·.retire w) else return) b fun _ c =>
      c.feasible = true → Arranged p w bindings names settled b c := by
  cases settled with
  | false => exact .pure fun _ => Or.inr ⟨.refl b, nofun⟩
  | true =>
      refine .modify (.of_move (.retire (Or.inl hw)) rfl fun _ ha => ha.retire hb.sound (Or.inl rfl))
        fun _ => Or.inl ⟨rfl, fun hm => ?_, fun u _ => hall u⟩
      exact ((OrderedSet.mem_erase _ _ _).mp hm).2 rfl

theorem pathOf_eq_ok {name : String} {x : Binding}
    (hx : Findings.binding? ⟨[], [], bindings⟩ name = some x) :
    pathOf bindings name = .ok x.path := by
  unfold pathOf
  rw [show bindings.find? (·.name = name) = some x from hx]

section Pairs

variable {d : Branch} {name next : String} {rest : List String} {x y : Binding} {settled : Bool}

-- A pair that is in order for good goes before the others.
theorem Arranged.ordered (h : Arranged p w bindings (next :: rest) settled c d)
    (hnarrowed : Narrowed b c) (hx : Findings.binding? ⟨[], [], bindings⟩ name = some x)
    (hy : Findings.binding? ⟨[], [], bindings⟩ next = some y)
    (hplaced : ∃ v, d.tree.get? y.path = some v)
    (hpair : ∀ u, p.Completes u d.tree → ∀ s v, u.get? x.path = some s → u.get? y.path = some v →
      s.UpTo v) : Arranged p w bindings (name :: next :: rest) settled b d := by
  rcases h with ⟨hsettled, hretired, hall⟩ | ⟨hsame, hlater⟩
  · refine Or.inl ⟨hsettled, hretired, fun u hu => ?_⟩
    obtain ⟨v, hv⟩ := hplaced
    obtain ⟨t, ht, -⟩ := hu.get? hv
    exact met_order_cons hx hy ht (hpair u hu) (hall u hu)
  · refine Or.inr ⟨hnarrowed.trans hsame, fun hsettled => ?_⟩
    obtain ⟨z, s, hz, hs, hopen⟩ := hlater hsettled
    exact hnarrowed.exists_open hz hs hopen

-- One that is not known to be in order leaves the constraint in service.
theorem Arranged.undecided (h : Arranged p w bindings (next :: rest) false c d)
    (hnarrowed : Narrowed b c) {s v : Tree} (hx : x ∈ bindings) (hy : y ∈ bindings)
    (hs : c.tree.get? x.path = some s) (hv : c.tree.get? y.path = some v)
    (hopen : ¬ (s.Complete ∧ v.Complete)) : Arranged p w bindings (name :: next :: rest) settled b d := by
  rcases h with ⟨hfalse, -⟩ | ⟨hsame, -⟩
  · cases hfalse
  · refine Or.inr ⟨hnarrowed.trans hsame, fun _ => ?_⟩
    by_cases hcomplete : s.Complete
    · exact hnarrowed.exists_open hy hv fun h => hopen ⟨hcomplete, h⟩
    · exact hnarrowed.exists_open hx hs hcomplete

end Pairs

theorem does_orderNames (hT : ∀ t, T t → p.Solves t) (hb : b.Ready p T)
    (hw : w ∈ b.active) {names : List String} (settled : Bool)
    (hbound : ∀ name ∈ names, ∃ x s, Findings.binding? ⟨[], [], bindings⟩ name = some x ∧
      b.tree.get? x.path = some s)
    (hmet : ∀ t, T t → b.Covers t → (Action.order bindings names).Met t) :
    Does p T (· = w) owed limit (orderNames p unifying w bindings names settled) b fun _ c =>
      c.feasible = true → Arranged p w bindings names settled b c := by
  induction names generalizing b settled with
  | nil => exact does_lastName hb hw settled fun u => List.Pairwise.nil
  | cons name names ih =>
      cases names with
      | nil => exact does_lastName hb hw settled fun u => List.pairwise_singleton _ _
      | cons next rest =>
          obtain ⟨x, s, hx, hs⟩ := hbound name List.mem_cons_self
          obtain ⟨y, v, hy, hv⟩ := hbound next (List.mem_cons_of_mem name List.mem_cons_self)
          rw [orderNames, does_attempt_bind (pathOf_eq_ok hx), does_attempt_bind (pathOf_eq_ok hy)]
          have horder : InOrder T b x.path y.path := fun t ht hc s v hs hv =>
            (List.pairwise_cons.mp (hmet t ht hc)).1 next List.mem_cons_self x y s v hx hy hs hv
          have hself (t : Tree) (ht : T t) : p.Completes t t := .refl (hT t ht).wellFormed (hT t ht).complete
          refine Does.bind (does_order hself hb hs hv horder) fun outcome c hc ⟨hnarrowed, hcompares⟩ => ?_
          obtain ⟨s', hs', -⟩ := exists_of_skeleton hnarrowed.skeleton hs
          obtain ⟨v', hv', -⟩ := exists_of_skeleton hnarrowed.skeleton hv
          have hrest (settled : Bool) := ih (b := c) (hc.ready hb) (hnarrowed.active w hw) settled
            (fun name hn => by
              obtain ⟨z, q, hz, hq⟩ := hbound _ (List.mem_cons_of_mem _ hn)
              exact ⟨z, _, hz, (hc.moves.proceeds.placed ⟨q, hq⟩).choose_spec⟩)
            fun t ht hct => (List.pairwise_cons.mp (hmet t ht (hc.moves.proceeds.of_covers hct))).2
          -- What the outcome says about the completions of one tree, it says about those of a finer one.
          have hgo (hpair : c.feasible = true → ∀ u, p.Completes u c.tree → ∀ s v,
              u.get? x.path = some s → u.get? y.path = some v → s.UpTo v) :
              Does p T (· = w) owed limit (orderNames p unifying w bindings (next :: rest) settled) c
                fun _ d => d.feasible = true → Arranged p w bindings (name :: next :: rest) settled b d :=
            (hrest settled).post fun _ d hd harranged hf =>
              (harranged hf).ordered hnarrowed hx hy (hd.moves.proceeds.placed ⟨v', hv'⟩) fun u hu =>
                hpair (hd.moves.proceeds.feasible hf) u (hu.of_refines hd.moves.proceeds.refines)
          cases outcome with
          | violated => exact .pure fun hf => absurd (hcompares hf) id
          | undecided =>
              refine (hrest false).post fun _ d hd harranged hf => ?_
              exact (harranged hf).undecided hnarrowed (List.mem_of_find?_eq_some hx)
                (List.mem_of_find?_eq_some hy) hs' hv'
                (hcompares (hd.moves.proceeds.feasible hf) s' v' hs' hv')
          | less => exact hgo fun hf u hu s v hs hv => Or.inr (hcompares hf u hu s v hs hv)
          | equal =>
              refine hgo fun hf u hu s v hs hv => Or.inl ?_
              exact Option.some.inj (hs.symm.trans ((hcompares hf u hu).trans hv))

end Order

theorem does_performNarrowing {a : Action} (ha : a.Narrows) (hb : b.Ready p T)
    (hplaced : a.Placed b.tree) (hmet : ∀ t, T t → b.Covers t → a.Met t) :
    Does p T busy owed limit (perform p fill unifying w a) b fun _ c =>
      c.feasible = true → ∀ u, p.Completes u c.tree → a.Met u := by
  cases a with
  | fail => exact .fail hmet nofun
  | keep path mask =>
      obtain ⟨s, hs⟩ := hplaced
      exact (does_narrow hb hs hmet).post fun _ _ _ hq hf u hu => (hq.2 hf).rootIn hu
  | strike path rule =>
      obtain ⟨⟨s, hs⟩, hr⟩ := hplaced
      exact does_strike hr hb hs hmet
  | retire => exact absurd ha id
  | equate => exact absurd ha id
  | order => exact absurd ha id

theorem does_performPlain {a : Action} (ha : a.Plain) (hfill : Fills p T steps fill)
    (hT : ∀ t, T t → p.Solves t) (hb : b.Ready p T) (hplaced : a.Placed b.tree)
    (hmet : ∀ t, T t → b.Covers t → a.Met t) :
    Settles p T (fun D => steps ≤ b.ceiling p D) (perform p fill unifying w a) b
      fun _ _ => True := by
  cases a with
  | keep path mask => exact (does_performNarrowing (by trivial) hb hplaced hmet).post fun _ _ _ _ => trivial
  | strike path rule => exact (does_performNarrowing (by trivial) hb hplaced hmet).post fun _ _ _ _ => trivial
  | equate first second => exact does_equate hfill hT hb hplaced.1 hplaced.2 hmet
  | retire => exact absurd ha id
  | fail => exact absurd ha id
  | order => exact absurd ha id

section Propagating

-- An action at positions finds them after any work.
theorem placed_of_proceeds {a : Action} (hkind : a.Narrows ∨ a.Plain) (h : a.Placed b.tree)
    (hc : Proceeds p T b c) : a.Placed c.tree := by
  cases a with
  | keep path mask => exact hc.placed h
  | strike path rule => exact ⟨hc.placed h.1, h.2⟩
  | equate first second => exact ⟨hc.placed h.1, hc.placed h.2⟩
  | retire => trivial
  | fail => trivial
  | order => exact (hkind.elim id id).elim

-- When a constraint has retired, the actions that follow make it hold for good. If one of them
-- brings it back, it is queued as well.
theorem does_settleRest {rest : List Action} (hb : b.Ready p T) (hw : w ∈ b.active)
    (hnarrows : ∀ a ∈ rest, a.Narrows) (hplaced : ∀ a ∈ rest, a.Placed b.tree)
    (hmet : ∀ t, T t → b.Covers t → ∀ a ∈ rest, a.Met t)
    (henough : ∀ u, p.Completes u b.tree → (∀ a ∈ rest, a.Met u) → w.constraint.HoldsAt u w.path) :
    Does p T (· = w) owed limit ((Action.retire :: rest).forM (perform p fill unifying w)) b
      fun _ c => c.feasible = true → Attended p (· = w) b → Attended p (fun _ => False) c := by
  show Does p T (· = w) owed limit
    (modify (·.retire w) >>= fun _ => rest.forM (perform p fill unifying w)) b _
  refine Does.bind (R := fun _ c => c = b.retire w) (.modify (.of_move (.retire (Or.inl hw)) rfl
    fun _ ha => ha.retire hb.sound (Or.inl rfl)) rfl) fun _ c hc he => ?_
  subst he
  refine (Does.forM_each (fun _ => True) (fun a d => ∀ u, p.Completes u d.tree → a.Met u) trivial
    (fun _ _ _ hd _ h u hu => h u (hu.of_refines hd.moves.proceeds.refines)) fun a hin d hd _ => ?_).post ?_
  · have hbd : Proceeds p T b d := Moves.proceeds (hc.moves.trans hd.moves)
    exact (does_performNarrowing (hnarrows a hin) (hbd.ready hb)
      (placed_of_proceeds (Or.inl (hnarrows a hin)) (hplaced a hin) hbd)
      fun t ht hct => hmet t ht (hbd.of_covers hct) a hin).post fun _ _ _ hnow => ⟨trivial, hnow⟩
  · rintro _ d hd ⟨-, hdone⟩ hf ha
    have hattended := hd.attended hf (hc.attended (hd.moves.proceeds.feasible hf) ha)
    refine hattended.discharge (fun _ u hu => ?_) fun hactive => Or.inl ?_
    · exact henough u (hu.of_refines hd.moves.proceeds.refines) fun a ha => hdone hf a ha u hu
    -- Only an edit that queues it brings a retired constraint back.
    · by_contra hq
      have hretired : w ∈ (b.retire w).retired := (OrderedSet.mem_insert _ _ _).mpr (Or.inr rfl)
      obtain ⟨hstill, -⟩ := hd.moves.undisturbed (hc.ready hb).sound hf (Or.inr hretired) hactive hq
      exact ((OrderedSet.mem_erase _ _ _).mp hstill).2 rfl

-- A constraint that puts variables in order retires, or waits until more of them is known.
theorem does_performOrder (hT : ∀ t, T t → p.Solves t) (hb : b.Ready p T) (hw : w ∈ b.active)
    {bindings : List Binding} {names : List String} (hsens : w.Sensitive)
    (hplaced : (Action.order bindings names).Placed b.tree)
    (hmet : ∀ t, T t → b.Covers t → (Action.order bindings names).Met t)
    (henough : ∀ u, p.Completes u b.tree → (Action.order bindings names).Met u →
      w.constraint.HoldsAt u w.path)
    (hdecided : ∀ s, b.tree.get? w.path = some s → s.Complete → ∀ x ∈ bindings, x.tree.Complete) :
    Does p T (· = w) owed limit (orderNames p unifying w bindings names true) b
      fun _ c => c.feasible = true → Attended p (· = w) b → Attended p (fun _ => False) c := by
  obtain ⟨hin, hbound⟩ := hplaced
  refine (does_orderNames hT hb hw true (fun name hn => ?_) hmet).post fun _ c hc harranged hf ha => ?_
  · obtain ⟨x, hx⟩ := hbound name hn
    exact ⟨x, x.tree, hx, hin.bindings x (List.mem_of_find?_eq_some hx)⟩
  · refine (hc.attended hf ha).discharge (fun hretired u hu => ?_) fun hactive => Or.inr ⟨hsens, ?_⟩
    · rcases harranged hf with ⟨-, -, hall⟩ | ⟨hsame, -⟩
      · exact henough u (hu.of_refines hc.moves.proceeds.refines) (hall u hu)
      · exact absurd hretired ((hc.ready hb).sound.apart w (hsame.active w hw))
    · intro s hs hcomplete
      rcases harranged hf with ⟨-, hgone, -⟩ | ⟨hsame, hopen⟩
      · exact absurd hactive hgone
      · obtain ⟨v, hv, hvs⟩ := exists_of_skeleton hsame.skeleton.symm hs
        obtain ⟨x, q, hx, hq, hn⟩ := hopen rfl
        obtain rfl := Option.some.inj ((hin.bindings x hx).symm.trans hq)
        exact absurd (hdecided v hv ((complete_congr hvs).mpr hcomplete) x hx) hn

-- A constraint that is at work has been discharged afterwards.
theorem does_propagate (hg : p.grammar.Regular) (hfill : Fills p T steps fill)
    (hT : ∀ t, T t → p.Solves t) (hb : b.Ready p T) (hw : w ∈ b.active) :
    Does p T (· = w) (fun _ => False) (fun D => steps ≤ b.ceiling p D)
      (propagate p fill unifying w) b
      fun _ c => c.feasible = true → Attended p (· = w) b → Attended p (fun _ => False) c := by
  obtain ⟨hin, hfits, s, hs⟩ := hb.sound.watched w (Or.inl hw)
  obtain ⟨acts, hacts, hanswers⟩ := w.actions_spec_of_mem hg hb.sound.wellFormed hin hfits hs
  have hmet (t : Tree) (ht : T t) (hc : b.Covers t) (a : Action) (ha : a ∈ acts) : a.Met t :=
    hanswers.necessary t ((hT t ht).completes hc) (hT t ht).admits ((hT t ht).holdsAt hin _) a ha
  have hplaced := hanswers.placed
  unfold propagate
  rw [does_get_bind]
  refine .reckon_bind hacts ?_
  cases hanswers.kind with
  | @settled rest narrows enough =>
      exact does_settleRest hb hw narrows (fun a ha => hplaced a (List.mem_cons_of_mem _ ha))
        (fun t ht hc a ha => hmet t ht hc a (List.mem_cons_of_mem _ ha)) enough
  | failed =>
      exact .forM_singleton (.fail (fun t ht hc => hmet t ht hc _ List.mem_cons_self) nofun)
  | @ordered bindings names sensitive enough decided =>
      exact .forM_singleton (does_performOrder hT hb hw sensitive (hplaced _ List.mem_cons_self)
        (fun t ht hc => hmet t ht hc _ List.mem_cons_self) enough decided)
  | unsettled plain sensitive quiet =>
      have hidle (ha : Attended p (· = w) b) : Attended p (fun _ => False) b :=
        ha.discharge (fun hr => absurd hr (hb.sound.apart w hw)) fun _ => Or.inr ⟨sensitive, quiet⟩
      refine Settles.rebusy ?_ fun _ => hidle
      refine (Does.forM_each (fun _ => True) (fun _ _ => True) trivial (fun _ _ _ _ _ => id)
        fun a ha c hc _ => ?_).post fun _ _ _ _ => trivial
      refine (does_performPlain (plain a ha) hfill hT (hc.ready hb)
        (placed_of_proceeds (Or.inr (plain a ha)) (hplaced a ha) hc.moves.proceeds)
        fun t ht hct => hmet t ht (hc.moves.proceeds.of_covers hct) a ha).mono
        (fun _ _ _ _ => ⟨trivial, fun _ => trivial⟩) fun D hD hl => ?_
      exact Nat.le_trans hl (hc.moves.proceeds.ceiling_le hD)

end Propagating

section Announcing

variable {k : Constraint} {path : Path} {s : Tree}

-- A constraint that is watched from now on is propagated at once.
theorem meets_post (hg : p.grammar.Regular) (hfill : Fills p T steps fill)
    (hT : ∀ t, T t → p.Solves t) (hb : b.Ready p T) (hs : b.tree.get? path = some s)
    (hk : k ∈ p.grammar.constraints) (hfits : Watch.Fits ⟨path, k⟩) :
    (post p fill unifying ⟨path, k⟩).Meets { b with log := ⟨k, path, some ⟨path, k⟩⟩ :: b.log }
      (fun _ c => Step p T (fun _ => False) (fun _ => False) b c ∧ (k, path) ∈ c.announced)
      (Stops p T (fun D => steps ≤ b.ceiling p D) b) := by
  have hlog : Move p T b { b with log := ⟨k, path, some ⟨path, k⟩⟩ :: b.log } := .log _
  unfold post
  rw [meets_bind, meets_get]
  split
  · rename_i hstop
    refine ⟨.of_move hlog rfl fun hf ha => Attended.log ha _ (Or.inl ?_), List.mem_cons_self⟩
    have hf : b.feasible = true := hf
    simpa [hf] using hstop
  · rename_i hgo
    obtain ⟨hf, hactive, hretired⟩ : b.feasible = true ∧ Watch.mk path k ∉ b.active ∧
        Watch.mk path k ∉ b.retired := by simpa using hgo
    rw [meets_bind, meets_set]
    let watching : Branch := { b with
      log := ⟨k, path, some ⟨path, k⟩⟩ :: b.log
      active := b.active.insert ⟨path, k⟩
      statistics.posted := b.statistics.posted + 1 }
    have hmoves : Moves p T b watching :=
      .tail (.single hlog) (.post _ hk hfits ⟨s, hs⟩ hactive hretired)
    have hin : Watch.mk path k ∈ watching.active := (OrderedSet.mem_insert _ _ _).mpr (Or.inr rfl)
    have hattended (ha : Attended p (fun _ => False) b) : Attended p (· = ⟨path, k⟩) watching := by
      have hbusy : Attended p (· = ⟨path, k⟩) b := ha.mono fun _ => False.elim
      exact (hbusy.post watching.statistics rfl).log _ (Or.inl (Or.inl hin))
    refine Meets.mono (does_propagate hg hfill hT (hmoves.proceeds.ready hb) hin)
      (fun _ c hc => ⟨⟨hmoves.trans hc.1.moves, hc.1.shown, fun hf ha => hc.2 hf (hattended ha)⟩, ?_⟩)
      fun _ _ hs => hs.of_proceeds hmoves.proceeds fun _ _ hl => hl
    exact hc.1.moves.proceeds.announced List.mem_cons_self

theorem does_announceTo (hg : p.grammar.Regular) (hfill : Fills p T steps fill)
    (hT : ∀ t, T t → p.Solves t) (hb : b.Ready p T) (hs : b.tree.get? path = some s)
    (hk : k ∈ p.grammar.constraints) :
    Settles p T (fun D => steps ≤ b.ceiling p D) (announceTo p fill unifying path k) b
      fun _ c => (k, path) ∈ c.announced := by
  unfold announceTo Settles Does
  rw [meets_bind, meets_get]
  rcases k.watchAt_spec hb.sound.wellFormed (hg.tame k hk) hs with ⟨hw, hfits⟩ | ⟨hw, hholds⟩
  · rw [meets_bind, meets_attempt hw, meets_bind, meets_modify]
    exact meets_post hg hfill hT hb hs hk hfits
  · rw [meets_bind, meets_attempt hw, meets_bind, meets_modify]
    exact ⟨.of_move (.log _) rfl fun _ ha => Attended.log ha _ (Or.inr hholds), List.mem_cons_self⟩

theorem does_announce (hg : p.grammar.Regular) (hfill : Fills p T steps fill)
    (hT : ∀ t, T t → p.Solves t) (hb : b.Ready p T) (hs : b.tree.get? path = some s) :
    Settles p T (fun D => steps ≤ b.ceiling p D) (announce p fill unifying path) b fun _ c =>
      c.feasible = true → ∀ k ∈ p.grammar.constraints, (k, path) ∈ c.announced := by
  refine (Does.forM_whenFeasible (fun _ => True) (fun k c => (k, path) ∈ c.announced) trivial
    (fun _ _ _ hd _ h => hd.moves.proceeds.announced h) fun k hk c hc _ => ?_).post fun _ _ _ h => h.2
  obtain ⟨v, hv⟩ := hc.moves.proceeds.placed ⟨s, hs⟩
  exact (does_announceTo hg hfill hT (hc.ready hb) hv hk).mono (fun _ _ _ hnow => ⟨trivial, fun _ => hnow⟩)
    fun D hD hl => Nat.le_trans hl (hc.moves.proceeds.ceiling_le hD)

end Announcing

end BranchM

end TreeSearch
