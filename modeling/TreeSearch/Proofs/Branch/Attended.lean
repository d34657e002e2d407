import TreeSearch.Proofs.Branch.Weight

namespace TreeSearch

-- A watched constraint holds whatever becomes of a tree.
def Entailed (p : Problem) (t : Tree) (w : Watch) : Prop :=
  ∀ u, p.Completes u t → w.constraint.HoldsAt u w.path

-- A watched constraint that is wakened by every change below it, and holds if there is
-- nothing left to change.
def Quiet (t : Tree) (w : Watch) : Prop :=
  w.Sensitive ∧ ∀ s, t.get? w.path = some s → s.Complete → w.constraint.HoldsAt t w.path

-- Nothing is asked of the constraints that are busy.
structure Attended (p : Problem) (busy : Watch → Prop) (b : Branch) : Prop where
  announced : ∀ c path, (c, path) ∈ b.announced →
    (Watch.mk path c ∈ b.active ∨ Watch.mk path c ∈ b.retired) ∨ Entailed p b.tree ⟨path, c⟩
  retired : ∀ w ∈ b.retired, busy w ∨ Entailed p b.tree w
  active : ∀ w ∈ b.active, busy w ∨ w ∈ b.queue.pending ∨ Quiet b.tree w

variable {p : Problem} {T : Tree → Prop} {busy : Watch → Prop} {b c d : Branch} {w : Watch}

section Watching

theorem Entailed.refines {s t : Tree} (h : Entailed p t w) (hr : s.Refines t) : Entailed p s w :=
  fun u hu => h u (hu.of_refines hr)

-- A constraint that minds every change at or below its path depends on nothing else.
theorem Watch.Sensitive.holdsAt_congr (hsens : w.Sensitive) (hfits : w.Fits) {u v : Tree}
    (h : u.get? w.path = v.get? w.path) :
    w.constraint.HoldsAt u w.path ↔ w.constraint.HoldsAt v w.path := by
  obtain ⟨path, constraint⟩ := w
  have hroot (hp : path = []) : u = v := by
    subst hp
    simpa using h
  cases constraint with
  | forbidden template =>
      simp only [Constraint.HoldsAt, Pattern.MatchesAt]
      rw [h]
  | ordered template names =>
      simp only [Constraint.HoldsAt, Pattern.MatchesAt]
      rw [h]
  | contains rule => rw [hroot hfits]
  | containsSubtree template => rw [hroot hfits]
  | unique rule => rw [hroot hfits]
  | forbiddenSequence => exact absurd hsens id
  | rootOnly => exact absurd hsens id

theorem Watch.Sensitive.minds (hsens : w.Sensitive) {path : Path} (hpre : w.path <+: path) :
    w.minds path = true := by
  obtain ⟨path', constraint⟩ := w
  cases constraint with
  | forbidden template => exact List.isPrefixOf_iff_prefix.mpr hpre
  | ordered template names => exact List.isPrefixOf_iff_prefix.mpr hpre
  | contains rule => rfl
  | containsSubtree template => rfl
  | unique rule => rfl
  | forbiddenSequence => exact absurd hsens id
  | rootOnly => exact absurd hsens id

theorem Quiet.congr {s t : Tree} (h : Quiet t w) (hfits : w.Fits)
    (heq : s.get? w.path = t.get? w.path) : Quiet s w :=
  ⟨h.1, fun v hv hc => (h.1.holdsAt_congr hfits heq).mpr (h.2 v (heq ▸ hv) hc)⟩

-- An edit that a sensitive constraint does not mind leaves its subtree alone.
theorem Edit.get?_of_not_minds {path : Path} {old new t u : Tree} (h : Edit p path old new)
    (hr : Tree.Replaced old new path t u) (hsens : w.Sensitive) (hm : ¬ w.minds path = true)
    {s : Tree} (hs : t.get? w.path = some s) : u.get? w.path = t.get? w.path := by
  obtain ⟨v, hv, heq⟩ := h.get?_of_replaced hr hs
  rw [hv, hs, heq fun hpre => hm (hsens.minds hpre)]

end Watching

namespace Attended

theorem edit {path : Path} {old new tree : Tree} (unifying : Bool) (statistics : Statistics)
    (hs : b.Sound p) (change : Edit p path old new)
    (replaced : Tree.Replaced old new path b.tree tree) (h : Attended p busy b) :
    Attended p busy ({ b with tree, statistics }.notify unifying path) := by
  have hrefines := replaced.refines change.refines
  refine ⟨fun k q hk => ?_, fun v hv => ?_, fun v hv => ?_⟩
  · rw [Branch.notify_announced] at hk
    rw [Branch.notify_tree]
    refine (h.announced k q hk).imp (fun hknown => ?_) fun he => he.refines hrefines
    rw [Branch.mem_notify_active, Branch.mem_notify_retired]
    have hknown : Watch.mk q k ∈ b.active ∨ Watch.mk q k ∈ b.retired := hknown
    tauto
  · rw [Branch.mem_notify_retired] at hv
    rw [Branch.notify_tree]
    exact (h.retired v hv.1).imp_right fun he => he.refines hrefines
  · rw [Branch.mem_notify_pending, Branch.notify_tree]
    by_cases hm : v.minds path = true
    · exact Or.inr (Or.inl (Or.inr ⟨hv, hm⟩))
    · rw [Branch.mem_notify_active] at hv
      have hv : v ∈ b.active := hv.resolve_right fun hr => hm hr.2.2
      obtain ⟨-, hfits, s, hplaced⟩ := hs.watched v (Or.inl hv)
      refine (h.active v hv).imp_right (Or.imp Or.inl fun hq => ?_)
      exact hq.congr hfits (change.get?_of_not_minds replaced hq.1 hm hplaced)

theorem retire (hs : b.Sound p) (h : Attended p busy b) (hw : busy w ∨ Entailed p b.tree w) :
    Attended p busy (b.retire w) := by
  refine ⟨fun k q hk => ?_, fun v hv => ?_, fun v hv => ?_⟩
  · exact (h.announced k q hk).imp_left (Branch.known_retire w)
  · rcases (OrderedSet.mem_insert _ _ _).mp hv with hv | rfl
    · exact h.retired v hv
    · exact hw
  · obtain ⟨hv, hne⟩ := (OrderedSet.mem_erase _ _ _).mp hv
    exact (h.active v hv).imp_right (Or.imp_left fun hp => (hs.queue.mem_remove w v).mpr ⟨hp, hne⟩)

theorem post (statistics : Statistics) (h : Attended p busy b) (hw : busy w) :
    Attended p busy { b with active := b.active.insert w, statistics } := by
  refine ⟨fun k q hk => ?_, h.retired, fun v hv => ?_⟩
  · refine (h.announced k q hk).imp_left (Or.imp_left fun hv => ?_)
    exact (OrderedSet.mem_insert _ _ _).mpr (Or.inl hv)
  · rcases (OrderedSet.mem_insert _ _ _).mp hv with hv | rfl
    · exact h.active v hv
    · exact Or.inl hw

theorem log (h : Attended p busy b) {c : Constraint} {path : Path} (asked : Option Watch)
    (hc : (Watch.mk path c ∈ b.active ∨ Watch.mk path c ∈ b.retired) ∨ Entailed p b.tree ⟨path, c⟩) :
    Attended p busy { b with log := ⟨c, path, asked⟩ :: b.log } := by
  refine ⟨fun k q hk => ?_, h.retired, h.active⟩
  rcases List.mem_cons.mp hk with he | hk
  · obtain ⟨rfl, rfl⟩ := Prod.mk.inj he
    exact hc
  · exact h.announced k q hk

theorem mono {busy' : Watch → Prop} (h : Attended p busy b) (hb : ∀ w, busy w → busy' w) :
    Attended p busy' b :=
  ⟨h.announced, fun w hw => (h.retired w hw).imp_left (hb w),
    fun w hw => (h.active w hw).imp_left (hb w)⟩

end Attended

-- An active constraint that is not queued after some moves has seen no change below it
-- since it was watched first.
theorem Moves.undisturbed (h : Moves p T b c) (hs : b.Sound p) (hf : c.feasible = true)
    (hknown : w ∈ b.active ∨ w ∈ b.retired) (hw : w ∈ c.active) (hq : w ∉ c.queue.pending) :
    w ∈ b.active ∧ (w.Sensitive → c.tree.get? w.path = b.tree.get? w.path) := by
  induction h with
  | refl => exact ⟨hw, fun _ => rfl⟩
  | @tail m c hrest hstep ih =>
      have hmknown := (Moves.proceeds hrest).known hknown
      obtain ⟨-, -, s, hplaced⟩ := ((Moves.proceeds hrest).sound hs).watched w hmknown
      cases hstep with
      | @edit path old new tree unifying statistics change replaced kept =>
          rw [Branch.mem_notify_pending, not_or] at hq
          have hm : ¬ w.minds path = true := fun hm => hq.2 ⟨hw, hm⟩
          rw [Branch.mem_notify_active] at hw
          rw [Branch.notify_feasible] at hf
          obtain ⟨hb, hsame⟩ := ih hf (hw.resolve_right fun hr => hm hr.2.2) hq.1
          refine ⟨hb, fun hsens => ?_⟩
          rw [Branch.notify_tree, ← hsame hsens]
          exact change.get?_of_not_minds replaced hsens hm hplaced
      | fail => cases hf
      | @retire v known =>
          obtain ⟨hw, hne⟩ := (OrderedSet.mem_erase _ _ _).mp hw
          refine ih hf hw fun hp => hq ?_
          exact (((Moves.proceeds hrest).sound hs).queue.mem_remove v w).mpr ⟨hp, hne⟩
      | @post v statistics constraint fits placed fresh fresh' =>
          rcases (OrderedSet.mem_insert _ _ _).mp hw with hw | rfl
          · exact ih hf hw hq
          · exact absurd hmknown (by tauto)
      | log => exact ih hf hw hq
      | unite => exact ih hf hw hq
      | count => exact ih hf hw hq

-- All positions that were opened are shown to the constraints, except for some that are
-- still owed.
def Shown (p : Problem) (owed : Path → Prop) (b c : Branch) : Prop :=
  c.feasible = true → ∀ k ∈ p.grammar.constraints, ∀ path s, c.tree.get? path = some s →
    (∃ s, b.tree.get? path = some s) ∨ owed path ∨ (k, path) ∈ c.announced

-- What work does to a branch: moves that keep every constraint attended to, and show the
-- positions they open.
structure Step (p : Problem) (T : Tree → Prop) (busy : Watch → Prop) (owed : Path → Prop)
    (b c : Branch) : Prop where
  moves : Moves p T b c
  shown : Shown p owed b c
  attended : c.feasible = true → Attended p busy b → Attended p busy c

namespace Step

variable {owed owed' : Path → Prop}

theorem refl (b : Branch) : Step p T busy owed b b :=
  ⟨.refl, fun _ _ _ _ s hs => Or.inl ⟨s, hs⟩, fun _ h => h⟩

theorem trans (h : Step p T busy owed b c) (h' : Step p T busy owed c d) :
    Step p T busy owed b d := by
  have hf (hd : d.feasible = true) : c.feasible = true := h'.moves.proceeds.feasible hd
  refine ⟨h.moves.trans h'.moves, fun hd k hk path s hs => ?_,
    fun hd ha => h'.attended hd (h.attended (hf hd) ha)⟩
  rcases h'.shown hd k hk path s hs with ⟨v, hv⟩ | ho | hn
  · rcases h.shown (hf hd) k hk path v hv with hb | ho | hn
    · exact Or.inl hb
    · exact Or.inr (Or.inl ho)
    · exact Or.inr (Or.inr (h'.moves.proceeds.announced hn))
  · exact Or.inr (Or.inl ho)
  · exact Or.inr (Or.inr hn)

theorem owe (h : Step p T busy owed b c) (hsub : ∀ path, owed path → owed' path) :
    Step p T busy owed' b c :=
  ⟨h.moves, fun hc k hk path s hs => (h.shown hc k hk path s hs).imp_right (Or.imp_left (hsub path)),
    h.attended⟩

-- A move that leaves the tree alone.
theorem of_move (h : Move p T b c) (htree : c.tree = b.tree)
    (ha : c.feasible = true → Attended p busy b → Attended p busy c) : Step p T busy owed b c :=
  ⟨.single h, fun _ _ _ _ s hs => Or.inl ⟨s, htree ▸ hs⟩, ha⟩

end Step

-- How work halts: with no rules left to compare in an open position, with a number that is too large
-- to be set against infinity, or out of the steps it was given, which then are within a limit that
-- depends on the depth of the tree.
def Stops (p : Problem) (T : Tree → Prop) (limit : Nat → Prop) (b : Branch) (halt : Halt)
    (c : Branch) : Prop :=
  Proceeds p T b c ∧ match halt with
    | .fault fault => fault = .emptyDomain ∧
        ∃ path category d, c.tree.get? path = some (.hole category d) ∧ d.isEmpty = true
    | .overflow => p.Strained c.tree
    | .outOfFuel => ∀ D, c.tree.depth ≤ D → limit D

theorem Stops.of_proceeds {limit limit' : Nat → Prop} {halt : Halt} (h : Stops p T limit c halt d)
    (hm : Proceeds p T b c) (hl : ∀ D, c.tree.depth ≤ D → limit D → limit' D) :
    Stops p T limit' b halt d := by
  refine ⟨hm.trans h.1, ?_⟩
  have hdepth := Proceeds.depth_le h.1
  cases halt with
  | fault fault => exact h.2
  | overflow => exact h.2
  | outOfFuel => exact fun D hD => hl D (Nat.le_trans hdepth hD) (h.2 D hD)

end TreeSearch
