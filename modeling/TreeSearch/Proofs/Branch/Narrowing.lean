import TreeSearch.Proofs.Branch.Attended
import TreeSearch.Proofs.Branch.Run
import TreeSearch.Proofs.Tree.Order

namespace TreeSearch

-- What may be assumed of a branch before any work.
structure Branch.Ready (p : Problem) (T : Tree → Prop) (b : Branch) : Prop where
  sound : b.Sound p
  loyal : b.Loyal T

variable {p : Problem} {T : Tree → Prop} {busy : Watch → Prop} {owed : Path → Prop}
  {limit : Nat → Prop} {b c : Branch} {α β : Type}

theorem Proceeds.ready (h : Proceeds p T b c) (hb : b.Ready p T) : c.Ready p T :=
  ⟨h.sound hb.sound, h.loyal hb.sound hb.loyal⟩

theorem Step.ready (h : Step p T busy owed b c) (hb : b.Ready p T) : c.Ready p T :=
  h.moves.proceeds.ready hb

-- Work that takes a step, or halts as it may.
def BranchM.Does (p : Problem) (T : Tree → Prop) (busy : Watch → Prop) (owed : Path → Prop)
    (limit : Nat → Prop) (work : BranchM α) (b : Branch) (Q : α → Branch → Prop) : Prop :=
  work.Meets b (fun a c => Step p T busy owed b c ∧ Q a c) (Stops p T limit b)

namespace BranchM

theorem meets_reckon_bind {P : Prop} {result : Except Halt β} {a : β} {next : β → BranchM α}
    {Q : α → Branch → Prop} {H : Halt → Branch → Prop} (ha : ReckonsUnless P result a)
    (hover : P → H .overflow b) (hn : (next a).Meets b Q H) : (reckon result >>= next).Meets b Q H := by
  rw [meets_bind]
  rcases ha with ha | ⟨ho, hp⟩
  · exact (meets_reckon ha).mpr hn
  · exact (meets_reckon_error ho).mpr (hover hp)

section Rules

variable {Q : α → Branch → Prop}

theorem Does.pure {a : α} (h : Q a b) : Does p T busy owed limit (pure a) b Q := ⟨.refl b, h⟩

theorem Does.mono {work : BranchM α} {Q' : α → Branch → Prop} {limit' : Nat → Prop}
    (h : Does p T busy owed limit work b Q)
    (hq : ∀ a c, Step p T busy owed b c → Q a c → Q' a c)
    (hl : ∀ D, b.tree.depth ≤ D → limit D → limit' D) : Does p T busy owed limit' work b Q' :=
  Meets.mono h (fun a c hc => ⟨hc.1, hq a c hc.1 hc.2⟩) fun _ _ hs => hs.of_proceeds .refl hl

theorem Does.post {work : BranchM α} {Q' : α → Branch → Prop}
    (h : Does p T busy owed limit work b Q)
    (hq : ∀ a c, Step p T busy owed b c → Q a c → Q' a c) : Does p T busy owed limit work b Q' :=
  h.mono hq fun _ _ hl => hl

theorem Does.owe {work : BranchM α} {owed' : Path → Prop} (h : Does p T busy owed limit work b Q)
    (hsub : ∀ path, owed path → owed' path) : Does p T busy owed' limit work b Q :=
  Meets.mono h (fun _ _ hc => ⟨hc.1.owe hsub, hc.2⟩) fun _ _ hs => hs

theorem Does.bind {work : BranchM β} {next : β → BranchM α} {R : β → Branch → Prop}
    (h : Does p T busy owed limit work b R)
    (hn : ∀ a c, Step p T busy owed b c → R a c → Does p T busy owed limit (next a) c Q) :
    Does p T busy owed limit (work >>= next) b Q := by
  unfold Does
  rw [meets_bind]
  refine Meets.mono h (fun a c hc => ?_) fun _ _ hs => hs
  exact Meets.mono (hn a c hc.1 hc.2) (fun _ _ hd => ⟨hc.1.trans hd.1, hd.2⟩)
    fun _ _ hs => hs.of_proceeds hc.1.moves.proceeds fun _ _ hl => hl

theorem does_get_bind {next : Branch → BranchM α} :
    Does p T busy owed limit (get >>= next) b Q ↔ Does p T busy owed limit (next b) b Q := by
  unfold Does
  rw [meets_bind, meets_get]

theorem does_nodeAt_bind {path : Path} {s : Tree} {next : Tree → BranchM α}
    (hs : b.tree.get? path = some s) :
    Does p T busy owed limit (nodeAt path >>= next) b Q ↔
      Does p T busy owed limit (next s) b Q := by
  unfold Does
  rw [meets_bind, meets_nodeAt hs]

theorem does_attempt_bind {result : Except Fault β} {a : β} {next : β → BranchM α}
    (ha : result = .ok a) :
    Does p T busy owed limit (attempt result >>= next) b Q ↔
      Does p T busy owed limit (next a) b Q := by
  unfold Does
  rw [meets_bind, meets_attempt ha]

-- Numbers are worked out before anything is done with them.
theorem Does.reckon_bind {result : Except Halt β} {a : β} {next : β → BranchM α}
    (ha : ReckonsUnless (p.Strained b.tree) result a)
    (hn : Does p T busy owed limit (next a) b Q) : Does p T busy owed limit (reckon result >>= next) b Q := by
  exact meets_reckon_bind ha (fun hstrained => ⟨.refl, hstrained⟩) hn

theorem does_isFeasible_bind {next : Bool → BranchM α} :
    Does p T busy owed limit (isFeasible >>= next) b Q ↔
      Does p T busy owed limit (next b.feasible) b Q := by
  unfold Does
  rw [meets_bind, meets_isFeasible]

theorem Does.whenFeasible {work : BranchM Unit} {Q : Unit → Branch → Prop}
    (h : b.feasible = true → Does p T busy owed limit work b Q)
    (hn : b.feasible = false → Q () b) : Does p T busy owed limit (whenFeasible work) b Q := by
  unfold Does
  rw [meets_whenFeasible]
  exact ⟨h, fun hf => ⟨.refl b, hn hf⟩⟩

-- One move.
theorem Does.modify {f : Branch → Branch} {Q : PUnit → Branch → Prop}
    (h : Step p T busy owed b (f b)) (hq : Q ⟨⟩ (f b)) :
    Does p T busy owed limit (modify f) b Q := ⟨h, hq⟩

-- Giving up a branch that none of the trees in question is left in.
theorem Does.fail {Q : PUnit → Branch → Prop} (h : ∀ t, T t → ¬ b.Covers t)
    (hq : Q ⟨⟩ b.fail) : Does p T busy owed limit fail b Q :=
  ⟨.of_move (.fail h) rfl nofun, hq⟩

theorem Does.forM {work : β → BranchM Unit} {l : List β} (I : List β → Branch → Prop) (h : I l b)
    (hstep : ∀ a rest c, Step p T busy owed b c → I (a :: rest) c →
      Does p T busy owed limit (work a) c fun _ d => I rest d) :
    Does p T busy owed limit (l.forM work) b fun _ c => I [] c := by
  refine meets_forM (fun rest c => Step p T busy owed b c ∧ I rest c) ?_ ⟨.refl b, h⟩
  rintro a rest c ⟨hc, hi⟩
  exact Meets.mono (hstep a rest c hc hi) (fun _ _ hd => ⟨hc.trans hd.1, hd.2⟩)
    fun _ _ hs => hs.of_proceeds hc.moves.proceeds fun _ _ hl => hl

-- What work does for one member of a list lasts, so in the end it is done for all of them.
theorem Does.forM_each {work : β → BranchM Unit} {l : List β} (J : Branch → Prop)
    (P : β → Branch → Prop) (hj : J b)
    (hlasts : ∀ a c d, Step p T busy owed c d → d.feasible = true → P a c → P a d)
    (hstep : ∀ a ∈ l, ∀ c, Step p T busy owed b c → J c →
      Does p T busy owed limit (work a) c fun _ d => J d ∧ (d.feasible = true → P a d)) :
    Does p T busy owed limit (l.forM work) b fun _ c =>
      J c ∧ (c.feasible = true → ∀ a ∈ l, P a c) := by
  refine (Does.forM (fun rest c => (∀ a ∈ rest, a ∈ l) ∧ J c ∧
    (c.feasible = true → ∀ a ∈ l, a ∈ rest ∨ P a c)) ⟨fun _ h => h, hj, fun _ a ha => Or.inl ha⟩ ?_).post
      fun _ c _ ⟨_, hj, hdone⟩ => ⟨hj, fun hf a ha => (hdone hf a ha).resolve_left nofun⟩
  rintro a rest c hc ⟨hrest, hj, hdone⟩
  refine (hstep a (hrest a List.mem_cons_self) c hc hj).post fun _ d hd ⟨hjd, hnow⟩ =>
    ⟨fun x hx => hrest x (List.mem_cons_of_mem a hx), hjd, fun hf x hx => ?_⟩
  rcases hdone (hd.moves.proceeds.feasible hf) x hx with hx | hx
  · rcases List.mem_cons.mp hx with rfl | hx
    · exact Or.inr (hnow hf)
    · exact Or.inl hx
  · exact Or.inr (hlasts x c d hd hf hx)

theorem Does.forM_whenFeasible {work : β → BranchM Unit} {l : List β} (J : Branch → Prop)
    (P : β → Branch → Prop) (hj : J b)
    (hlasts : ∀ a c d, Step p T busy owed c d → d.feasible = true → P a c → P a d)
    (hstep : ∀ a ∈ l, ∀ c, Step p T busy owed b c → J c →
      Does p T busy owed limit (work a) c fun _ d => J d ∧ (d.feasible = true → P a d)) :
    Does p T busy owed limit (l.forM fun a => BranchM.whenFeasible (work a)) b fun _ c =>
      J c ∧ (c.feasible = true → ∀ a ∈ l, P a c) :=
  .forM_each J P hj hlasts fun a ha c hc hjc => .whenFeasible (fun _ => hstep a ha c hc hjc)
    fun hf => ⟨hjc, fun hf' => nomatch hf.symm.trans hf'⟩

-- Work that shows the positions it opens after all.
theorem Does.settle {work : BranchM α}
    (h : Does p T busy (fun _ => True) limit work b fun a c => Shown p owed b c ∧ Q a c) :
    Does p T busy owed limit work b Q :=
  Meets.mono h (fun _ _ hc => ⟨⟨hc.1.moves, hc.2.1, hc.1.attended⟩, hc.2.2⟩) fun _ _ hs => hs

theorem Does.forM_singleton {work : β → BranchM Unit} {a : β} {Q : Branch → Prop}
    (h : Does p T busy owed limit (work a) b fun _ => Q) :
    Does p T busy owed limit ([a].forM work) b fun _ => Q :=
  h.bind fun _ _ _ hq => .pure hq

end Rules

end BranchM

section Edits

variable {path : Path} {category : String} {rules kept : Domain} {tree : Tree}

-- A hole that loses rules opens no position.
theorem Step.narrowed (hb : b.Sound p) (unifying : Bool) (statistics : Statistics)
    (replaced : Tree.Replaced (.hole category rules) (.hole category kept) path b.tree tree)
    (change : Edit p path (.hole category rules) (.hole category kept))
    (h : ∀ t, T t → b.Covers t → ∃ s, t.get? path = some s ∧ s.Refines (.hole category kept)) :
    Step p T busy owed b ({ b with tree, statistics }.notify unifying path) := by
  refine ⟨.single (.edit unifying statistics change replaced h), fun _ _ _ q s hs => Or.inl ?_,
    fun _ ha => ha.edit unifying statistics hb change replaced⟩
  rw [Branch.notify_tree] at hs
  rcases replaced.get?_of_new hs with hv | ⟨rest, -, hr, hh⟩
  · exact hv
  · exact absurd (Tree.get?_hole_eq_some hh).1 hr

end Edits

-- The rules that a position has, or can still take.
def Tree.Takes (s : Tree) (n : Nat) : Prop :=
  match s with
  | .node r _ => r = n
  | s => n ∈ s.domain?.getD ∅

instance (s : Tree) (n : Nat) : Decidable (s.Takes n) :=
  match s with
  | .node r _ => inferInstanceAs (Decidable (r = n))
  | .hole _ rules => inferInstanceAs (Decidable (n ∈ rules))
  | .choice rules _ => inferInstanceAs (Decidable (n ∈ rules))
  | .var _ => inferInstanceAs (Decidable (n ∈ (∅ : Domain)))

-- A position takes no other rules than those of a mask.
def Masked (t : Tree) (path : Path) (mask : Mask) : Prop :=
  ∃ s, t.get? path = some s ∧ ∀ n, s.Takes n → n ∈ mask

theorem Tree.Refines.takes {s t : Tree} (h : s.Refines t) {n : Nat} (hn : s.Takes n) : t.Takes n := by
  cases h with
  | narrowed sub => exact sub n hn
  | filled mem =>
      obtain rfl := Int.ofNat_inj.mp hn
      exact mem
  | node => exact hn
  | choice => exact hn
  | var => exact hn

theorem Masked.refines {s t : Tree} {path : Path} {mask : Mask} (h : Masked t path mask)
    (hr : s.Refines t) : Masked s path mask := by
  obtain ⟨v, hv, hmask⟩ := h
  obtain ⟨w, hw, hwv⟩ := hr.get? hv
  exact ⟨w, hw, fun n hn => hmask n (hwv.takes hn)⟩

theorem Masked.rootIn {u t : Tree} {path : Path} {mask : Mask} (h : Masked t path mask)
    (hu : p.Completes u t) : u.RootIn path mask := by
  obtain ⟨v, hv, hmask⟩ := h
  obtain ⟨w, hw, hwv⟩ := hu.refines.get? hv
  obtain ⟨n, cs, hn⟩ := hu.root_nat hv
  obtain rfl := Option.some.inj (hw.symm.trans hn)
  exact ⟨n, cs, hn, hmask n (hwv.takes rfl)⟩

-- Narrowing decides no open position, and retires no constraint.
structure Narrowed (b c : Branch) : Prop where
  skeleton : c.tree.skeleton = b.tree.skeleton
  active : ∀ w ∈ b.active, w ∈ c.active

theorem Narrowed.refl (b : Branch) : Narrowed b b := ⟨rfl, fun _ h => h⟩

theorem Narrowed.trans {d : Branch} (h : Narrowed b c) (h' : Narrowed c d) : Narrowed b d :=
  ⟨h'.skeleton.trans h.skeleton, fun w hw => h'.active w (h.active w hw)⟩

namespace BranchM

variable {unifying : Bool} {path : Path} {mask : Mask} {s : Tree}

section Runs

variable {Q : Unit → Branch → Prop} {H : Halt → Branch → Prop} {expected : Option String}

theorem meets_edit {old new : Tree} {count : Statistics → Statistics} (hs : b.tree.get? path = some old)
    (h : ∀ tree statistics, Tree.Replaced old new path b.tree tree →
      Q () ({ b with tree, statistics }.notify unifying path)) :
    (edit unifying path new count).Meets b Q H := by
  obtain ⟨tree, htree, hreplaced⟩ := Tree.replace_of_get? hs new
  unfold edit
  rw [meets_bind, meets_get, meets_bind, meets_attempt htree]
  exact h tree _ hreplaced

-- A position that takes no other rules than those of the mask stays as it is, and one that takes
-- none of them ends the branch. Otherwise it is a hole and keeps some of its rules.
theorem meets_narrowOne_at (hs : b.tree.get? path = some s)
    (hplace : s.Concrete)
    (hkept : (∀ n, s.Takes n → n ∈ mask) → Q () b) (hlost : (∀ n, s.Takes n → n ∉ mask) → Q () b.fail)
    (hnarrowed : ∀ category rules tree statistics, s = .hole category rules →
      rules.restrict mask ≠ rules → (rules.restrict mask).isEmpty = false →
        Tree.Replaced s (.hole category (rules.restrict mask)) path b.tree tree →
          Q () ({ b with tree, statistics }.notify unifying path)) :
    (narrowOne unifying mask path).Meets b Q H := by
  unfold narrowOne
  rw [meets_bind, meets_nodeAt hs]
  cases hplace with
  | node n cs =>
      have honly (m : Nat) (hm : (Tree.node n cs).Takes m) : m = n := (Int.ofNat_inj.mp hm).symm
      simp only
      rw [meets_bind, meets_attempt (Mask.has_natCast mask n)]
      by_cases hn : n ∈ mask
      · simp only [hn, decide_true, Bool.not_true, Bool.false_eq_true, if_false]
        exact hkept fun m hm => honly m hm ▸ hn
      · simp only [hn, decide_false, Bool.not_false, if_true]
        exact hlost fun m hm => honly m hm ▸ hn
  | hole category rules =>
      simp only
      by_cases hsame : rules.restrict mask = rules
      · rw [if_pos hsame]
        refine hkept fun n hn => ?_
        have hn : n ∈ rules := hn
        exact ((Domain.mem_restrict n rules mask).mp (hsame.symm ▸ hn)).2
      · rw [if_neg hsame]
        by_cases hempty : (rules.restrict mask).isEmpty = true
        · rw [if_pos hempty]
          refine hlost fun n hn hm => ?_
          exact (Domain.isEmpty_iff _).mp hempty n ((Domain.mem_restrict n rules mask).mpr ⟨hn, hm⟩)
        · rw [if_neg hempty]
          exact meets_edit hs fun tree statistics =>
            hnarrowed category rules tree statistics rfl hsame (by simpa using hempty)

theorem meets_narrowOne (hs : b.tree.get? path = some s) (hw : p.grammar.WellFormed expected s)
    (hkept : (∀ n, s.Takes n → n ∈ mask) → Q () b) (hlost : (∀ n, s.Takes n → n ∉ mask) → Q () b.fail)
    (hnarrowed : ∀ category rules tree statistics, s = .hole category rules →
      Edit p path s (.hole category (rules.restrict mask)) →
        Tree.Replaced s (.hole category (rules.restrict mask)) path b.tree tree →
          Q () ({ b with tree, statistics }.notify unifying path)) :
    (narrowOne unifying mask path).Meets b Q H := by
  apply meets_narrowOne_at hs hw.concrete hkept hlost
  rintro category rules tree statistics rfl hsame hopen
  exact hnarrowed category rules tree statistics rfl
    (.narrowed (rules.restrict_subset mask) hsame hopen)

end Runs

-- A tree that becomes of a branch takes at a position only what the branch still takes there.
theorem rootIn_takes {t : Tree} (ht : b.Covers t) (hs : b.tree.get? path = some s)
    (h : t.RootIn path mask) : ∃ (n : Nat) (cs : List Tree), t.get? path = some (.node n cs) ∧
      s.Takes n ∧ n ∈ mask := by
  obtain ⟨n, cs, hn, hm⟩ := h
  obtain ⟨v, hv, hr⟩ := ht.2.get? hs
  obtain rfl := Option.some.inj (hn.symm.trans hv)
  exact ⟨n, cs, hn, hr.takes rfl, hm⟩

theorem does_narrowOne (hb : b.Ready p T) (hs : b.tree.get? path = some s)
    (h : ∀ t, T t → b.Covers t → t.RootIn path mask) :
    Does p T busy owed limit (narrowOne unifying mask path) b fun _ c =>
      Narrowed b c ∧ (c.feasible = true → Masked c.tree path mask) := by
  refine meets_narrowOne hs (hb.sound.wellFormed.get? hs) (fun hkept => ?_) (fun hlost => ?_) ?_
  · exact ⟨.refl b, .refl b, fun _ => ⟨s, hs, hkept⟩⟩
  · refine ⟨.of_move (.fail fun t ht hc => ?_) rfl nofun, ⟨rfl, fun _ h => h⟩, nofun⟩
    obtain ⟨n, cs, -, htakes, hn⟩ := rootIn_takes hc hs (h t ht hc)
    exact hlost n htakes hn
  · rintro category rules tree statistics rfl hchange hreplaced
    refine ⟨.narrowed hb.sound _ _ hreplaced hchange fun t ht hc => ?_, ⟨?_, fun w hw => ?_⟩, fun _ => ?_⟩
    · obtain ⟨n, cs, hn, htakes, hm⟩ := rootIn_takes hc hs (h t ht hc)
      exact ⟨_, hn, .filled ((Domain.mem_restrict n rules mask).mpr ⟨htakes, hm⟩)⟩
    · rw [Branch.notify_tree]
      exact hreplaced.skeleton_eq rfl
    · rw [Branch.mem_notify_active]
      exact Or.inl hw
    · rw [Branch.notify_tree]
      exact ⟨_, hreplaced.get?_new, fun n hn => ((Domain.mem_restrict n rules mask).mp hn).2⟩

-- Narrowing a path narrows its class, since the trees in question have equal subtrees there.
theorem does_narrow (hb : b.Ready p T) (hs : b.tree.get? path = some s)
    (h : ∀ t, T t → b.Covers t → t.RootIn path mask) :
    Does p T busy owed limit (narrow unifying path mask) b fun _ c =>
      Narrowed b c ∧ (c.feasible = true → Masked c.tree path mask) := by
  unfold narrow
  rw [does_nodeAt_bind hs, does_get_bind]
  refine (Does.forM_whenFeasible (Narrowed b) (fun member c => Masked c.tree member mask) (.refl b)
    (fun _ _ _ hd _ h => h.refines hd.moves.proceeds.refines) fun member hm c hc hnarrowed => ?_).post
      fun _ c _ ⟨hnarrowed, hmasked⟩ =>
        ⟨hnarrowed, fun hf => hmasked hf path (b.classes.mem_members_self path)⟩
  obtain ⟨v, hv⟩ := hc.moves.proceeds.placed (hb.sound.member hs hm)
  refine (does_narrowOne (hc.ready hb) hv fun t ht hct => ?_).post
    fun _ d _ ⟨hsame, hmask⟩ => ⟨hnarrowed.trans hsame, hmask⟩
  have hbt := hc.moves.proceeds.of_covers hct
  obtain ⟨n, cs, hn, hmem⟩ := h t ht hbt
  exact ⟨n, cs, ((hb.loyal t ht hbt).members hm) ▸ hn, hmem⟩

theorem does_strike {rule : Int} (hr : 0 ≤ rule) (hb : b.Ready p T)
    (hs : b.tree.get? path = some s)
    (h : ∀ t, T t → b.Covers t → (Action.strike path rule).Met t) :
    Does p T busy owed limit (strike unifying path rule) b fun _ c =>
      c.feasible = true → ∀ u, p.Completes u c.tree → (Action.strike path rule).Met u := by
  obtain ⟨k, rfl⟩ := Int.eq_ofNat_of_zero_le hr
  have hmet (u : Tree) : (Action.strike path k).Met u ↔ u.RootIn path (.except {k}) := by
    constructor
    · rintro ⟨n, cs, hn, hne⟩
      exact ⟨n, cs, hn, fun hm => hne (congrArg Int.ofNat ((Domain.mem_singleton n k).mp hm))⟩
    · rintro ⟨n, cs, hn, hm⟩
      exact ⟨n, cs, hn, fun he => hm ((Domain.mem_singleton n k).mpr (Int.ofNat_inj.mp he))⟩
  unfold strike
  rw [does_attempt_bind (Domain.single_natCast k)]
  simp only [hmet] at h ⊢
  exact (does_narrow hb hs h).post fun _ _ _ hq hf u hu => (hq.2 hf).rootIn hu

end BranchM

end TreeSearch
