import TreeSearch.Branch.Fixpoint
import TreeSearch.Proofs.Branch.Effort

namespace TreeSearch

variable {p : Problem} {T : Tree → Prop} {limit : Nat → Prop} {b c d : Branch} {α β : Type}

-- What an operation does to a branch.
structure Advance (p : Problem) (T : Tree → Prop) (b c : Branch) : Prop where
  proceeds : Proceeds p T b c
  shown : Shown p (fun _ => False) b c
  attended : c.feasible = true → Attended p (fun _ => False) b → Attended p (fun _ => False) c

theorem Step.advance (h : Step p T (fun _ => False) (fun _ => False) b c) : Advance p T b c :=
  ⟨h.moves.proceeds, h.shown, h.attended⟩

namespace Advance

theorem refl (b : Branch) : Advance p T b b := (Step.refl b).advance

theorem trans (h : Advance p T b c) (h' : Advance p T c d) : Advance p T b d := by
  refine ⟨h.proceeds.trans h'.proceeds, fun hd k hk path s hs => ?_,
    fun hd ha => h'.attended hd (h.attended (h'.proceeds.feasible hd) ha)⟩
  rcases h'.shown hd k hk path s hs with ⟨v, hv⟩ | ho | hn
  · exact (h.shown (h'.proceeds.feasible hd) k hk path v hv).imp_right
      (Or.imp_right fun hn => h'.proceeds.announced hn)
  · exact ho.elim
  · exact Or.inr (Or.inr hn)

end Advance

namespace BranchM

-- Work that is a whole operation, or halts as it may.
def Operates (p : Problem) (T : Tree → Prop) (limit : Nat → Prop) (work : BranchM α) (b : Branch)
    (Q : α → Branch → Prop) : Prop :=
  work.Meets b (fun a c => Advance p T b c ∧ Q a c) (Stops p T limit b)

variable {Q : α → Branch → Prop}

-- Work that goes on in a branch that an operation has led to.
theorem Operates.after {work : BranchM α} {limit' : Nat → Prop} {Q' : α → Branch → Prop}
    (h : Operates p T limit work c Q) (hc : Advance p T b c)
    (hq : ∀ a d, Advance p T c d → Q a d → Q' a d)
    (hl : ∀ D, c.tree.depth ≤ D → limit D → limit' D) :
    work.Meets c (fun a d => Advance p T b d ∧ Q' a d) (Stops p T limit' b) :=
  Meets.mono h (fun a d hd => ⟨hc.trans hd.1, hq a d hd.1 hd.2⟩)
    fun _ _ hs => hs.of_proceeds hc.proceeds hl

theorem Operates.mono {work : BranchM α} {limit' : Nat → Prop} {Q' : α → Branch → Prop}
    (h : Operates p T limit work b Q) (hq : ∀ a c, Advance p T b c → Q a c → Q' a c)
    (hl : ∀ D, b.tree.depth ≤ D → limit D → limit' D) : Operates p T limit' work b Q' :=
  h.after (.refl b) hq hl

end BranchM

-- Nothing but the constraint that was taken off the queue has to be attended to.
theorem Attended.taken {w : Watch} {queue : Worklist Watch} (h : Attended p (fun _ => False) b)
    (hpending : ∀ v ∈ b.queue.pending, v = w ∨ v ∈ queue.pending) :
    Attended p (· = w) { b with queue } := by
  refine ⟨h.announced, fun v hv => (h.retired v hv).imp_left False.elim, fun v hv => ?_⟩
  rcases h.active v hv with hbusy | hq | hquiet
  · exact hbusy.elim
  · exact (hpending v hq).imp_right Or.inl
  · exact Or.inr (Or.inr hquiet)

-- Nothing is left to do about a queue that has run empty.
theorem Attended.idle {queue : Worklist Watch} (h : Attended p (fun _ => False) b)
    (hidle : b.queue.pending = []) : Attended p (fun _ => False) { b with queue } := by
  refine ⟨h.announced, h.retired, fun v hv => Or.inr (Or.inr ?_)⟩
  rcases h.active v hv with hbusy | hq | hquiet
  · exact hbusy.elim
  · rw [hidle] at hq
    cases hq
  · exact hquiet

-- Some edit has happened, whatever the depth that the tree may have.
def Lighter (p : Problem) (b c : Branch) : Prop :=
  ∀ D, c.tree.depth ≤ D → p.weight D c.tree < p.weight D b.tree

theorem Proceeds.lighter (h : Proceeds p T b c) (hne : c.tree ≠ b.tree) : Lighter p b c :=
  fun _ hD => (h.weight_lt hD).resolve_left hne

theorem Lighter.of_proceeds {d : Branch} (h : Lighter p b c) (hd : Proceeds p T c d) : Lighter p b d :=
  fun D hD => Nat.lt_of_le_of_lt (hd.weight_le hD) (h D (Nat.le_trans hd.depth_le hD))

-- The smallest completion of a tree is within the limit.
def Problem.Sized (p : Problem) (t : Tree) : Prop :=
  ∀ limit ∈ p.bounds.maxSize, (p.leastSize t).within limit = true

theorem Problem.Sized.exists_finite {t : Tree} (h : p.Sized t) (hlimit : p.bounds.maxSize ≠ none) :
    ∃ n, p.leastSize t = .finite n := by
  obtain ⟨limit, hl⟩ := Option.ne_none_iff_exists'.mp hlimit
  have hwithin := h limit hl
  cases hleast : p.leastSize t with
  | finite n => exact ⟨n, rfl⟩
  | infinite =>
      rw [hleast] at hwithin
      cases hwithin

-- What the limits leave to an open position can be worked out, unless the tables are out of reach.
theorem Problem.Sized.fitting_reckons {t : Tree} (h : p.Sized t) (hg : p.grammar.Regular) {path : Path}
    {category : String} {d : Domain} (ht : t.get? path = some (.hole category d)) :
    ReckonsUnless (¬ p.InRange) (p.fitting (p.leastSize t) path (p.grammar.analysis.leastSize d))
      (p.fittingRules (p.leastSize t) path (p.grammar.analysis.leastSize d)) :=
  Problem.fitting_reckons hg fun hlimit => by
    obtain ⟨n, hn⟩ := h.exists_finite hlimit
    obtain ⟨k, hk⟩ := Problem.exists_leastSize_eq ht hn
    exact ⟨n, k, hn, hk⟩

namespace BranchM

section Tightening

-- The limits are applied hole after hole, by what was known before the first of them.
theorem does_tightenHoles (hg : p.grammar.Regular) (hT : ∀ t, T t → p.Solves t) {start : Branch}
    (hb : b.Ready p T) (hf : b.feasible = true) (hstart : Proceeds p T start b)
    (hsized : p.Sized start.tree) {holes : List (Path × Cost)} {changed : Bool}
    (hholes : ∀ x ∈ holes, ∃ category rules, start.tree.get? x.1 = some (.hole category rules) ∧
      x.2 = p.grammar.analysis.leastSize rules) :
    Settles p T limit (tightenHoles p (p.leastSize start.tree) holes changed) b fun again c =>
      again = true ∧ c.feasible = true ∧ (changed = true ∨ Lighter p b c) ∨
        again = false ∧ (c.feasible = true → changed = false ∧ c = b) := by
  induction holes generalizing b changed with
  | nil =>
      cases changed with
      | true => exact .pure (Or.inl ⟨rfl, hf, Or.inl rfl⟩)
      | false => exact .pure (Or.inr ⟨rfl, fun _ => ⟨rfl, rfl⟩⟩)
  | cons x holes ih =>
      obtain ⟨path, hole⟩ := x
      obtain ⟨category, rules, hs, hhole⟩ := hholes _ List.mem_cons_self
      have hhole : hole = p.grammar.analysis.leastSize rules := hhole
      subst hhole
      have hrest := fun x hx => hholes x (List.mem_cons_of_mem _ hx)
      obtain ⟨v, hv, hvs⟩ := hstart.refines.get? hs
      unfold Settles
      rw [tightenHoles]
      refine .reckon_bind ((hsized.fitting_reckons hg hs).mono Or.inl) ?_
      rw [does_nodeAt_bind hv]
      cases hvs with
      | filled => exact ih hb hf hstart hrest
      | @narrowed _ left _ sub =>
          simp only
          generalize hfitting : p.fittingRules (p.leastSize start.tree) path (p.grammar.analysis.leastSize rules) = fitting
          by_cases hempty : (left \ fitting).isEmpty = true
          · rw [if_pos hempty]
            exact ih hb hf hstart hrest
          · rw [if_neg hempty]
            refine Does.bind (does_narrow hb hv fun t ht hc => ?_) fun _ c hc ⟨_, hmask⟩ => ?_
            · have hu := (hT t ht).completes (hstart.of_covers hc)
              obtain ⟨n, cs, hn⟩ := hu.root_nat hs
              exact ⟨n, cs, hn, hfitting ▸ Problem.mem_fittingRules hg hu (hT t ht).admits hs hn⟩
            · rw [does_isFeasible_bind]
              by_cases hfc : c.feasible = true
              · rw [if_pos hfc]
                -- Something was struck, so the tree is another one.
                have hlighter : Lighter p b c := by
                  refine hc.moves.proceeds.lighter fun he => ?_
                  obtain ⟨s, hs, hall⟩ := hmask hfc
                  rw [he, hv] at hs
                  obtain rfl := Option.some.inj hs
                  exact hempty ((Domain.isEmpty_sdiff left fitting).mpr fun r hr => hall r hr)
                refine (ih (hc.ready hb) hfc (hstart.trans hc.moves.proceeds) hrest).post
                  fun again d hd hq => ?_
                rcases hq with ⟨hagain, hfd, -⟩ | ⟨hagain, hsame⟩
                · exact Or.inl ⟨hagain, hfd, Or.inr (hlighter.of_proceeds hd.moves.proceeds)⟩
                · exact Or.inr ⟨hagain, fun hfd => absurd (hsame hfd).1 nofun⟩
              · rw [if_neg hfc]
                exact .pure (Or.inr ⟨rfl, fun h => absurd h hfc⟩)

theorem any_not_within_iff (t : Tree) :
    (Option.any (fun limit : Int => !(p.leastSize t).within limit)
      (do let n ← p.bounds.maxSize; pure (n : Int))) = true ↔ ¬ p.Sized t := by
  unfold Problem.Sized
  cases p.bounds.maxSize <;> simp

-- The limits give a branch up when its smallest completion is too large, and strike what does
-- not fit.
theorem does_tighten (hg : p.grammar.Regular) (hT : ∀ t, T t → p.Solves t) (hb : b.Ready p T)
    (hf : b.feasible = true) :
    Settles p T limit (tighten p) b fun again c =>
      again = true ∧ c.feasible = true ∧ Lighter p b c ∨
        again = false ∧ (c.feasible = true → c = b ∧ p.Sized b.tree) := by
  unfold tighten Settles
  split
  · rename_i hnone
    refine .pure (Or.inr ⟨rfl, fun _ => ⟨rfl, fun limit hl => ?_⟩⟩)
    simp [Option.isNone_iff_eq_none.mp hnone.1] at hl
  · rw [does_get_bind]
    refine .reckon_bind ((Problem.measured_reckons hg).mono Or.inl)
      (.reckon_bind (Problem.measure_reckons hg b.tree) ?_)
    by_cases hsized : p.Sized b.tree
    · rw [if_neg (fun h => (any_not_within_iff b.tree).mp h hsized)]
      refine (does_tightenHoles hg hT hb hf .refl hsized fun x hx => ?_).post fun again c _ hq => ?_
      · obtain ⟨⟨path, category, rules⟩, hin, rfl⟩ := List.mem_map.mp hx
        exact ⟨category, rules, (Tree.mem_holes b.tree path category rules).mp hin, rfl⟩
      · rcases hq with ⟨ha, hfc, hchanged | hlighter⟩ | ⟨ha, hsame⟩
        · cases hchanged
        · exact Or.inl ⟨ha, hfc, hlighter⟩
        · exact Or.inr ⟨ha, fun hfc => ⟨(hsame hfc).2, hsized⟩⟩
    · rw [if_pos ((any_not_within_iff b.tree).mpr hsized)]
      refine Does.bind (R := fun _ c => c.feasible = false) (.fail (fun t ht hc => hsized ?_) rfl)
        fun _ c _ hfc => .pure (Or.inr ⟨rfl, fun h => absurd (hfc.symm.trans h) nofun⟩)
      intro limit hl
      have hsize := (hT t ht).admits.2 limit hl
      exact (Problem.leastSize_fits hg ((hT t ht).completes hc)).within (by omega)

end Tightening

section Propagating

variable {w : Watch}

theorem meets_pop {Q : Option Watch → Branch → Prop} {H : Halt → Branch → Prop} :
    pop.Meets b Q H ↔ Q b.queue.pop.1 b.popped := Iff.rfl

theorem does_propagateQueued (hg : p.grammar.Regular) (hT : ∀ t, T t → p.Solves t) (steps : Nat)
    (hb : b.Ready p T) (hw : w ∈ b.active) :
    Does p T (· = w) (fun _ => False) (fun D => steps ≤ b.ceiling p D) (propagateQueued p steps w) b
      fun _ c => c.feasible = true → Attended p (· = w) b → Attended p (fun _ => False) c := by
  let counted : Branch := { b with statistics.propagations := b.statistics.propagations + 1 }
  have hcount : Step p T (· = w) (fun _ => False) b counted :=
    .of_move (.count _) rfl fun _ ha => ⟨ha.announced, ha.retired, ha.active⟩
  unfold propagateQueued
  rw [does_get_bind, if_pos hw]
  refine Does.bind (R := fun _ c => c = counted) (.modify hcount rfl) fun _ c hc he => ?_
  subst he
  refine (does_propagate hg (fills_fillClass hg hT steps) hT (hc.ready hb) hw).post fun _ d hd hdone hf ha => ?_
  exact hdone hf ⟨ha.announced, ha.retired, ha.active⟩

theorem meets_propagateQueued (hg : p.grammar.Regular) (hT : ∀ t, T t → p.Solves t) (steps : Nat)
    (hb : b.Ready p T) (hw : w ∈ b.active)
    (hpending : ∀ v ∈ b.queue.pending, v = w ∨ v ∈ b.queue.pop.2.pending) :
    (propagateQueued p steps w).Meets b.popped
      (fun _ c => Advance p T b c ∧ Proceeds p T b.popped c)
      (Stops p T (fun D => steps ≤ b.ceiling p D) b) := by
  have hpopped : Proceeds p T b b.popped := .single (Or.inr rfl)
  refine Meets.mono (does_propagateQueued hg hT steps (hpopped.ready hb) hw) (fun _ c ⟨hc, hdone⟩ => ?_)
    fun _ _ hs => hs.of_proceeds hpopped fun _ _ hl => hl
  exact ⟨⟨hpopped.trans hc.moves.proceeds, hc.shown, fun hf ha => hdone hf (ha.taken hpending)⟩,
    hc.moves.proceeds⟩

-- When the queue has run empty, the limits are applied.
theorem meets_tighten_popped (hg : p.grammar.Regular) (hT : ∀ t, T t → p.Solves t) (hb : b.Ready p T)
    (hf : b.feasible = true) (hnil : b.queue.pending = []) :
    (tighten p).Meets b.popped
      (fun again c => Advance p T b c ∧ Proceeds p T b.popped c ∧
        (again = true ∧ Lighter p b.popped c ∨
          again = false ∧ (c.feasible = true → c = b.popped ∧ p.Sized c.tree)))
      (Stops p T (fun _ => False) b) := by
  have hpopped : Advance p T b b.popped :=
    ⟨.single (Or.inr rfl), fun _ _ _ _ s hs => Or.inl ⟨s, hs⟩, fun _ ha => ha.idle hnil⟩
  have htighten : Settles p T (fun _ => False) (tighten p) b.popped _ :=
    does_tighten hg hT (hpopped.proceeds.ready hb) hf
  refine Meets.mono htighten (fun again c ⟨hc, hq⟩ => ⟨hpopped.trans hc.advance, hc.moves.proceeds, ?_⟩)
    fun _ _ hs => hs.of_proceeds hpopped.proceeds fun _ _ hl => hl
  rcases hq with ⟨hagain, -, hlighter⟩ | ⟨hagain, hsame⟩
  · exact Or.inl ⟨hagain, hlighter⟩
  · refine Or.inr ⟨hagain, fun hfc => ?_⟩
    obtain ⟨rfl, hsized⟩ := hsame hfc
    exact ⟨rfl, hsized⟩

-- In the end nothing is queued, and the limits strike nothing more.
theorem operates_fixPoint (hg : p.grammar.Regular) (hT : ∀ t, T t → p.Solves t) (steps : Nat)
    (hb : b.Ready p T) :
    Operates p T (fun D => steps ≤ b.toil p D) (fixPoint p steps) b fun feasible c =>
      feasible = c.feasible ∧ (c.feasible = true → c.queue.pending = [] ∧ p.Sized c.tree) := by
  induction steps generalizing b with
  | zero => exact ⟨.refl, fun _ _ => Nat.zero_le _⟩
  | succ steps ih =>
      unfold fixPoint Operates
      rw [meets_bind, meets_isFeasible]
      by_cases hf : b.feasible = true
      · rw [if_neg (by simp [hf]), meets_bind, meets_pop]
        rcases hb.sound.queue.pop with ⟨w, he, hmem, hpop, -⟩ | ⟨he, hnil, hpop, -⟩
        · rw [he]
          show Meets (propagateQueued p steps w >>= fun _ => fixPoint p steps) _ _ _
          rw [meets_bind]
          refine Meets.mono (meets_propagateQueued hg hT steps hb (hb.sound.pending w hmem) fun v hv => ?_)
            (fun _ c hc => ?_) fun _ _ hs => hs.of_proceeds .refl fun D _ hl => ?_
          · by_cases hvw : v = w
            · exact Or.inl hvw
            · exact Or.inr (hpop ▸ (List.mem_erase_of_ne hvw).mpr hv)
          · refine (ih (hc.1.proceeds.ready hb)).after hc.1 (fun _ _ _ hq => hq) fun D hD hl => ?_
            have hle := Proceeds.toil_le hc.2 hb.sound.popped hD
            have hlt := Branch.popped_toil_lt (p := p) (D := D) hmem hpop
            omega
          · unfold Branch.toil
            omega
        · rw [he]
          show Meets (tighten p >>= fun again => if again = true then fixPoint p steps else isFeasible) _ _ _
          rw [meets_bind]
          refine Meets.mono (meets_tighten_popped hg hT hb hf hnil) (fun again c ⟨hadvance, hpc, hq⟩ => ?_)
            fun _ _ hs => hs.of_proceeds .refl fun _ _ hl => hl.elim
          rcases hq with ⟨rfl, hlighter⟩ | ⟨rfl, hsame⟩
          · rw [if_pos rfl]
            have hready := hadvance.proceeds.ready hb
            refine (ih hready).after hadvance (fun _ _ _ hq => hq) fun D hD hl => ?_
            have hlt := hready.sound.toil_lt (hlighter D hD)
            have hle := Proceeds.toil_le (p := p) (T := T) (.single (Or.inr rfl)) hb.sound
              (Nat.le_trans hpc.depth_le hD)
            omega
          · rw [if_neg (by simp)]
            refine ⟨hadvance, rfl, fun hfc => ?_⟩
            obtain ⟨rfl, hsized⟩ := hsame hfc
            exact ⟨hpop, hsized⟩
      · rw [if_pos (by simp [hf])]
        exact ⟨.refl b, (Bool.eq_false_iff.mpr hf).symm, fun h => absurd h hf⟩

end Propagating

section Materializing

theorem get?_of_firstForced {t : Tree} {path : Path} {rule : Nat}
    (h : t.firstForced? = some (path, rule)) :
    ∃ category, t.get? path = some (.hole category {rule}) := by
  obtain ⟨⟨q, category, rules⟩, hin, he⟩ := List.exists_of_findSome?_eq_some h
  obtain ⟨r, hr, he⟩ := Option.map_eq_some_iff.mp he
  obtain ⟨rfl, rfl⟩ := Prod.mk.inj he
  obtain rfl := (Domain.sole?_eq_some rules r).mp hr
  exact ⟨category, (Tree.mem_holes t q category {r}).mp hin⟩

-- In a failed branch there is nothing to fill.
theorem operates_materialize_failed (steps : Nat) (hf : b.feasible = false) :
    Operates p T (fun _ => steps = 0) (materialize p steps) b fun again c =>
      again = false ∧ c = b := by
  cases steps with
  | zero => exact ⟨.refl, fun _ _ => rfl⟩
  | succ steps =>
      unfold materialize Operates
      rw [meets_bind, meets_get, if_pos (by simp [hf])]
      exact ⟨.refl b, rfl, rfl⟩

theorem operates_materialize (hg : p.grammar.Regular) (hT : ∀ t, T t → p.Solves t) (steps : Nat)
    (hb : b.Ready p T) :
    Operates p T (fun D => steps ≤ b.ceiling p D + 1) (materialize p steps) b fun again c =>
      (again = true → c.feasible = true → Lighter p b c) ∧ (again = false → c = b) := by
  induction steps generalizing b with
  | zero => exact ⟨.refl, fun _ _ => Nat.zero_le _⟩
  | succ steps ih =>
      cases hf : b.feasible with
      | false =>
          refine (operates_materialize_failed _ hf).mono (fun again c _ hq => ?_) fun _ _ hl => nomatch hl
          exact ⟨fun ha => absurd (hq.1.symm.trans ha) nofun, fun _ => hq.2⟩
      | true =>
          unfold materialize Operates
          rw [meets_bind, meets_get, if_neg (by simp [hf])]
          cases hforced : b.tree.firstForced? with
          | none => exact ⟨.refl b, nofun, fun _ => rfl⟩
          | some found =>
              obtain ⟨path, rule⟩ := found
              obtain ⟨category, hs⟩ := get?_of_firstForced hforced
              show Meets (fillClass p steps false path rule >>= fun _ => materialize p steps >>= fun _ =>
                pure true) b _ _
              rw [meets_bind]
              refine Meets.mono (fills_fillClass hg hT steps b false path rule _ hb hs fun t ht hc => ?_)
                (fun _ c hc => ?_) fun _ _ hs => hs.of_proceeds .refl fun D _ hl => ?_
              · exact ((hT t ht).completes hc).rootIn hs
              · rw [meets_bind]
                have hlighter (hfc : c.feasible = true) : Lighter p b c := by
                  refine hc.1.moves.proceeds.lighter fun he => ?_
                  obtain ⟨cs, hcs⟩ := hc.2 hfc
                  rw [he, hs] at hcs
                  cases hcs
                cases hfc : c.feasible with
                | false =>
                    refine (operates_materialize_failed steps hfc).after hc.1.advance
                      (fun again d _ hq => ⟨fun _ hfd => ?_, nofun⟩) fun D _ hl => ?_
                    · rw [hq.2, hfc] at hfd
                      cases hfd
                    · omega
                | true =>
                    refine (ih (hc.1.ready hb)).after hc.1.advance
                      (fun _ d hd _ => ⟨fun _ _ => (hlighter hfc).of_proceeds hd.proceeds, nofun⟩)
                      fun D hD hl => ?_
                    have := Branch.ceiling_lt_rank (hlighter hfc D hD) path
                    have := b.rank_le_ceiling (p := p) (D := D) path
                    omega
              · have := b.rank_le_ceiling (p := p) (D := D) path
                omega

end Materializing

section Settling

theorem operates_settle_failed (steps : Nat) (hf : b.feasible = false) :
    Operates p T (fun _ => steps ≤ 1) (settle p steps) b fun feasible c =>
      feasible = c.feasible ∧ c = b := by
  cases steps with
  | zero => exact ⟨.refl, fun _ _ => Nat.zero_le _⟩
  | succ steps =>
      unfold settle Operates
      rw [meets_bind]
      cases steps with
      | zero => exact ⟨.refl, fun _ _ => Nat.le_refl _⟩
      | succ steps =>
          unfold fixPoint
          rw [meets_bind, meets_isFeasible, hf]
          exact ⟨.refl b, hf.symm, rfl⟩

-- In the end nothing is queued, and the smallest completion is within the limit.
theorem operates_settle (hg : p.grammar.Regular) (hT : ∀ t, T t → p.Solves t) (steps : Nat)
    (hb : b.Ready p T) :
    Operates p T (fun D => steps ≤ b.toil p D + 2) (settle p steps) b fun feasible c =>
      feasible = c.feasible ∧ (c.feasible = true → c.queue.pending = [] ∧ p.Sized c.tree) := by
  induction steps generalizing b with
  | zero => exact ⟨.refl, fun _ _ => Nat.zero_le _⟩
  | succ steps ih =>
      unfold settle Operates
      rw [meets_bind]
      refine Meets.mono (operates_fixPoint hg hT steps hb) (fun feasible c ⟨hc, he, hdone⟩ => ?_)
        fun _ _ hs => hs.of_proceeds .refl fun D _ hl => Nat.succ_le_succ (Nat.le_succ_of_le hl)
      have hready := hc.proceeds.ready hb
      subst he
      cases hf : c.feasible with
      | false => exact ⟨hc, hf.symm, hdone⟩
      | true =>
          show Meets (materialize p steps >>= fun again =>
            if again = true then settle p steps else isFeasible) c _ _
          rw [meets_bind]
          refine Meets.mono ((operates_materialize hg hT steps hready).after hc (fun _ _ hd hq =>
            And.intro hd hq) fun D hD hl => ?_) (fun again d ⟨hbd, hd, hmore, hsame⟩ => ?_) fun _ _ hs => hs
          · have := hc.proceeds.ceiling_le hD
            unfold Branch.toil
            omega
          · cases again with
            | false =>
                obtain rfl := hsame rfl
                exact ⟨hbd, rfl, hdone⟩
            | true =>
                rw [if_pos rfl]
                cases hfd : d.feasible with
                | false =>
                    refine (operates_settle_failed steps hfd).after hbd (fun feasible e _ hq => ⟨hq.1, ?_⟩)
                      fun D _ hl => ?_
                    · intro hfe
                      rw [hq.2, hfd] at hfe
                      cases hfe
                    · omega
                | true =>
                    refine (ih (hd.proceeds.ready hready)).after hbd (fun _ _ _ hq => hq) fun D hD hl => ?_
                    have hlt := (hd.proceeds.ready hready).sound.toil_lt (hmore rfl hfd D hD)
                    have hle := hc.proceeds.toil_le hb.sound (Nat.le_trans hd.proceeds.depth_le hD)
                    omega

end Settling

section Filling

-- The hole is narrowed to the rule first, together with its class.
theorem does_fill (hg : p.grammar.Regular) (hT : ∀ t, T t → p.Solves t) (steps : Nat)
    (hb : b.Ready p T) {path : Path} {category : String} {rules : Domain} {rule : Nat}
    (hs : b.tree.get? path = some (.hole category rules))
    (hroot : ∀ t, T t → b.Covers t → t.RootIn path (.only {rule})) :
    Settles p T (fun D => steps ≤ b.ceiling p D) (fill p steps path rule) b fun _ c =>
      c.feasible = true → ∃ cs, c.tree.get? path = some (.node rule cs) := by
  unfold fill Settles
  rw [does_nodeAt_bind hs]
  refine .whenFeasible (fun _ => ?_) fun hf hf' => absurd (hf.symm.trans hf') nofun
  rw [does_attempt_bind (a := rule) (by simp [bitOf])]
  refine Does.bind (does_narrow hb hs hroot) fun _ c hc _ => ?_
  obtain ⟨v, hv⟩ := hc.moves.proceeds.placed ⟨_, hs⟩
  refine .whenFeasible (fun _ => ?_) fun hf hf' => absurd (hf.symm.trans hf') nofun
  refine (fills_fillClass hg hT steps c false path rule v (hc.ready hb) hv fun t ht hct => ?_).mono
    (fun _ _ _ hq => hq) fun D hD hl => ?_
  · exact hroot t ht (hc.moves.proceeds.of_covers hct)
  · have := c.rank_le_ceiling (p := p) (D := D) path
    have := hc.moves.proceeds.ceiling_le hD
    omega

end Filling

end BranchM

end TreeSearch
