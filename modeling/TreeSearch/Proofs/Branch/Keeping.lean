import TreeSearch.Proofs.Branch.Level

namespace TreeSearch

variable {p : Problem} {F : Halt → Prop} {D E : Set (Set Path)} {b c : Branch} {α β : Type}

-- The halts that come between two steps: faults, and numbers that grow too large although the tables
-- of the grammar could be made. Where they could not, work stops at the first hole that it fills.
def Problem.Interrupts (p : Problem) : Halt → Prop
  | .fault _ => True
  | .overflow => ∃ analysis, p.measured = .ok analysis
  | .outOfFuel => False

theorem Problem.interrupts_of_measured {analysis : Analysis} (h : p.measured = .ok analysis) {halt : Halt}
    (ended : halt ≠ .outOfFuel) : p.Interrupts halt := by
  cases halt with
  | fault => trivial
  | overflow => exact ⟨analysis, h⟩
  | outOfFuel => exact absurd rfl ended

-- Work that is interrupted only by halts that F allows, and then between two steps that keep the
-- classes level. Either way nothing is taken back.
def BranchM.Keeps (p : Problem) (F : Halt → Prop) (D : Set (Set Path)) (work : BranchM α) (b : Branch)
    (Q : α → Branch → Prop) : Prop :=
  work.Meets b (fun a c => b.Grows c ∧ c.Balanced p D ∧ Q a c)
    fun halt c => p.Interrupts halt → F halt ∧ b.Grows c ∧ c.Balanced p D

namespace BranchM

-- All halts are allowed.
def Lenient (F : Halt → Prop) : Prop := ∀ halt, F halt

theorem lenient : Lenient fun _ => True := fun _ => trivial

section Rules

variable {Q : α → Branch → Prop}

theorem halt_trans (hg : b.Grows c) (halt : Halt) (d : Branch)
    (h : p.Interrupts halt → F halt ∧ c.Grows d ∧ d.Balanced p D) (hh : p.Interrupts halt) :
    F halt ∧ b.Grows d ∧ d.Balanced p D := by
  obtain ⟨hF, hg', hd⟩ := h hh
  exact ⟨hF, hg.trans hg', hd⟩

theorem Keeps.pure {a : α} (hb : b.Balanced p D) (h : Q a b) : Keeps p F D (pure a) b Q :=
  ⟨.refl b, hb, h⟩

theorem Keeps.post {work : BranchM α} {Q' : α → Branch → Prop} (h : Keeps p F D work b Q)
    (hq : ∀ a c, b.Grows c → c.Balanced p D → Q a c → Q' a c) : Keeps p F D work b Q' :=
  Meets.mono h (fun a c ⟨hg, hc, ha⟩ => ⟨hg, hc, hq a c hg hc ha⟩) fun _ _ hh => hh

-- Work without interruptions, after which other classes may be excused.
theorem Keeps.settle {work : BranchM α} {Q' : α → Branch → Prop} (h : Keeps p (fun _ => False) E work b Q)
    (hq : ∀ a c, b.Grows c → c.Balanced p E → Q a c → c.Balanced p D ∧ Q' a c) :
    Keeps p F D work b Q' :=
  Meets.mono h (fun a c ⟨hg, hc, ha⟩ => ⟨hg, hq a c hg hc ha⟩)
    fun _ _ hh hbetween => (hh hbetween).1.elim

theorem Keeps.bind {work : BranchM β} {next : β → BranchM α} {R : β → Branch → Prop}
    (h : Keeps p F D work b R)
    (hn : ∀ a c, b.Grows c → c.Balanced p D → R a c → Keeps p F D (next a) c Q) :
    Keeps p F D (work >>= next) b Q := by
  unfold Keeps
  rw [meets_bind]
  refine Meets.mono h (fun a c ⟨hg, hc, ha⟩ => ?_) fun _ _ hh => hh
  exact Meets.mono (hn a c hg hc ha) (fun _ _ ⟨hg', hq⟩ => ⟨hg.trans hg', hq⟩) (halt_trans hg)

-- Work without interruptions may stand anywhere.
theorem Keeps.calm {work : BranchM α} (h : Keeps p (fun _ => False) D work b Q) : Keeps p F D work b Q :=
  h.settle fun _ _ _ hc ha => ⟨hc, ha⟩

theorem Keeps.bind_settle {work : BranchM β} {next : β → BranchM α} {R : β → Branch → Prop}
    (h : Keeps p (fun _ => False) E work b R)
    (hn : ∀ a c, b.Grows c → c.Balanced p E → R a c → Keeps p F D (next a) c Q) :
    Keeps p F D (work >>= next) b Q := by
  unfold Keeps
  rw [meets_bind]
  refine Meets.mono h (fun a c ⟨hg, hc, ha⟩ => ?_) fun _ _ hh hbetween => (hh hbetween).1.elim
  exact Meets.mono (hn a c hg hc ha) (fun _ _ ⟨hg', hq⟩ => ⟨hg.trans hg', hq⟩) (halt_trans hg)

theorem keeps_get_bind {next : Branch → BranchM α} :
    Keeps p F D (get >>= next) b Q ↔ Keeps p F D (next b) b Q := by
  unfold Keeps
  rw [meets_bind, meets_get]

theorem keeps_isFeasible_bind {next : Bool → BranchM α} :
    Keeps p F D (isFeasible >>= next) b Q ↔ Keeps p F D (next b.feasible) b Q := by
  unfold Keeps
  rw [meets_bind, meets_isFeasible]

theorem Keeps.reckon_bind {result : Except Halt β} {next : β → BranchM α} (hb : b.Balanced p D)
    (hr : ∀ halt, result = .error halt → p.Interrupts halt → F halt)
    (hn : ∀ a, result = .ok a → Keeps p F D (next a) b Q) :
    Keeps p F D (reckon result >>= next) b Q := by
  unfold Keeps
  rw [meets_bind]
  cases h : result with
  | ok a =>
      rw [meets_reckon rfl]
      exact hn a h
  | error halt =>
      rw [meets_reckon_error rfl]
      exact fun hbetween => ⟨hr halt h hbetween, .refl b, hb⟩

theorem Keeps.attempt_bind {result : Except Fault β} {next : β → BranchM α} (hb : b.Balanced p D)
    (hr : Lenient F ∨ ∃ a, result = .ok a) (hn : ∀ a, result = .ok a → Keeps p F D (next a) b Q) :
    Keeps p F D (attempt result >>= next) b Q := by
  refine .reckon_bind hb (fun halt he _ => ?_) fun a ha => hn a (Except.mapError_eq_ok.mp ha)
  rcases hr with hall | ⟨a, rfl⟩
  · exact hall halt
  · cases he

-- What a result is to satisfy, unless all halts are allowed. It may be out of reach for numbers that
-- are too large.
theorem Keeps.reckon_bind_with {result : Except Halt β} {next : β → BranchM α} {P : Prop} {R : β → Prop}
    (hb : b.Balanced p D) (hr : Lenient F ∨ ∃ a, ReckonsUnless P result a ∧ R a) (hover : P → F .overflow)
    (hn : ∀ a, Lenient F ∨ R a → Keeps p F D (next a) b Q) : Keeps p F D (reckon result >>= next) b Q := by
  refine .reckon_bind hb (fun halt he _ => ?_) fun a ha => hn a (hr.imp_right ?_)
  · rcases hr with hall | ⟨a, hok | ⟨ho, hp⟩, -⟩
    · exact hall halt
    · cases he.symm.trans hok
    · cases he.symm.trans ho
      exact hover hp
  · rintro ⟨a', hreckons, hR⟩
    exact hreckons.reckons.eq_of_ok ha ▸ hR

theorem Keeps.attempt_bind_with {result : Except Fault β} {next : β → BranchM α} {R : β → Prop}
    (hb : b.Balanced p D) (hr : Lenient F ∨ ∃ a, result = .ok a ∧ R a)
    (hn : ∀ a, Lenient F ∨ R a → Keeps p F D (next a) b Q) : Keeps p F D (attempt result >>= next) b Q := by
  refine .attempt_bind hb (hr.imp_right fun ⟨a, ha, _⟩ => ⟨a, ha⟩) fun a ha => hn a ?_
  refine hr.imp_right fun ⟨a', ha', hR⟩ => ?_
  obtain rfl := Except.ok.inj (ha'.symm.trans ha)
  exact hR

theorem keeps_attempt_bind {result : Except Fault β} {a : β} {next : β → BranchM α}
    (h : result = .ok a) :
    Keeps p F D (attempt result >>= next) b Q ↔ Keeps p F D (next a) b Q := by
  unfold Keeps
  rw [meets_bind, meets_attempt h]

theorem Keeps.nodeAt_bind {path : Path} {next : Tree → BranchM α} (hb : b.Balanced p D)
    (hs : Lenient F ∨ ∃ s, b.tree.get? path = some s)
    (hn : ∀ s, b.tree.get? path = some s → Keeps p F D (next s) b Q) :
    Keeps p F D (nodeAt path >>= next) b Q := by
  unfold nodeAt
  rw [bind_assoc, keeps_get_bind]
  refine .attempt_bind hb (hs.imp_right fun ⟨s, hs⟩ => ⟨s, Tree.get_eq_ok hs⟩) fun s hs => ?_
  exact hn s (Tree.get_eq_ok_iff.mp hs)

-- In a branch that has failed no class needs an excuse.
theorem Keeps.whenFeasible {work : BranchM Unit} {Q : Unit → Branch → Prop} (hb : b.Balanced p E)
    (h : b.feasible = true → Keeps p F D work b Q) (hn : b.feasible = false → Q () b) :
    Keeps p F D (whenFeasible work) b Q := by
  unfold Keeps
  rw [meets_whenFeasible]
  refine ⟨h, fun hf => ⟨.refl b, ⟨hb.intact, fun hf' => ?_⟩, hn hf⟩⟩
  cases hf.symm.trans hf'

-- A change of what the classes do not depend on.
theorem Keeps.modify {f : Branch → Branch} {Q : PUnit → Branch → Prop} (hb : b.Balanced p D)
    (htree : (f b).tree = b.tree) (hclasses : (f b).classes = b.classes)
    (hf : (f b).feasible = true → b.feasible = true) (hq : Q ⟨⟩ (f b)) :
    Keeps p F D (modify f) b Q :=
  ⟨.of_eq htree hclasses hf, hb.congr htree hclasses hf, hq⟩

theorem Keeps.fail {Q : PUnit → Branch → Prop} (hb : b.Balanced p E) (hq : Q ⟨⟩ b.fail) :
    Keeps p F D fail b Q :=
  ⟨.of_eq rfl rfl nofun, ⟨hb.intact.congr rfl rfl, nofun⟩, hq⟩

theorem Keeps.forM {work : β → BranchM Unit} {l : List β} (I : List β → Branch → Prop)
    (hb : b.Balanced p D) (h : I l b)
    (hstep : ∀ a rest c, b.Grows c → c.Balanced p D → I (a :: rest) c →
      Keeps p F D (work a) c fun _ d => I rest d) :
    Keeps p F D (l.forM work) b fun _ c => I [] c := by
  have hrun : (l.forM work).Meets b (fun _ c => b.Grows c ∧ c.Balanced p D ∧ I [] c)
      fun halt c => p.Interrupts halt → F halt ∧ b.Grows c ∧ c.Balanced p D := by
    refine meets_forM (fun rest c => b.Grows c ∧ c.Balanced p D ∧ I rest c) ?_ ⟨.refl b, hb, h⟩
    rintro a rest c ⟨hg, hc, hi⟩
    exact Meets.mono (hstep a rest c hg hc hi) (fun _ _ ⟨hg', hd⟩ => ⟨hg.trans hg', hd⟩)
      (halt_trans hg)
  exact hrun

end Rules

section Narrowing

variable {unifying : Bool} {path : Path} {mask : Mask}

-- What a mask leaves of a root.
def narrowedRoot (mask : Mask) : (Int × Nat) ⊕ Tree → (Int × Nat) ⊕ Tree
  | .inr (.hole category rules) => .inr (.hole category (rules.restrict mask))
  | root => root

theorem narrowedRoot_narrowedRoot (root : (Int × Nat) ⊕ Tree) :
    narrowedRoot mask (narrowedRoot mask root) = narrowedRoot mask root := by
  match root with
  | .inl _ => rfl
  | .inr (.hole category rules) =>
      have hsame : (rules.restrict mask).restrict mask = rules.restrict mask := by
        ext r
        simp
      show Sum.inr (Tree.hole category ((rules.restrict mask).restrict mask)) = _
      rw [hsame]
      rfl
  | .inr (.node ..) => rfl
  | .inr (.choice ..) => rfl
  | .inr (.var _) => rfl

theorem narrowedRoot_eq_inl {root : (Int × Nat) ⊕ Tree} {node : Int × Nat} :
    narrowedRoot mask root = .inl node ↔ root = .inl node := by
  match root with
  | .inl _ => rfl
  | .inr (.hole ..) => exact ⟨nofun, nofun⟩
  | .inr (.node ..) => exact ⟨nofun, nofun⟩
  | .inr (.choice ..) => exact ⟨nofun, nofun⟩
  | .inr (.var _) => exact ⟨nofun, nofun⟩

theorem narrowedRoot_of_takes {s : Tree} (h : ∀ n, s.Takes n → n ∈ mask) :
    narrowedRoot mask s.root = s.root := by
  cases s with
  | hole category rules =>
      have hsame : rules.restrict mask = rules := by
        ext r
        rw [Domain.mem_restrict]
        exact ⟨And.left, fun hr => ⟨hr, h r hr⟩⟩
      show Sum.inr (Tree.hole category (rules.restrict mask)) = Sum.inr (Tree.hole category rules)
      rw [hsame]
  | node => rfl
  | choice => rfl
  | var => rfl

theorem keeps_narrowOne (hb : b.Balanced p D) (hin : b.classAt path ∈ D)
    (hs : ∃ s, b.tree.get? path = some s) :
    Keeps p F D (narrowOne unifying mask path) b fun _ c =>
      c.classes = b.classes ∧
        (c.feasible = true → c.rootAt path = (b.rootAt path).map (narrowedRoot mask)) ∧
          ∀ q, q ≠ path → (∃ s, b.tree.get? q = some s) → c.rootAt q = b.rootAt q := by
  obtain ⟨s, hs⟩ := hs
  have hroot := Branch.rootAt_eq_some hs
  refine meets_narrowOne hs (hb.intact.wellFormed.get? hs) (fun hkept => ?_) (fun _ => ?_) ?_
  · refine ⟨.refl b, hb, rfl, fun _ => ?_, fun _ _ _ => rfl⟩
    rw [hroot, Option.map_some, narrowedRoot_of_takes hkept]
  · exact ⟨.of_eq rfl rfl nofun, ⟨hb.intact.congr rfl rfl, nofun⟩, rfl, nofun, fun _ _ _ => rfl⟩
  · rintro category rules tree statistics rfl change replaced
    have htree := Branch.notify_tree { b with tree, statistics } path unifying
    have hclasses := Branch.notify_classes { b with tree, statistics } path unifying
    have hf := Branch.notify_feasible { b with tree, statistics } path unifying
    refine ⟨.edit change replaced htree hclasses hf, hb.edit hin change replaced htree hclasses hf,
      hclasses, fun _ => ?_, fun q => Branch.rootAt_of_replaced change replaced htree⟩
    rw [hroot, Branch.rootAt, htree, replaced.get?_new]
    rfl

-- Once all positions of a class are narrowed, it needs no excuse any more.
theorem balanced_of_narrowed (hb : b.Balanced p D) (hg : b.Grows c)
    (hc : c.Balanced p (insert (b.classAt path) D)) (hclasses : c.classes = b.classes)
    (hdone : c.feasible = true → ∀ member ∈ b.classes.members path,
      c.rootAt member = (b.rootAt member).map (narrowedRoot mask)) : c.Balanced p D := by
  refine ⟨hc.intact, fun hf k hk => ?_⟩
  rcases hc.level hf k hk with hl | he | hD
  · exact Or.inl hl
  · rw [hclasses] at hk
    have hp : path ∈ k := (Set.ext_iff.mp he path).mpr (b.classes.mem_members_self path)
    have hnarrowed := hdone hf
    rw [hb.intact.classes.members_eq hk hp] at hnarrowed
    refine (hb.level (hg.feasible hf) k hk).imp_left fun hl => ⟨fun x hx y hy => ?_, ?_⟩
    · rw [hnarrowed x hx, hnarrowed y hy, hl.roots x hx y hy]
    · intro x hx y hy r n i hr hi
      rw [hclasses]
      refine hl.below x hx y hy r n i ?_ hi
      rw [hnarrowed x hx] at hr
      obtain ⟨root, hroot, he⟩ := Option.map_eq_some_iff.mp hr
      rw [hroot, narrowedRoot_eq_inl.mp he]
  · exact Or.inr hD

-- Narrowing treats the positions of a class alike.
theorem keeps_narrow (hb : b.Balanced p D) (hs : Lenient F ∨ ∃ s, b.tree.get? path = some s) :
    Keeps p F D (narrow unifying path mask) b fun _ c =>
      c.classes = b.classes ∧ (c.feasible = true → ∀ member ∈ b.classes.members path,
        c.rootAt member = (b.rootAt member).map (narrowedRoot mask)) := by
  unfold narrow
  refine .nodeAt_bind hb hs fun s hs => ?_
  rw [keeps_get_bind]
  -- A member that is still to come is as it was. The class is excused while they are not all done.
  refine (Keeps.forM (F := fun _ => False) (fun rest c => c.classes = b.classes ∧
    (∀ member ∈ rest, member ∈ b.classes.members path) ∧
    (c.feasible = true → ∀ member ∈ b.classes.members path,
      member ∈ rest ∧ c.rootAt member = b.rootAt member ∨
        c.rootAt member = (b.rootAt member).map (narrowedRoot mask)))
    (hb.excuse (b.classAt path)) ⟨rfl, fun _ hm => hm, fun _ member hm => Or.inl ⟨hm, rfl⟩⟩ ?_).settle ?_
  · rintro member rest c hg hc ⟨hclasses, hrest, hstate⟩
    have hm := hrest member List.mem_cons_self
    have hrest' := fun other ho => hrest other (List.mem_cons_of_mem member ho)
    refine .whenFeasible hc (fun hf => ?_)
      fun hf => ⟨hclasses, hrest', fun hf' => absurd (hf.symm.trans hf') Bool.false_ne_true⟩
    have hclass : c.classAt member = b.classAt path := by
      rw [Branch.classAt, hclasses, hb.intact.classes.members_of_mem hm]
      rfl
    have hplaced (other : Path) (ho : other ∈ b.classes.members path) :=
      hg.placed (hb.intact.member ⟨s, hs⟩ ho)
    refine (keeps_narrowOne hc (hclass ▸ Set.mem_insert _ _) (hplaced member hm)).post ?_
    rintro _ d hgd hd ⟨hsame, hnarrowed, hother⟩
    refine ⟨hsame.trans hclasses, hrest', fun hfd other ho => ?_⟩
    by_cases he : other = member
    -- Nothing rules out here that a path is listed twice, so it may have been narrowed before.
    · subst he
      refine Or.inr ((hnarrowed hfd).trans ?_)
      rcases hstate hf other ho with ⟨-, hold⟩ | hdone
      · rw [hold]
      · rw [hdone, Option.map_map]
        congr 1
        funext root
        exact narrowedRoot_narrowedRoot root
    · rw [hother other he (hplaced other ho)]
      rcases hstate hf other ho with ⟨hin, hold⟩ | hdone
      · exact Or.inl ⟨(List.mem_cons.mp hin).resolve_left he, hold⟩
      · exact Or.inr hdone
  · rintro _ c hg hc ⟨hclasses, -, hstate⟩
    have hdone (hf : c.feasible = true) (member : Path) (hm : member ∈ b.classes.members path) :
        c.rootAt member = (b.rootAt member).map (narrowedRoot mask) :=
      (hstate hf member hm).resolve_left fun h => List.not_mem_nil h.1
    exact ⟨balanced_of_narrowed hb hg hc hclasses hdone, hclasses, hdone⟩

theorem keeps_narrowBy {result : Except Fault β} {mask : β → Mask} (hb : b.Balanced p D)
    (hs : Lenient F ∨ ∃ s, b.tree.get? path = some s) (hr : Lenient F ∨ ∃ a, result = .ok a) :
    Keeps p F D (attempt result >>= fun a => narrow unifying path (mask a)) b fun _ _ => True :=
  .attempt_bind hb hr fun _ _ => (keeps_narrow hb hs).post fun _ _ _ _ _ => trivial

theorem keeps_strike {rule : Int} (hb : b.Balanced p D)
    (hs : Lenient F ∨ (∃ s, b.tree.get? path = some s) ∧ 0 ≤ rule) :
    Keeps p F D (strike unifying path rule) b fun _ _ => True := by
  refine keeps_narrowBy hb (hs.imp_right And.left) (hs.imp_right fun ⟨_, hr⟩ => ?_)
  exact ⟨{rule.toNat}, by rw [Domain.single, bitOf, if_pos hr]; rfl⟩

theorem keeps_strikeAbove {rule : Int} (hb : b.Balanced p D)
    (hs : Lenient F ∨ (∃ s, b.tree.get? path = some s) ∧ 0 ≤ rule) :
    Keeps p F D (strikeAbove unifying path rule) b fun _ _ => True :=
  keeps_narrowBy hb (hs.imp_right And.left) (hs.imp_right fun ⟨_, hr⟩ => ⟨_, Mask.upTo_eq_ok (by omega)⟩)

theorem keeps_strikeBelow {rule : Int} (hb : b.Balanced p D)
    (hs : Lenient F ∨ (∃ s, b.tree.get? path = some s) ∧ 0 ≤ rule) :
    Keeps p F D (strikeBelow unifying path rule) b fun _ _ => True :=
  keeps_narrowBy hb (hs.imp_right And.left) (hs.imp_right fun ⟨_, hr⟩ => ⟨_, Mask.onwards_eq_ok hr⟩)

end Narrowing

section Order

variable {unifying : Bool} {first second : Path} {s v : Tree}

theorem keeps_compareRoots {r q : Int} {rule : Rule} (hb : b.Balanced p D)
    (hrule : p.grammar.rule? r = some rule) :
    Keeps p F D (compareRoots p r q) b fun _ _ => True := by
  unfold compareRoots
  split
  · exact .pure hb trivial
  · split
    · exact (Keeps.fail (Q := fun _ _ => True) hb trivial).bind fun _ _ _ hc _ => .pure hc trivial
    · have hok : Lenient F ∨ ∃ terminal, p.grammar.isTerminal r = .ok terminal :=
        Or.inr ⟨rule.isTerminal, Grammar.isTerminal_eq_ok hrule⟩
      refine .attempt_bind hb hok fun terminal _ => ?_
      split
      · exact .pure hb trivial
      · exact .pure hb trivial

theorem keeps_lookAgain (hb : b.Balanced p D) (hs : ∃ s, b.tree.get? first = some s)
    (hv : ∃ v, b.tree.get? second = some v) :
    Keeps p F D (lookAgain p first second) b fun _ _ => True := by
  have hw := hb.intact.wellFormed
  unfold lookAgain
  rw [keeps_isFeasible_bind]
  split
  · exact .pure hb trivial
  · refine .nodeAt_bind hb (Or.inr hs) fun s hs => .nodeAt_bind hb (Or.inr hv) fun v hv => ?_
    split
    · rename_i r q hr hq
      obtain ⟨n, rule, rfl, hrule, -⟩ := decided_spec hw hs hr
      exact keeps_compareRoots hb hrule
    · rcases highest_spec hw hs with ⟨k, hk, -⟩ | ⟨-, hhopeless⟩
      · rcases lowest_spec hw hv with ⟨l, hl, -⟩ | ⟨-, hhopeless⟩
        · refine .attempt_bind hb (Or.inr ⟨_, hk⟩) fun high _ =>
            .attempt_bind hb (Or.inr ⟨_, hl⟩) fun low _ => ?_
          split
          · exact .pure hb trivial
          · exact .pure hb trivial
        · exact absurd hhopeless hb.intact.not_hopeless
      · exact absurd hhopeless hb.intact.not_hopeless

theorem keeps_compareHoles (hb : b.Balanced p D) (hs : b.tree.get? first = some s)
    (hv : b.tree.get? second = some v) :
    Keeps p F D (compareHoles p unifying first second s v) b fun _ _ => True := by
  have hw := hb.intact.wellFormed
  rw [compareHoles_eq]
  refine Keeps.bind (R := fun _ _ => True) ?_ fun _ c hg hc _ =>
    keeps_lookAgain hc (hg.placed ⟨s, hs⟩) (hg.placed ⟨v, hv⟩)
  split
  · rename_i hq
    obtain ⟨n, -, rfl, -⟩ := decided_spec hw hv hq
    exact keeps_strikeAbove hb (Or.inr ⟨⟨s, hs⟩, Int.natCast_nonneg n⟩)
  · rename_i hr
    obtain ⟨n, -, rfl, -⟩ := decided_spec hw hs hr
    exact keeps_strikeBelow hb (Or.inr ⟨⟨v, hv⟩, Int.natCast_nonneg n⟩)
  · rcases highest_spec hw hv with ⟨k, hk, -⟩ | ⟨-, hhopeless⟩
    · rcases lowest_spec hw hs with ⟨l, hl, -⟩ | ⟨-, hhopeless⟩
      · refine .attempt_bind hb (Or.inr ⟨_, hk⟩) fun high hhigh => ?_
        obtain rfl := Except.ok.inj (hk.symm.trans hhigh)
        refine (keeps_strikeAbove hb (Or.inr ⟨⟨s, hs⟩, Int.natCast_nonneg k⟩)).bind
          fun _ c hg hc _ => ?_
        refine .attempt_bind hc (Or.inr ⟨_, hl⟩) fun low hlow => ?_
        obtain rfl := Except.ok.inj (hl.symm.trans hlow)
        exact keeps_strikeBelow hc (Or.inr ⟨hg.placed ⟨v, hv⟩, Int.natCast_nonneg l⟩)
      · exact absurd hhopeless hb.intact.not_hopeless
    · exact absurd hhopeless hb.intact.not_hopeless

theorem keeps_orderWith {below : BranchM Comparison} (hb : b.Balanced p D)
    (hs : Lenient F ∨ ∃ s, b.tree.get? first = some s) (hv : Lenient F ∨ ∃ v, b.tree.get? second = some v)
    (hbelow : ∀ r cs ds, b.tree.get? first = some (.node r cs) →
      b.tree.get? second = some (.node r ds) → Keeps p F D below b fun _ _ => True) :
    Keeps p F D (orderWith p unifying below first second) b fun _ _ => True := by
  unfold orderWith
  rw [keeps_isFeasible_bind]
  split
  · exact .pure hb trivial
  · refine .nodeAt_bind hb hs fun s hs => .nodeAt_bind hb hv fun v hv => ?_
    split
    · rename_i r q hr hq
      obtain ⟨n, rule, rfl, hrule, -⟩ := decided_spec hb.intact.wellFormed hs hr
      split
      · rename_i r' cs q' ds
        split
        · rename_i he
          obtain rfl : r' = n := Option.some.inj hr
          obtain rfl : q' = q := Option.some.inj hq
          exact hbelow _ cs ds hs (he ▸ hv)
        · exact keeps_compareRoots hb hrule
      · exact keeps_compareRoots hb hrule
    · exact keeps_compareHoles hb hs hv

-- The children from some index on.
theorem keeps_orderChildren {cs : List Tree} {index : Nat}
    (ih : ∀ c ∈ cs, ∀ (b : Branch) (first second : Path), b.Balanced p D →
      (∃ s, b.tree.get? first = some s ∧ s.Refines c) → (∃ v, b.tree.get? second = some v) →
        Keeps p F D (orderFrom p unifying c first second) b fun _ _ => True)
    (hb : b.Balanced p D)
    (hfirst : ∀ (i : Nat) (c : Tree), cs[i]? = some c →
      ∃ s, b.tree.get? (first ++ [((index + i : Nat) : Int)]) = some s ∧ s.Refines c)
    (hsecond : ∀ i < cs.length, ∃ v, b.tree.get? (second ++ [((index + i : Nat) : Int)]) = some v) :
    Keeps p F D (orderChildren p unifying cs index first second) b fun _ _ => True := by
  induction cs generalizing b index with
  | nil =>
      rw [orderChildren]
      exact .pure hb trivial
  | cons c cs ihc =>
      rw [orderChildren]
      have hone : ∃ s, b.tree.get? (first ++ [(index : Int)]) = some s ∧ s.Refines c := hfirst 0 c rfl
      have htwo : ∃ v, b.tree.get? (second ++ [(index : Int)]) = some v :=
        hsecond 0 (Nat.zero_lt_succ _)
      refine (ih c List.mem_cons_self b _ _ hb hone htwo).bind fun outcome d hg hd _ => ?_
      split
      · refine ihc (fun e he => ih e (List.mem_cons_of_mem c he)) hd (fun i e he => ?_) fun i hi => ?_
        · obtain ⟨s, hs, hr⟩ := hfirst (i + 1) e he
          obtain ⟨v, hv, hvs⟩ := hg.refines.get? hs
          exact ⟨v, by rwa [Nat.add_assoc, Nat.add_comm 1 i], hvs.trans hr⟩
        · have hplaced := hsecond (i + 1) (Nat.succ_lt_succ hi)
          rw [Nat.add_assoc, Nat.add_comm 1 i]
          exact hg.placed hplaced
      · exact .pure hd trivial

-- Where the first subtree was open, there are no children to go down to.
theorem keeps_orderFrom_open {t : Tree} (hb : b.Balanced p D) (hs : Lenient F ∨ ∃ s, b.tree.get? first = some s)
    (hv : Lenient F ∨ ∃ v, b.tree.get? second = some v) (hopen : ∀ r cs, t ≠ .node r cs) :
    Keeps p F D (orderFrom p unifying t first second) b fun _ _ => True := by
  rw [orderFrom]
  · exact keeps_orderWith hb hs hv fun _ _ _ _ _ => .pure hb trivial
  · exact hopen

-- The work follows the first subtree as it was before. What is decided in it stays.
theorem keeps_orderFrom (t : Tree) (hb : b.Balanced p D)
    (hs : ∃ s, b.tree.get? first = some s ∧ s.Refines t)
    (hv : Lenient F ∨ ∃ v, b.tree.get? second = some v) :
    Keeps p F D (orderFrom p unifying t first second) b fun _ _ => True := by
  obtain ⟨s, hs, hst⟩ := hs
  induction t using Tree.induction generalizing b first second s with
  | node r cs ih =>
      obtain ⟨es, rfl, hlen, hes⟩ := Tree.refines_node_iff.mp hst
      rw [orderFrom]
      refine keeps_orderWith hb (Or.inr ⟨_, hs⟩) hv fun q gs fs hg hf => ?_
      obtain ⟨rfl, rfl⟩ := Tree.node.inj (Option.some.inj (hs.symm.trans hg))
      have hlen' := length_children hb.intact.wellFormed hs hf
      refine keeps_orderChildren (fun c hc b first second hb hs hv => ?_) hb (fun i c hc => ?_)
        fun i hi => ?_
      · obtain ⟨s, hs, hst⟩ := hs
        exact ih c hc hb (Or.inr hv) s hs hst
      · have hi : i < es.length := by
          have := (List.getElem?_eq_some_iff.mp hc).1
          omega
        have he : es[i]? = some es[i] := List.getElem?_eq_getElem hi
        exact ⟨es[i], by simpa using Tree.get?_child hs he, hes i _ _ he hc⟩
      · have hi : i < fs.length := by omega
        exact ⟨fs[i], by simpa using Tree.get?_child hf (List.getElem?_eq_getElem hi)⟩
  | hole => exact keeps_orderFrom_open hb (Or.inr ⟨s, hs⟩) hv (by simp)
  | choice => exact keeps_orderFrom_open hb (Or.inr ⟨s, hs⟩) hv (by simp)
  | var => exact keeps_orderFrom_open hb (Or.inr ⟨s, hs⟩) hv (by simp)

theorem keeps_order (hb : b.Balanced p D) (hs : Lenient F ∨ ∃ s, b.tree.get? first = some s)
    (hv : Lenient F ∨ ∃ v, b.tree.get? second = some v) :
    Keeps p F D (order p unifying first second) b fun _ _ => True := by
  unfold order
  rw [keeps_isFeasible_bind]
  split
  · exact .pure hb trivial
  · exact .nodeAt_bind hb hs fun s hs => keeps_orderFrom s hb ⟨s, hs, .refl s⟩ hv

end Order

end BranchM

end TreeSearch
