import TreeSearch.Proofs.Branch.Permitted

namespace TreeSearch

variable {p : Problem} {b : Branch} {first second path : Path}

-- Two positions of a tree whose subtrees stand in a relation.
def Tree.Relates (t : Tree) (first second : Path) (relation : Tree → Tree → Prop) : Prop :=
  ∃ s v, t.get? first = some s ∧ t.get? second = some v ∧ relation s v

-- A position at one of two others, or below, or one that is united with such a position.
def Branch.Touches (b : Branch) (first second path : Path) : Prop :=
  ∃ member ∈ b.classes.members path, first <+: member ∨ second <+: member

namespace BranchM

-- What an order of two positions leaves alone.
structure Spares (p : Problem) (first second : Path) (b c : Branch) : Prop where
  grows : b.Grows c
  intact : c.Intact p
  classes : c.classes = b.classes
  spared : ∀ path, (∃ s, b.tree.get? path = some s) →
    b.Touches first second path ∨ c.rootAt path = b.rootAt path

theorem spares_narrowOne {unifying : Bool} {mask : Mask} {member : Path}
    (hm : b.Touches first second member) :
    Preserves (Spares p first second b) (fun _ => True) (narrowOne unifying mask member) := by
  intro c hc
  cases hs : c.tree.get? member with
  | none => exact meets_nodeAt_none hs fun _ => trivial
  | some s =>
      refine Meets.mono (keeps_narrowOne (F := fun _ => True) hc.intact.balanced (Set.mem_univ _) ⟨s, hs⟩) ?_
        fun _ _ _ => trivial
      rintro _ d ⟨hgrows, hd, hclasses, -, hother⟩
      refine ⟨hc.grows.trans hgrows, hd.intact, hclasses.trans hc.classes, fun path hpath => ?_⟩
      by_cases he : path = member
      · exact Or.inl (he ▸ hm)
      · rw [hother path he (hc.grows.placed hpath)]
        exact hc.spared path hpath

-- A class is narrowed as a whole.
theorem spares_narrow {unifying : Bool} (hb : b.Intact p) {path : Path} (mask : Mask)
    (hp : first <+: path ∨ second <+: path) :
    Preserves (Spares p first second b) (fun _ => True) (narrow unifying path mask) := by
  intro c hc
  unfold narrow
  refine meets_nodeAt_bind (fun _ => trivial) fun s hs => ?_
  rw [meets_bind, meets_get]
  refine Preserves.forM (fun member hm => ?_) c hc
  rw [hc.classes] at hm
  have hpath : path ∈ b.classes.members member := by
    rw [hb.classes.members_of_mem hm]
    exact b.classes.mem_members_self path
  exact .whenFeasible (spares_narrowOne ⟨path, hpath, hp⟩)

theorem spares_order (hb : b.Intact p) (unifying : Bool) (first second : Path) :
    Preserves (Spares p first second b) (fun _ => True) (order p unifying first second) := by
  have h := inherited_preserves (I := Spares p first second b) (E := fun _ => True) fun _ => trivial
  have hfail : Preserves (Spares p first second b) (fun _ => True) fail := by
    refine .modify fun c hc => ⟨?_, ?_, hc.classes, hc.spared⟩
    · exact hc.grows.trans (.of_eq rfl rfl nofun)
    · exact hc.intact.congr rfl rfl
  refine h.order hfail (P := fun path => first <+: path ∨ second <+: path)
    (fun path mask hp => spares_narrow hb mask hp) (fun path i hp => ?_) ?_ ?_
  · exact hp.imp (·.trans (List.prefix_append path _)) (·.trans (List.prefix_append path _))
  · exact Or.inl (List.prefix_refl first)
  · exact Or.inr (List.prefix_refl second)

-- Work whose outcome tells whether the branch still has a tree.
def Tells (work : BranchM Comparison) (b : Branch) : Prop :=
  work.Meets b (fun outcome c => c.feasible = true ↔ outcome ≠ .violated) fun _ _ => True

theorem tells_pure {outcome : Comparison} (h : b.feasible = true ↔ outcome ≠ .violated) :
    Tells (pure outcome) b := h

theorem tells_attempt_bind {α : Type} {result : Except Fault α} {next : α → BranchM Comparison}
    (h : ∀ a, Tells (next a) b) : Tells (attempt result >>= next) b := by
  unfold Tells
  rw [meets_bind]
  cases result with
  | ok a => exact (meets_attempt rfl).mpr (h a)
  | error fault => exact (meets_attempt_error rfl).mpr trivial

theorem tells_nodeAt_bind {next : Tree → BranchM Comparison} (h : ∀ s, Tells (next s) b) :
    Tells (nodeAt path >>= next) b :=
  meets_nodeAt_bind (fun _ => trivial) fun s _ => h s

theorem tells_after {α : Type} {work : BranchM α} {next : BranchM Comparison} (h : ∀ c, Tells next c) :
    Tells (work >>= fun _ => next) b :=
  meets_bind.mpr ((Meets.anyhow work).mono (fun _ c _ => h c) fun _ _ _ => trivial)

-- Nothing is compared in a branch that has failed.
theorem tells_feasible_bind {next : BranchM Comparison} (h : b.feasible = true → Tells next b) :
    Tells (isFeasible >>= fun feasible => if !feasible then pure .violated else next) b := by
  unfold Tells
  rw [meets_bind, meets_isFeasible]
  cases hf : b.feasible with
  | false => exact tells_pure (by simp [hf])
  | true => exact h hf

theorem tells_compareRoots (hf : b.feasible = true) (r q : Int) : Tells (compareRoots p r q) b := by
  unfold compareRoots
  split
  · exact tells_pure (by simp [hf])
  · split
    · exact meets_bind.mpr (tells_pure (b := b.fail) (by simp [Branch.fail]))
    · refine tells_attempt_bind fun terminal => ?_
      split
      · exact tells_pure (by simp [hf])
      · exact tells_pure (by simp [hf])

theorem tells_lookAgain : Tells (lookAgain p first second) b := by
  refine tells_feasible_bind fun hf => tells_nodeAt_bind fun s => tells_nodeAt_bind fun v => ?_
  split
  · exact tells_compareRoots hf _ _
  · refine tells_attempt_bind fun high => tells_attempt_bind fun low => ?_
    split
    · exact tells_pure (by simp [hf])
    · exact tells_pure (by simp [hf])

theorem tells_orderWith {unifying : Bool} {below : BranchM Comparison}
    (hbelow : b.feasible = true → Tells below b) : Tells (orderWith p unifying below first second) b := by
  refine tells_feasible_bind fun hf => tells_nodeAt_bind fun s => tells_nodeAt_bind fun v => ?_
  split
  · split
    · split
      · exact hbelow hf
      · exact tells_compareRoots hf _ _
    · exact tells_compareRoots hf _ _
  · rw [compareHoles_eq]
    exact tells_after fun _ => tells_lookAgain

theorem tells_orderFrom (unifying : Bool) (s : Tree) : Tells (orderFrom p unifying s first second) b := by
  induction s using Tree.induction generalizing b first second with
  | node r cs ih =>
      have hchildren (index : Nat) (b : Branch) (hf : b.feasible = true) :
          Tells (orderChildren p unifying cs index first second) b := by
        induction cs generalizing b index with
        | nil => exact tells_pure (by simp [hf])
        | cons c cs ihc =>
            rw [orderChildren]
            refine meets_bind.mpr ((ih c List.mem_cons_self).mono (fun outcome d hd => ?_) fun _ _ h => h)
            cases outcome with
            | equal =>
                have hf : d.feasible = true := hd.mpr (by decide)
                exact ihc (fun e he => ih e (List.mem_cons_of_mem c he)) (index + 1) d hf
            | less => exact hd
            | undecided => exact hd
            | violated => exact hd
      exact tells_orderWith (hchildren 0 b)
  | hole => exact tells_orderWith fun hf => tells_pure (by simp [hf])
  | choice => exact tells_orderWith fun hf => tells_pure (by simp [hf])
  | var => exact tells_orderWith fun hf => tells_pure (by simp [hf])

theorem tells_order (unifying : Bool) : Tells (order p unifying first second) b :=
  tells_feasible_bind fun _ => tells_nodeAt_bind fun s => tells_orderFrom unifying s

-- No numbers are involved.
theorem order_halts (p : Problem) (unifying : Bool) (first second : Path) :
    Preserves (fun _ => True) (· ≠ .overflow) (order p unifying first second) := by
  have h := inherited_preserves (I := fun _ => True) (E := (· ≠ .overflow)) fun _ => nofun
  have hfail : Preserves (fun _ => True) (· ≠ .overflow) fail := .modify fun _ _ => trivial
  have hone (mask : Mask) (path : Path) :
      Preserves (fun _ => True) (· ≠ .overflow) (narrowOne unifying mask path) :=
    h.narrowOne hfail (fun _ _ _ => .bind .get fun _ => .bind (h.attempt _) fun _ => .modify fun _ _ => trivial) mask
  exact h.order hfail (P := fun _ => True) (fun path mask _ => h.narrow hone path mask) (fun _ _ => id)
    trivial trivial

end BranchM

namespace Branch

-- The trees that have the two positions in order are left, and the outcome is right about those.
theorem Intact.order_spec (hb : b.Intact p) {s v : Tree} (hs : b.tree.get? first = some s)
    (hv : b.tree.get? second = some v) (unifying : Bool) :
    ∃ outcome c, (BranchM.order p unifying first second).run b = .ok outcome c ∧
      BranchM.Spares p first second b c ∧ c.tree.skeleton = b.tree.skeleton ∧
      (∀ t, b.Permits p t → t.Relates first second Tree.UpTo → c.Covers t) ∧
      (c.feasible = true → Compares p c.tree first second outcome) := by
  let T (t : Tree) : Prop := b.Permits p t ∧ t.Relates first second Tree.UpTo
  have hT (t : Tree) (ht : T t) : p.Completes t t := .refl ht.1.wellFormed ht.1.complete
  have horder : InOrder T b.core first second := by
    rintro t ⟨-, x, y, hx, hy, hle⟩ - x' y' hx' hy'
    obtain rfl := Option.some.inj (hx.symm.trans hx')
    obtain rfl := Option.some.inj (hy.symm.trans hy')
    exact hle
  have hcore : BranchM.Settles p T (fun _ => False) (BranchM.order p unifying first second) b.core
      fun outcome d => Narrowed b.core d ∧ (d.feasible = true → Compares p d.tree first second outcome) :=
    BranchM.does_order hT (hb.ready_core fun t ht => ht.1.respected) hs hv horder
  have hkeeps : BranchM.Keeps p (fun _ => False) Set.univ (BranchM.order p unifying first second) b fun _ _ => True :=
    BranchM.keeps_order hb.balanced (Or.inr ⟨s, hs⟩) (Or.inr ⟨v, hv⟩)
  have hspares := BranchM.spares_order hb unifying first second b
    ⟨.refl b, hb, rfl, fun _ _ => Or.inr rfl⟩
  have hsame := BranchM.oblivious_order (p := p) unifying first second b b.core rfl
  cases hr : (BranchM.order p unifying first second).run b with
  | error halt c =>
      obtain ⟨d, hrun, -⟩ := hsame.error hr
      cases halt with
      | fault fault => exact (hkeeps.error hr trivial).1.elim
      | overflow => exact absurd rfl ((BranchM.order_halts p unifying first second b trivial).error hr)
      | outOfFuel => exact ((hcore.error hrun).2 _ (Nat.le_refl _)).elim
  | ok outcome c =>
      obtain ⟨d, hrun, hcd⟩ := hsame.ok hr
      obtain ⟨htree, -, hfeasible⟩ := core_eq_iff.mp hcd
      obtain ⟨hstep, hnarrowed, hcompares⟩ := hcore.ok hrun
      refine ⟨outcome, c, rfl, hspares.ok hr, htree ▸ hnarrowed.skeleton, fun t ht hle => ?_, fun hf => ?_⟩
      · have hd := hstep.moves.proceeds.covers ⟨ht, hle⟩ ht.covered
        exact ⟨hfeasible.trans hd.1, htree ▸ hd.2⟩
      · exact htree ▸ hcompares (hfeasible.symm.trans hf)

-- Two positions are put in order without fail. The outcome tells how they compare in every tree that
-- is left, and of the trees that have them in order none is lost. Nodes stay as they are, and so do
-- the holes but for those at the two positions, below them, or united with such ones.
theorem Intact.order_exact (hb : b.Intact p) {s v : Tree} (hs : b.tree.get? first = some s)
    (hv : b.tree.get? second = some v) (unifying : Bool) :
    ∃ outcome c, (BranchM.order p unifying first second).run b = .ok outcome c ∧
      (outcome = .less → ∀ t, c.Permits p t → t.Relates first second Tree.Before) ∧
      (outcome = .equal → ∀ t, c.Permits p t → t.Relates first second Eq) ∧
      (outcome = .violated → ∀ t, b.Permits p t → ¬ t.Relates first second Tree.UpTo) ∧
      (c.feasible = true ↔ outcome ≠ .violated) ∧
      (∀ t, t.Relates first second Tree.UpTo → (c.Permits p t ↔ b.Permits p t)) ∧
      c.classes = b.classes ∧ c.tree.skeleton = b.tree.skeleton ∧
      ∀ path category d, b.tree.get? path = some (.hole category d) →
        b.Touches first second path ∨ c.tree.get? path = some (.hole category d) := by
  obtain ⟨outcome, c, hr, hspared, hskeleton, hleft, hcompares⟩ := hb.order_spec hs hv unifying
  have hplaced (t : Tree) (ht : c.Permits p t) :
      ∃ x y, t.get? first = some x ∧ t.get? second = some y := by
    have hbefore := (ht.of_grows hb hspared.grows).covered.2
    obtain ⟨x, hx, -⟩ := hbefore.get? hs
    obtain ⟨y, hy, -⟩ := hbefore.get? hv
    exact ⟨x, y, hx, hy⟩
  have htells : c.feasible = true ↔ outcome ≠ .violated := (BranchM.tells_order unifying).ok hr
  refine ⟨outcome, c, hr, ?_, ?_, ?_, htells, fun t hle => ⟨fun ht => ?_, fun ht => ?_⟩,
    hspared.classes, hskeleton, fun path category d hd => ?_⟩
  · rintro rfl t ht
    obtain ⟨x, y, hx, hy⟩ := hplaced t ht
    exact ⟨x, y, hx, hy, hcompares ht.covered.1 t ht.completes x y hx hy⟩
  · rintro rfl t ht
    obtain ⟨x, y, hx, hy⟩ := hplaced t ht
    have hequal := hcompares ht.covered.1 t ht.completes
    exact ⟨x, y, hx, hy, Option.some.inj (hx.symm.trans (hequal.trans hy))⟩
  · rintro rfl t ht hle
    exact htells.mp (hleft t ht hle).1 rfl
  · exact ht.of_grows hb hspared.grows
  · exact ⟨ht.wellFormed, ht.complete, hleft t ht hle, hspared.classes ▸ ht.respected⟩
  · refine (hspared.spared path ⟨_, hd⟩).imp_right fun hroot => ?_
    exact get?_of_rootAt (hroot.trans (rootAt_eq_some hd))

section Twins

-- The open position loses the rule that would make it larger than the leaf.
def twinsEven : Branch :=
  { Branch.of (.node 1 [.hole "S" (.ofList [0]), .node 0 []]) with statistics := ⟨0, 1, 0, 0, 0⟩ }

theorem order_exact_twins :
    (BranchM.order .twins false [0] [1]).run twinsHalf = .ok .equal twinsEven ∧
      (∀ t, twinsEven.Permits .twins t → t.Relates [0] [1] Eq) ∧
      ∀ t, t.Relates [0] [1] Tree.UpTo → (twinsEven.Permits .twins t ↔ twinsHalf.Permits .twins t) := by
  have hrun : (BranchM.order .twins false [0] [1]).run twinsHalf = .ok .equal twinsEven := rfl
  have hhole : twinsHalf.tree.get? [0] = some (.hole "S" (.ofList [0, 1])) := rfl
  have hleaf : twinsHalf.tree.get? [1] = some (.node 0 []) := rfl
  obtain ⟨outcome, c, hr, -, hequal, -, -, hkept, -⟩ := intact_twinsHalf.order_exact hhole hleaf false
  obtain ⟨rfl, rfl⟩ := EStateM.Result.ok.inj (hrun.symm.trans hr)
  exact ⟨hrun, hequal rfl, hkept⟩

end Twins

end Branch

end TreeSearch
