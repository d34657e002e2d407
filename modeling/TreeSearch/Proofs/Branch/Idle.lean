import TreeSearch.Proofs.Branch.Congruence

namespace TreeSearch

variable {p : Problem} {b : Branch} {α β : Type}

namespace BranchM

-- Work that ends with a result and does not touch the branch.
def Idles (work : BranchM α) (b : Branch) (a : α) : Prop :=
  work.Meets b (fun x c => x = a ∧ c = b) fun _ _ => False

theorem idles_iff {work : BranchM α} {a : α} : work.Idles b a ↔ work.run b = .ok a b := by
  unfold Idles Meets
  constructor
  · intro h
    cases hr : work.run b with
    | ok x c =>
        rw [hr] at h
        obtain ⟨rfl, rfl⟩ := h
        rfl
    | error halt c =>
        rw [hr] at h
        exact h.elim
  · intro h
    rw [h]
    exact ⟨rfl, rfl⟩

theorem Idles.bind {work : BranchM β} {next : β → BranchM α} {x : β} {a : α} (h : work.Idles b x)
    (hn : (next x).Idles b a) : (work >>= next).Idles b a := by
  unfold Idles
  rw [meets_bind]
  refine Meets.mono h ?_ fun _ _ hh => hh
  rintro _ _ ⟨rfl, rfl⟩
  exact hn

theorem Idles.pure (a : α) : (pure a : BranchM α).Idles b a := ⟨rfl, rfl⟩

theorem Idles.get : (get : BranchM Branch).Idles b b := ⟨rfl, rfl⟩

theorem Idles.isFeasible (hf : b.feasible = true) : isFeasible.Idles b true := ⟨hf, rfl⟩

theorem Idles.reckon {result : Except Halt α} {a : α} (h : result = .ok a) :
    (reckon result).Idles b a := by
  unfold Idles
  rw [meets_reckon h]
  exact ⟨rfl, rfl⟩

theorem Idles.attempt {result : Except Fault α} {a : α} (h : result = .ok a) :
    (attempt result).Idles b a :=
  .reckon (Except.mapError_eq_ok.mpr h)

theorem Idles.nodeAt {path : Path} {s : Tree} (hs : b.tree.get? path = some s) :
    (nodeAt path).Idles b s := by
  unfold Idles
  rw [meets_nodeAt hs]
  exact ⟨rfl, rfl⟩

theorem Idles.whenFeasible {work : BranchM Unit} (h : work.Idles b ()) : (whenFeasible work).Idles b () :=
  meets_whenFeasible.mpr ⟨fun _ => h, fun _ => ⟨rfl, rfl⟩⟩

theorem Idles.forM {work : β → BranchM Unit} {l : List β} (h : ∀ a ∈ l, (work a).Idles b ()) :
    (l.forM work).Idles b () := by
  refine (meets_forM (fun left c => (∀ a ∈ left, a ∈ l) ∧ c = b) ?_ ⟨fun _ ha => ha, rfl⟩).mono
    (fun _ _ hc => ⟨rfl, hc.2⟩) fun _ _ hh => hh
  rintro a left c ⟨hleft, rfl⟩
  refine Meets.mono (h a (hleft a List.mem_cons_self)) ?_ fun _ _ hh => hh
  rintro _ _ ⟨-, rfl⟩
  exact ⟨fun x hx => hleft x (List.mem_cons_of_mem a hx), rfl⟩

end BranchM

namespace Branch

variable {path : Path} {first second : Path} {s : Tree}

-- The children of united positions are united.
theorem Balanced.below (hb : b.Balanced p ∅) (hf : b.feasible = true)
    (hm : second ∈ b.classes.members first) {r : Int} {cs : List Tree}
    (hs : b.tree.get? first = some (.node r cs)) {n : Nat} (hn : n < cs.length) :
    second ++ [(n : Int)] ∈ b.classes.members (first ++ [(n : Int)]) := by
  rcases b.classes.members_eq_or first with ⟨k, hk, hfirst, he⟩ | ⟨-, he⟩
  · have hlevel := (hb.level hf k hk).resolve_right (Set.notMem_empty _)
    exact hlevel.below first hfirst second (he ▸ hm) r cs.length n (rootAt_eq_inl.mpr ⟨cs, hs, rfl⟩) hn
  · rw [he, List.mem_singleton] at hm
    rw [hm]
    exact b.classes.mem_members_self _

-- No position is united with one below it.
theorem Balanced.not_below (hb : b.Balanced p ∅) (hf : b.feasible = true)
    (hm : second ∈ b.classes.members first) (hne : first ≠ second) (hs : b.tree.get? first = some s) :
    ¬ first.isPrefixOf second := by
  intro hpre
  obtain ⟨rest, rfl⟩ := List.isPrefixOf_iff_prefix.mp hpre
  have hself := (hb.get?_eq hf hm).symm.trans hs
  rw [Tree.get?_append_of_get? hs] at hself
  -- a subtree is larger than its parts
  have := Tree.size_le_of_get? hself
  refine hne ?_
  rw [List.eq_nil_of_length_eq_zero (by omega : rest.length = 0), List.append_nil]

end Branch

theorem PathClasses.Proper.unite_of_mem {c : PathClasses} (hc : c.Proper) {first second : Path}
    (h : second ∈ c.members first) : c.unite first second = c := by
  unfold PathClasses.unite
  exact if_pos (hc.same_iff.mpr h)

namespace BranchM

variable {unifying : Bool} {path first second : Path} {mask : Mask} {s : Tree}

theorem idles_narrowOne (hw : p.grammar.WellFormed none b.tree) (hm : Masked b.tree path mask) :
    (narrowOne unifying mask path).Idles b () := by
  obtain ⟨s, hs, hmask⟩ := hm
  unfold narrowOne
  refine .bind (.nodeAt hs) ?_
  cases (hw.get? hs).concrete with
  | node n cs =>
      refine .bind (.attempt (Mask.has_natCast mask n)) ?_
      have hn : n ∈ mask := hmask n rfl
      simpa [hn] using Idles.pure ()
  | hole category rules =>
      have hsame : rules.restrict mask = rules := by
        ext r
        rw [Domain.mem_restrict]
        exact ⟨And.left, fun hr => ⟨hr, hmask r hr⟩⟩
      simpa [hsame] using Idles.pure ()

theorem idles_narrow (hb : b.Balanced p ∅) (hf : b.feasible = true) (hm : Masked b.tree path mask) :
    (narrow unifying path mask).Idles b () := by
  obtain ⟨s, hs, hmask⟩ := hm
  refine .bind (.nodeAt hs) (.forM fun member hmember => .whenFeasible ?_)
  exact idles_narrowOne hb.intact.wellFormed ⟨s, (hb.get?_eq hf hmember).symm.trans hs, hmask⟩

theorem idles_fillMembers {rule : Nat} {members : List Path} (hf : b.feasible = true)
    (h : ∀ member ∈ members, ∃ cs, b.tree.get? member = some (.node rule cs)) :
    (fillMembers p unifying rule members).Idles b [] := by
  induction members with
  | nil => exact .pure _
  | cons member rest ih =>
      obtain ⟨cs, hcs⟩ := h member List.mem_cons_self
      have hone : (fillMember p unifying rule member).Idles b [] := by
        unfold fillMember
        refine .bind (.nodeAt hcs) ?_
        simpa using Idles.pure ([] : List Path)
      refine .bind hone (Idles.bind (.isFeasible hf) ?_)
      rw [if_pos rfl]
      exact .bind (ih fun other ho => h other (List.mem_cons_of_mem member ho)) (.pure _)

-- The paths of a class have been united already.
theorem foldl_unite_eq {classes : PathClasses} (hc : classes.Proper) {step : Path} {others : List Path}
    {anchor : Path} (h : ∀ q ∈ others, q ++ step ∈ classes.members (anchor ++ step)) :
    others.foldl (fun classes member => classes.unite (anchor ++ step) (member ++ step)) classes =
      classes := by
  induction others with
  | nil => rfl
  | cons q others ih =>
      rw [List.foldl_cons, hc.unite_of_mem (h q List.mem_cons_self)]
      exact ih fun r hr => h r (List.mem_cons_of_mem q hr)

theorem idles_sync (hb : b.Balanced p ∅) (hf : b.feasible = true) {fill : Filler}
    (hs : b.tree.get? path = some s)
    (hfill : ∀ (n : Nat) cs, s = .node n cs → (fill unifying path n).Idles b ()) :
    (sync fill unifying path).Idles b () := by
  have hsame (q : Path) (hq : q ∈ b.classes.members path) : b.tree.get? q = some s :=
    (hb.get?_eq hf hq).symm.trans hs
  refine meets_sync hb.intact.wellFormed (fun q hq => ⟨s, hsame q hq⟩) (fun _ => ⟨rfl, rfl⟩)
    (fun trees htrees hnone => ?_) (fun q hq n cs hv => ?_) ?_
  · refine idles_narrow hb hf ⟨s, hs, fun n hn => mem_commonRules fun t ht d hd => ?_⟩
    obtain ⟨q, hq, hv⟩ := (htrees t).mp ht
    obtain rfl := Option.some.inj ((hsame q hq).symm.trans hv)
    cases (hb.intact.wellFormed.get? hs).concrete with
    | node r cs => cases hd
    | hole => exact Option.some.inj hd ▸ hn
  · obtain rfl := Option.some.inj ((hsame q hq).symm.trans hv)
    refine Idles.bind (idles_narrow hb hf ⟨_, hs, fun m hm => ?_⟩) (.whenFeasible (hfill n cs rfl))
    rw [← Int.ofNat_inj.mp hm]
    exact (Domain.mem_singleton n n).mpr rfl
  · rintro ⟨q, hq, r, hr, i, cs, j, ds, hv, hv', hne⟩
    have he := (hsame q hq).symm.trans hv
    rw [hsame r hr] at hv'
    exact absurd (Tree.node.inj (Option.some.inj (he.symm.trans hv'))).1 hne

-- Filling where a rule has been filled in goes through all that is below, and finds it done.
theorem idles_fillClass (hb : b.Balanced p ∅) (hf : b.feasible = true) {steps rule : Nat}
    {cs : List Tree} (hs : b.tree.get? path = some (.node rule cs))
    (hdepth : (Tree.node rule cs).depth ≤ steps) : (fillClass p steps unifying path rule).Idles b () := by
  induction steps generalizing path rule cs with
  | zero => exact absurd hdepth (Nat.not_le_of_lt (Tree.depth_pos _))
  | succ steps ih =>
      have hsame (q : Path) (hq : q ∈ b.classes.members path) :
          b.tree.get? q = some (.node rule cs) := (hb.get?_eq hf hq).symm.trans hs
      obtain ⟨production, hr, -, -, harity, -⟩ :=
        Grammar.wellFormed_node_iff.mp (hb.intact.wellFormed.get? hs)
      unfold fillClass
      refine Idles.bind .get (.bind (idles_fillMembers hf fun q hq => ⟨cs, hsame q hq⟩) ?_)
      refine .whenFeasible (meets_joinAndShow hr (Idles.bind (x := ()) ?_ (.pure ())) fun _ => Idles.pure ())
      have hjoined (q : Path) (hq : q ∈ b.classes.members path) (r : Path)
          (hr : r ∈ b.classes.members path) {n : Nat} (hn : n < cs.length) :
          q ++ [(n : Int)] ∈ b.classes.members (r ++ [(n : Int)]) := by
        refine hb.below hf ?_ (hsame r hr) hn
        rwa [hb.intact.classes.members_of_mem hr]
      cases hmembers : b.classes.members path with
      | nil => exact .pure ()
      | cons anchor others =>
          rw [hmembers] at hsame hjoined
          refine .forM fun n hn => .whenFeasible ?_
          have hn : n < cs.length := harity ▸ List.mem_range.mp hn
          have hanchor := hsame anchor List.mem_cons_self
          have hunited : (modify fun b : Branch => { b with
              classes := others.foldl (fun classes member =>
                classes.unite (anchor ++ [(n : Int)]) (member ++ [(n : Int)])) b.classes } :
                BranchM Unit).Idles b () := by
            refine ⟨rfl, ?_⟩
            show { b with classes := _ } = b
            rw [foldl_unite_eq hb.intact.classes fun q hq =>
              hjoined q (List.mem_cons_of_mem anchor hq) anchor List.mem_cons_self hn]
          have hchild := Tree.get?_child hanchor (List.getElem?_eq_getElem hn)
          refine .bind hunited (idles_sync hb hf hchild fun m ds he => ?_)
          refine ih (he ▸ hchild) ?_
          have := Tree.depth_child_lt (r := (rule : Int)) (List.getElem_mem hn)
          rw [← he]
          omega

theorem idles_equate (hb : b.Balanced p ∅) (hf : b.feasible = true) {steps : Nat}
    (hs : b.tree.get? first = some s) (hm : second ∈ b.classes.members first)
    (hdepth : s.depth ≤ steps) : (equate (fillClass p steps) first second).Idles b () := by
  have hs' := (hb.get?_eq hf hm).symm.trans hs
  unfold equate
  refine .bind (.nodeAt hs) (.bind (.nodeAt hs') (Idles.bind (.isFeasible hf) ?_))
  by_cases hne : first = second
  · rw [if_pos (Or.inr hne)]
    exact .pure ()
  · have hm' : first ∈ b.classes.members second := by
      rw [hb.intact.classes.members_of_mem hm]
      exact b.classes.mem_members_self first
    rw [if_neg (by simp [hne]), if_neg (by
      rintro (h | h)
      · exact hb.not_below hf hm hne hs h
      · exact hb.not_below hf hm' (Ne.symm hne) hs' h)]
    have hunited : (modify fun b : Branch =>
        { b with classes := b.classes.unite first second } : BranchM Unit).Idles b () := by
      refine ⟨rfl, ?_⟩
      show { b with classes := b.classes.unite first second } = b
      rw [hb.intact.classes.unite_of_mem hm]
    exact .bind hunited (idles_sync hb hf hs fun n cs he =>
      idles_fillClass hb hf (he ▸ hs) (he ▸ hdepth))

end BranchM

end TreeSearch
