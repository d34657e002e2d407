import TreeSearch.Proofs.Branch.Parts
import TreeSearch.Proofs.Branch.Invariants

namespace TreeSearch

variable {p : Problem} {b c : Branch} {owed owed' : List (Constraint × Path)} {α β : Type}

-- The announcements that some new positions call for.
def Problem.owes (p : Problem) (paths : List Path) : List (Constraint × Path) :=
  paths.flatMap fun path => p.grammar.constraints.map (·, path)

-- What a constraint asked for when it was shown a position, in the tree as it was then, is watched
-- from then on.
structure Announcement.Answered (p : Problem) (b : Branch) (entry : Announcement) : Prop where
  asked : ∃ t, b.tree.Refines t ∧ entry.constraint.watchAt p t entry.path = .ok entry.asked
  watched : ∀ w ∈ entry.asked, w ∈ b.active ∨ w ∈ b.retired

-- As long as a branch is feasible, a constraint has been shown each position of the tree once for
-- every time that it is attached, apart from what is owed, and no other position at all. What it asked
-- for has been done.
structure Branch.Told (p : Problem) (owed : List (Constraint × Path)) (b : Branch) : Prop where
  wellFormed : p.grammar.WellFormed none b.tree
  answered : ∀ entry ∈ b.log, entry.Answered p b
  counted : b.feasible = true → ∀ k path, b.announced.count (k, path) + owed.count (k, path) =
    if (b.tree.get? path).isSome then p.grammar.constraints.count k else 0

section Owing

theorem Problem.owes_cons (path : Path) (paths : List Path) :
    p.owes (path :: paths) = p.grammar.constraints.map (·, path) ++ p.owes paths := rfl

theorem Problem.owes_append (paths more : List Path) :
    p.owes (paths ++ more) = p.owes paths ++ p.owes more := List.flatMap_append

theorem count_shown (constraints : List Constraint) (path q : Path) (k : Constraint) :
    (constraints.map (·, path)).count (k, q) = if path = q then constraints.count k else 0 := by
  split
  · rename_i he
    subst he
    exact List.count_map_of_injective constraints (·, path) (fun _ _ h => (Prod.mk.inj h).1) k
  · rename_i hne
    refine List.count_eq_zero.mpr fun hmem => hne ?_
    obtain ⟨_, -, he⟩ := List.mem_map.mp hmem
    exact (Prod.mk.inj he).2

theorem Problem.count_owes (paths : List Path) (k : Constraint) (q : Path) :
    (p.owes paths).count (k, q) = paths.count q * p.grammar.constraints.count k := by
  induction paths with
  | nil => simp [owes]
  | cons path paths ih =>
      rw [owes_cons, List.count_append, ih, count_shown, List.count_cons]
      by_cases he : path = q
      · simp [he, Nat.add_mul, Nat.add_comm]
      · simp [he]

end Owing

-- What is watched stays watched while the tree is refined.
theorem Announcement.Answered.mono {entry : Announcement} (h : entry.Answered p b)
    (hr : c.tree.Refines b.tree)
    (hknown : ∀ w, w ∈ b.active ∨ w ∈ b.retired → w ∈ c.active ∨ w ∈ c.retired) : entry.Answered p c := by
  obtain ⟨t, ht, hasked⟩ := h.asked
  exact ⟨⟨t, hr.trans ht, hasked⟩, fun w hw => hknown w (h.watched w hw)⟩

namespace Branch.Told

-- Neither the tree nor the log changes, and nothing that was watched is forgotten.
theorem remain (h : b.Told p owed) (htree : c.tree = b.tree) (hlog : c.log = b.log)
    (hf : c.feasible = true → b.feasible = true)
    (hknown : ∀ w, w ∈ b.active ∨ w ∈ b.retired → w ∈ c.active ∨ w ∈ c.retired) : c.Told p owed := by
  refine ⟨htree ▸ h.wellFormed, fun entry he => ?_, fun hc k path => ?_⟩
  · exact (h.answered entry (hlog ▸ he)).mono (htree ▸ .refl _) hknown
  · rw [htree, announced, hlog]
    exact h.counted (hf hc) k path

theorem congr (h : b.Told p owed) (hsame : ∀ x, owed'.count x = owed.count x) : b.Told p owed' :=
  ⟨h.wellFormed, h.answered, fun hf k path => by rw [hsame]; exact h.counted hf k path⟩

-- In a failed branch nothing is owed any more.
theorem of_infeasible (h : b.Told p owed) (hf : b.feasible = false) : b.Told p owed' :=
  ⟨h.wellFormed, h.answered, fun hf' => absurd (hf.symm.trans hf') nofun⟩

theorem fail (h : b.Told p owed) : b.fail.Told p owed' := by
  have hfailed : b.fail.Told p owed := h.remain rfl rfl (fun hf => Bool.noConfusion hf) fun _ hw => hw
  exact hfailed.of_infeasible rfl

theorem retire (h : b.Told p owed) (w : Watch) : (b.retire w).Told p owed :=
  h.remain rfl rfl (fun hf => hf) fun _ hv => known_retire w hv

theorem enlist (h : b.Told p owed) (w : Watch) : (b.enlist w).Told p owed := by
  unfold Branch.enlist
  split
  · exact h
  · exact h.remain rfl rfl (fun hf => hf) fun v hv =>
      hv.imp_left fun hv => (OrderedSet.mem_insert _ _ _).mpr (Or.inl hv)

-- An announcement pays what is owed.
theorem log {k : Constraint} {path : Path} {asked : Option Watch} (h : b.Told p ((k, path) :: owed))
    (ha : Announcement.Answered p b ⟨k, path, asked⟩) :
    { b with log := ⟨k, path, asked⟩ :: b.log }.Told p owed := by
  refine ⟨h.wellFormed, fun entry he => ?_, fun hf j q => ?_⟩
  · rcases List.mem_cons.mp he with rfl | he
    · exact ha.mono (.refl _) fun _ hw => hw
    · exact (h.answered entry he).mono (.refl _) fun _ hw => hw
  · have hsame := h.counted hf j q
    rw [List.count_cons] at hsame
    show ((k, path) :: b.announced).count (j, q) + owed.count (j, q) =
      if (b.tree.get? q).isSome then p.grammar.constraints.count j else 0
    rw [List.count_cons]
    omega

-- An edit calls for the announcement of the positions that it opens.
theorem edit (h : b.Told p owed) (unifying : Bool) (statistics : Statistics) {path : Path}
    {old new tree : Tree} (change : Edit p path old new)
    (replaced : Tree.Replaced old new path b.tree tree) {opened : List Path} (hnodup : opened.Nodup)
    (hfresh : ∀ q ∈ opened, b.tree.get? q = none)
    (hopened : ∀ q, (∃ s, tree.get? q = some s) ↔ (∃ s, b.tree.get? q = some s) ∨ q ∈ opened) :
    (({ b with tree, statistics } : Branch).notify unifying path).Told p (p.owes opened ++ owed) := by
  refine ⟨?_, fun entry he => ?_, fun hf k q => ?_⟩
  · rw [Branch.notify_tree]
    exact h.wellFormed.replaced replaced fun _ => change.wellFormed
  · rw [Branch.notify_log] at he
    refine (h.answered entry he).mono ?_ fun w hw => ?_
    · rw [Branch.notify_tree]
      exact replaced.refines change.refines
    · rw [Branch.mem_notify_active, Branch.mem_notify_retired]
      have hw : w ∈ b.active ∨ w ∈ b.retired := hw
      tauto
  · rw [Branch.notify_feasible] at hf
    rw [Branch.notify_announced, Branch.notify_tree, List.count_append, Problem.count_owes]
    show b.announced.count (k, q) + _ = if (tree.get? q).isSome then p.grammar.constraints.count k else 0
    have hold := h.counted hf k q
    have hiff := hopened q
    rw [← Option.isSome_iff_exists, ← Option.isSome_iff_exists] at hiff
    by_cases hq : q ∈ opened
    · rw [hfresh q hq] at hold
      rw [if_pos (hiff.mpr (Or.inr hq)), List.count_eq_one_of_mem hnodup hq]
      simp only [Option.isSome_none, Bool.false_eq_true, if_false] at hold
      omega
    · rw [List.count_eq_zero_of_not_mem hq]
      have hsame : (tree.get? q).isSome = (b.tree.get? q).isSome := by
        rw [Bool.eq_iff_iff, hiff]
        simp [hq]
      rw [hsame]
      omega

end Branch.Told

section Opening

variable {path : Path} {category : String} {rules kept : Domain} {rule : Nat} {holes : List Tree} {t u : Tree}

theorem exists_get?_narrowed (hr : Tree.Replaced (.hole category rules) (.hole category kept) path t u) (q : Path) :
    (∃ s, u.get? q = some s) ↔ (∃ s, t.get? q = some s) ∨ q ∈ ([] : List Path) := by
  have hsame : u.skeleton = t.skeleton := hr.skeleton_eq rfl
  have hview := (Tree.get?_skeleton u q).symm.trans ((congrArg (Tree.get? · q) hsame).trans (t.get?_skeleton q))
  rw [← Option.isSome_iff_exists, ← Option.isSome_iff_exists, ← Option.isSome_map, hview, Option.isSome_map]
  simp

theorem exists_get?_filled (change : Edit p path (.hole category rules) (.node rule holes))
    (hr : Tree.Replaced (.hole category rules) (.node rule holes) path t u) (q : Path) :
    (∃ s, u.get? q = some s) ↔ (∃ s, t.get? q = some s) ∨
      q ∈ (List.range holes.length).map fun (index : Nat) => path ++ [(index : Int)] := by
  constructor
  · rintro ⟨s, hs⟩
    rcases hr.get?_of_new hs with hv | ⟨rest, rfl, hne, hnew⟩
    · exact Or.inl hv
    · obtain ⟨hlen, -⟩ := change.get?_new_below hnew hne
      obtain ⟨i, rfl⟩ := List.length_eq_one_iff.mp hlen
      rw [Tree.get?_cons] at hnew
      obtain ⟨hole, hhole, -⟩ := Option.bind_eq_some_iff.mp hnew
      obtain ⟨n, rfl, hn⟩ := Tree.child?_eq_some.mp hhole
      exact Or.inr (List.mem_map.mpr ⟨n, List.mem_range.mpr (List.getElem?_eq_some_iff.mp hn).1, rfl⟩)
  · rintro (⟨s, hs⟩ | hq)
    · obtain ⟨v, hv, -⟩ := (hr.refines change.refines).get? hs
      exact ⟨v, hv⟩
    · obtain ⟨n, hn, rfl⟩ := List.mem_map.mp hq
      rw [Tree.get?_below hr.get?_new]
      exact ⟨_, List.getElem?_eq_getElem (List.mem_range.mp hn)⟩

theorem nodup_children (path : Path) (n : Nat) :
    ((List.range n).map fun (index : Nat) => path ++ [(index : Int)]).Nodup := by
  refine List.nodup_range.map fun i j h => Int.ofNat_inj.mp ?_
  simpa using h

theorem get?_below_hole (hs : t.get? path = some (.hole category rules)) (i : Int) :
    t.get? (path ++ [i]) = none := by
  rw [Tree.get?_append_of_get? hs, Option.eq_none_iff_forall_ne_some]
  intro s h
  cases (Tree.get?_hole_eq_some h).1

end Opening

namespace BranchM

variable {unifying : Bool}

theorem told_narrowOne {H : Halt → Prop} (p : Problem) (owed : List (Constraint × Path)) (unifying : Bool)
    (mask : Mask) (path : Path) : Outlasts (Branch.Told p owed) H (narrowOne unifying mask path) := by
  intro b hb
  cases hs : b.tree.get? path with
  | none => exact meets_nodeAt_none hs fun _ _ => hb
  | some s =>
      refine meets_narrowOne hs (hb.wellFormed.get? hs) (fun _ => hb) (fun _ => hb.fail) ?_
      rintro category rules tree statistics rfl change replaced
      exact hb.edit unifying statistics change replaced .nil nofun (exists_get?_narrowed replaced)

theorem steady_told (p : Problem) (owed : List (Constraint × Path)) :
    Steady p fun work => Preserves (Branch.Told p owed) (fun _ => True) work := by
  exact (inherited_preserves fun _ => trivial).steady (fun _ => .reckon fun _ _ => trivial) (.modify fun b hb => hb.fail)
    (fun w => .modify fun b hb => hb.retire w) (fun w => .modify fun b hb => hb.enlist w)
    fun unifying mask path => (told_narrowOne (H := fun _ => True) p owed unifying mask path).preserves

-- Filling that announces what it opens.
def TellsFills (p : Problem) (fill : Filler) : Prop :=
  ∀ owed unifying path rule, Preserves (Branch.Told p owed) (fun _ => True) (fill unifying path rule)

section Unifying

variable {fill : Filler} (hfill : TellsFills p fill)

include hfill

theorem told_equate (first second : Path) :
    Preserves (Branch.Told p owed) (fun _ => True) (equate fill first second) :=
  (steady_told p owed).equate (hfill owed) (fun _ => .modify fun _ hb => hb.remain rfl rfl (fun hf => hf) fun _ hw => hw)
    first second

theorem told_joinChildren (members : List Path) (arity : Nat) :
    Preserves (Branch.Told p owed) (fun _ => True) (joinChildren fill unifying members arity) :=
  (steady_told p owed).joinChildren (hfill owed) (fun _ => .modify fun _ hb => hb.remain rfl rfl (fun hf => hf) fun _ hw => hw)
    unifying members arity

theorem told_propagate (w : Watch) :
    Preserves (Branch.Told p owed) (fun _ => True) (propagate p fill unifying w) :=
  (steady_told p owed).propagate (fun _ => .reckon fun _ _ => trivial) fun _ _ first second _ _ => told_equate hfill first second

-- What the constraint asks for is in service before it acts.
theorem told_announceTo {path : Path} {k : Constraint} (hb : b.Told p ((k, path) :: owed))
    (hf : b.feasible = true) :
    (announceTo p fill unifying path k).Meets b (fun _ c => c.Told p owed) fun _ _ => True := by
  unfold announceTo
  rw [meets_bind, meets_get, meets_bind]
  cases hasked : k.watchAt p b.tree path with
  | error fault => trivial
  | ok asked =>
      rw [meets_attempt rfl, meets_bind, meets_modify]
      have hread : ∃ t, b.tree.Refines t ∧ k.watchAt p t path = .ok asked := ⟨b.tree, .refl _, hasked⟩
      cases asked with
      | none => exact hb.log ⟨hread, nofun⟩
      | some w =>
          dsimp only
          rw [post_eq, meets_bind, meets_get]
          split
          · rename_i hstop
            have hknown : w ∈ b.active ∨ w ∈ b.retired := by simpa [hf] using hstop
            exact hb.log ⟨hread, fun _ he => Option.some.inj he ▸ hknown⟩
          · rename_i hgo
            have hnew : ¬ (w ∈ b.active ∨ w ∈ b.retired) := fun hknown => hgo (Or.inr hknown)
            rw [meets_bind, meets_modify]
            have henlisted := hb.enlist w
            have hin : w ∈ (b.enlist w).active := by
              rw [Branch.enlist, if_neg hnew]
              exact (OrderedSet.mem_insert _ _ _).mpr (Or.inr rfl)
            have hsame : Branch.enlist { b with log := ⟨k, path, some w⟩ :: b.log } w =
                { b.enlist w with log := ⟨k, path, some w⟩ :: (b.enlist w).log } := by
              rw [Branch.enlist, Branch.enlist, if_neg hnew, if_neg hnew]
            rw [hsame]
            refine told_propagate hfill w _ (henlisted.log ⟨?_, fun _ he => Option.some.inj he ▸ Or.inl hin⟩)
            rwa [Branch.enlist, if_neg hnew]

theorem told_announce {path : Path} (hb : b.Told p (p.owes [path] ++ owed)) :
    (announce p fill unifying path).Meets b (fun _ c => c.Told p owed) fun _ _ => True := by
  refine meets_forM (fun left c => c.Told p (left.map (·, path) ++ owed)) (fun k left c hc => ?_) ?_
  · refine meets_whenFeasible.mpr ⟨fun hf => told_announceTo hfill hc hf, fun hf => hc.of_infeasible hf⟩
  · simpa [Problem.owes] using hb

theorem told_announceAll {paths : List Path} (hb : b.Told p (p.owes paths ++ owed)) :
    (paths.forM fun path => whenFeasible (announce p fill unifying path)).Meets b
      (fun _ c => c.Told p owed) fun _ _ => True := by
  refine meets_forM (fun left c => c.Told p (p.owes left ++ owed)) (fun path left c hc => ?_) hb
  refine meets_whenFeasible.mpr ⟨fun _ => told_announce hfill (hc.congr fun x => ?_), fun hf => hc.of_infeasible hf⟩
  simp [Problem.owes]

end Unifying

section Filling

variable {rule : Nat}

theorem told_fillMember (hg : p.grammar.Regular) (hb : b.Told p owed) (path : Path) :
    (fillMember p unifying rule path).Meets b (fun opened c => c.Told p (p.owes opened ++ owed))
      fun _ _ => True := by
  cases hs : b.tree.get? path with
  | none => exact meets_nodeAt_none hs fun _ => trivial
  | some s =>
      refine meets_fillMember hs (hb.wellFormed.get? hs) (fun _ _ => hb) (fun _ => hb.fail) ?_
      rintro category rules rfl hmem
      refine meets_fillOne hg hs (hb.wellFormed.get? hs) hmem (fun _ => trivial) (fun _ _ _ _ _ => hb.fail) ?_
      intro production holes tree statistics _ _ change replaced
      refine hb.edit unifying statistics change replaced (nodup_children path holes.length) ?_
        (exists_get?_filled change replaced)
      intro q hq
      obtain ⟨n, -, rfl⟩ := List.mem_map.mp hq
      exact get?_below_hole hs n

theorem told_fillMembers (hg : p.grammar.Regular) (members : List Path) (hb : b.Told p owed) :
    (fillMembers p unifying rule members).Meets b (fun opened c => c.Told p (p.owes opened ++ owed))
      fun _ _ => True := by
  induction members generalizing b owed with
  | nil => exact hb
  | cons member rest ih =>
      unfold fillMembers
      rw [meets_bind]
      refine (told_fillMember hg hb member).mono (fun opened c hc => ?_) fun _ _ hh => hh
      rw [meets_bind, meets_isFeasible]
      split
      · rw [meets_bind]
        refine (ih hc).mono (fun more d hd => hd.congr fun x => ?_) fun _ _ hh => hh
        rw [Problem.owes_append]
        simp only [List.count_append]
        omega
      · rename_i hf
        exact hc.of_infeasible (by simpa using hf)

theorem tellsFills_fillClass (hg : p.grammar.Regular) (steps : Nat) : TellsFills p (fillClass p steps) := by
  induction steps with
  | zero => exact fun _ _ _ _ _ _ => trivial
  | succ steps ih =>
      intro owed unifying path rule b hb
      unfold fillClass
      rw [meets_bind, meets_get, meets_bind]
      refine (told_fillMembers hg _ hb).mono (fun opened c hc => ?_) fun _ _ hh => hh
      refine meets_whenFeasible.mpr ⟨fun _ => ?_, fun hf => hc.of_infeasible hf⟩
      split
      · rw [meets_bind]
        have hread : Preserves (Branch.Told p (p.owes opened ++ owed)) (fun _ => True)
            (attempt (p.grammar.arity rule)) := .attempt (fun _ => trivial) _
        refine (hread c hc).mono (fun arity d hd => ?_) fun _ _ hh => hh
        rw [meets_bind]
        exact (told_joinChildren ih _ arity d hd).mono (fun _ e he => told_announceAll ih he) fun _ _ hh => hh
      · exact told_announceAll ih hc

end Filling

end BranchM

end TreeSearch
