import TreeSearch.Proofs.Branch.Finality
import TreeSearch.Proofs.Branch.Idle
import TreeSearch.Proofs.Pattern.Relocation

namespace TreeSearch

namespace Tree

-- Two trees that refine each other are the same.
theorem Refines.antisymm {s t : Tree} (h : s.Refines t) (h' : t.Refines s) : s = t := by
  induction t using Tree.induction generalizing s with
  | node r cs ih =>
      obtain ⟨ds, rfl, hlen, hds⟩ := refines_node_iff.mp h
      obtain ⟨es, he, -, hes⟩ := refines_node_iff.mp h'
      obtain ⟨-, rfl⟩ := Tree.node.inj he
      suffices hsame : ds = cs by rw [hsame]
      refine List.ext_getElem hlen fun i hi hi' => ?_
      have hd : ds[i]? = some ds[i] := List.getElem?_eq_getElem hi
      have hc : cs[i]? = some cs[i] := List.getElem?_eq_getElem hi'
      exact ih cs[i] (List.getElem_mem hi') (hds i _ _ hd hc) (hes i _ _ hc hd)
  | hole category d =>
      rcases refines_hole_iff.mp h with ⟨e, rfl, hsub⟩ | ⟨n, cs, rfl, -⟩
      · rcases refines_hole_iff.mp h' with ⟨f, he, hsub'⟩ | ⟨n, cs, he, -⟩
        · obtain ⟨-, rfl⟩ := Tree.hole.inj he
          rw [Domain.ext fun r => ⟨hsub r, hsub' r⟩]
        · cases he
      · obtain ⟨ds, he, -⟩ := refines_node_iff.mp h'
        cases he
  | choice =>
      cases h
      rfl
  | var =>
      cases h
      rfl

-- What stays the same from beginning to end is the same in between.
theorem Refines.get?_between {s t u : Tree} {path : Path} (h : s.Refines t) (h' : t.Refines u)
    (heq : s.get? path = u.get? path) : t.get? path = u.get? path := by
  cases ht : t.get? path with
  | none =>
      cases hu : u.get? path with
      | none => rfl
      | some v =>
          obtain ⟨w, hw, -⟩ := h'.get? hu
          cases ht.symm.trans hw
  | some v =>
      obtain ⟨w, hw, hwv⟩ := h.get? ht
      rw [hw] at heq
      obtain ⟨x, hx, hxw⟩ := h'.get? heq.symm
      obtain rfl := Option.some.inj (ht.symm.trans hx)
      rw [← heq, hwv.antisymm hxw]

theorem get?_eq_of_prefix {s t : Tree} {root path : Path} (h : s.get? root = t.get? root)
    (hpre : root <+: path) : s.get? path = t.get? path := by
  obtain ⟨rest, rfl⟩ := hpre
  rw [get?_append, get?_append, h]

end Tree

variable {p : Problem} {b c e : Branch} {root : Path} {α β : Type}

namespace BranchM

-- Whenever the first work ends with the subtree below a position as it was, the second one finds
-- the same in a level branch with that subtree.
structure Echoes (p : Problem) (root : Path) (work again : BranchM α) : Prop where
  lasts : ∀ b, (Branch.lasting p).Made () work b
  idles : ∀ {b a c}, p.grammar.WellFormed none b.tree → work.run b = .ok a c → c.feasible = true →
    c.tree.get? root = b.tree.get? root → ∀ {e : Branch}, e.Balanced p ∅ → e.feasible = true →
      e.tree.get? root = b.tree.get? root → again.Idles e a

namespace Echoes

open Branch Discipline

theorem pure (a : α) : Echoes p root (pure a) (Pure.pure a) :=
  ⟨fun _ => .done a, fun _ hrun _ _ _ _ _ _ => by
    cases hrun
    exact .pure a⟩

theorem bind {work again : BranchM β} {next after : β → BranchM α} (h : Echoes p root work again)
    (hn : ∀ a, Echoes p root (next a) (after a)) : Echoes p root (work >>= next) (again >>= after) := by
  refine ⟨fun b => .followed (h.lasts b) fun a c _ => (hn a).lasts c, ?_⟩
  intro b a c hw hrun hf hview e he hfe hviewe
  obtain ⟨x, m, hm, hrest⟩ := run_bind_eq_ok.mp hrun
  obtain ⟨hwm, hbm, -⟩ := (h.lasts b hw).ok hm
  obtain ⟨-, hmc, -⟩ := ((hn x).lasts m hwm).ok hrest
  have hfm : m.feasible = true := by
    by_contra hno
    exact absurd ((hmc.infeasible (by simpa using hno)).1.symm.trans hf) nofun
  have hsame := hmc.refines.get?_between hbm.refines hview
  exact .bind (h.idles hw hm hfm hsame he hfe hviewe)
    ((hn x).idles hwm hrest hf (hview.trans hsame.symm) he hfe (hviewe.trans hsame.symm))

theorem attempt (result : Except Fault α) : Echoes p root (attempt result) (attempt result) := by
  refine ⟨fun _ => ?_, fun _ hrun _ _ _ _ _ _ => ?_⟩
  · rw [← bind_pure (BranchM.attempt result)]
    exact .attempt_bind fun a _ => .done a
  · cases result with
    | ok a =>
        cases hrun
        exact .attempt rfl
    | error fault => cases hrun

theorem isFeasible : Echoes p root isFeasible BranchM.isFeasible := by
  refine ⟨fun b => .isFeasible_bind (.done b.feasible), ?_⟩
  intro b a c _ hrun hf _ e _ hfe _
  cases hrun
  exact ⟨hfe.trans hf.symm ▸ rfl, rfl⟩

theorem nodeAt {path : Path} (hpre : root <+: path) :
    Echoes p root (nodeAt path) (BranchM.nodeAt path) := by
  refine ⟨fun b => ?_, ?_⟩
  · have hread : Echoes p root (BranchM.attempt (b.tree.get path)) (BranchM.attempt (b.tree.get path)) :=
      .attempt _
    exact .get_bind (hread.lasts b)
  intro b a c hw hrun hf hview e he hfe hviewe
  have hfound : (BranchM.nodeAt path).Meets b (fun s _ => b.tree.get? path = some s) fun _ _ => True := by
    rw [← bind_pure (BranchM.nodeAt path)]
    exact meets_nodeAt_bind (fun _ => trivial) fun s hs => hs
  refine .nodeAt ?_
  rw [Tree.get?_eq_of_prefix hviewe hpre]
  exact hfound.ok hrun

theorem narrow {path : Path} (hpre : root <+: path) (mask : Mask) (unifying unifying' : Bool) :
    Echoes p root (narrow unifying path mask) (BranchM.narrow unifying' path mask) := by
  refine ⟨fun b => made_narrow path mask, ?_⟩
  intro b a c hw hrun hf hview e he hfe hviewe
  obtain ⟨-, -, hmasked⟩ := (makes_narrow (D := lasting p) (i := ()) path mask hw).ok hrun
  obtain ⟨s, hs, hmask⟩ := hmasked hf
  refine idles_narrow he hfe ⟨s, ?_, hmask⟩
  rw [Tree.get?_eq_of_prefix (hviewe.trans hview.symm) hpre]
  exact hs

theorem fail {next after : BranchM α} (h : ∀ b, (lasting p).Made () next b) :
    Echoes p root (fail >>= fun _ => next) after := by
  refine ⟨fun b => .followed (.fail trivial) fun _ c _ => h c, ?_⟩
  intro b a c hw hrun hf hview e he hfe hviewe
  obtain ⟨x, m, hm, hrest⟩ := run_bind_eq_ok.mp hrun
  cases hm
  obtain ⟨-, hl, -⟩ := (h b.fail hw).ok hrest
  exact absurd ((hl.infeasible rfl).1.symm.trans hf) nofun

section Order

variable {first second : Path} {unifying unifying' : Bool}

theorem compareRoots (r q : Int) : Echoes p root (compareRoots p r q) (BranchM.compareRoots p r q) := by
  unfold BranchM.compareRoots
  split
  · exact .pure _
  · split
    · exact .fail fun _ => .done _
    · refine .bind (.attempt _) fun terminal => ?_
      split <;> exact .pure _

theorem lookAgain (hfirst : root <+: first) (hsecond : root <+: second) :
    Echoes p root (lookAgain p first second) (BranchM.lookAgain p first second) := by
  unfold BranchM.lookAgain
  refine .bind .isFeasible fun feasible => ?_
  split
  · exact .pure _
  · refine .bind (.nodeAt hfirst) fun s => .bind (.nodeAt hsecond) fun t => ?_
    split
    · exact .compareRoots _ _
    · refine .bind (.attempt _) fun high => .bind (.attempt _) fun low => ?_
      split <;> exact .pure _

theorem compareHoles (hfirst : root <+: first) (hsecond : root <+: second) (s t : Tree) :
    Echoes p root (compareHoles p unifying first second s t)
      (BranchM.compareHoles p unifying' first second s t) := by
  rw [compareHoles_eq, compareHoles_eq]
  refine .bind ?_ fun _ => .lookAgain hfirst hsecond
  split
  · exact .bind (.attempt _) fun _ => .narrow hfirst _ _ _
  · exact .bind (.attempt _) fun _ => .narrow hsecond _ _ _
  · refine .bind (.attempt _) fun high => .bind (.bind (.attempt _) fun _ => .narrow hfirst _ _ _) fun _ => ?_
    exact .bind (.attempt _) fun low => .bind (.attempt _) fun _ => .narrow hsecond _ _ _

theorem orderWith {below after : BranchM Comparison} (hfirst : root <+: first)
    (hsecond : root <+: second) (h : Echoes p root below after) :
    Echoes p root (orderWith p unifying below first second)
      (BranchM.orderWith p unifying' after first second) := by
  unfold BranchM.orderWith
  refine .bind .isFeasible fun feasible => ?_
  split
  · exact .pure _
  · refine .bind (.nodeAt hfirst) fun s => .bind (.nodeAt hsecond) fun t => ?_
    split
    · split
      · split
        · exact h
        · exact .compareRoots _ _
      · exact .compareRoots _ _
    · exact .compareHoles hfirst hsecond s t

theorem orderFrom (t : Tree) (hfirst : root <+: first) (hsecond : root <+: second) :
    Echoes p root (orderFrom p unifying t first second)
      (BranchM.orderFrom p unifying' t first second) := by
  have hbelow {path : Path} (h : root <+: path) (index : Nat) : root <+: path ++ [(index : Int)] :=
    h.trans (List.prefix_append _ _)
  induction t using Tree.induction generalizing first second with
  | node r cs ih =>
      have hchildren (index : Nat) : Echoes p root (orderChildren p unifying cs index first second)
          (orderChildren p unifying' cs index first second) := by
        induction cs generalizing index with
        | nil => exact .pure _
        | cons c cs ihc =>
            rw [orderChildren, orderChildren]
            refine .bind (ih c List.mem_cons_self (hbelow hfirst index) (hbelow hsecond index)) fun outcome => ?_
            split
            · exact ihc (fun d hd => ih d (List.mem_cons_of_mem c hd)) (index + 1)
            · exact .pure _
      exact .orderWith hfirst hsecond (hchildren 0)
  | hole => exact .orderWith hfirst hsecond (.pure _)
  | choice => exact .orderWith hfirst hsecond (.pure _)
  | var => exact .orderWith hfirst hsecond (.pure _)

theorem order (hfirst : root <+: first) (hsecond : root <+: second) :
    Echoes p root (order p unifying first second) (BranchM.order p unifying' first second) := by
  unfold BranchM.order
  refine .bind .isFeasible fun feasible => ?_
  split
  · exact .pure _
  · exact .bind (.nodeAt hfirst) fun s => .orderFrom s hfirst hsecond

end Order

end Echoes

open Branch Discipline

theorem run_attempt_eq_ok {result : Except Fault α} {a : α} :
    (attempt result).run b = .ok a c ↔ result = .ok a ∧ c = b := by
  cases result with
  | ok x =>
      constructor
      · intro h
        cases h
        exact ⟨rfl, rfl⟩
      · rintro ⟨h, rfl⟩
        cases h
        rfl
  | error fault => exact ⟨nofun, nofun⟩

theorem Idles.run_bind {work : BranchM β} {next : β → BranchM α} {x : β} (h : work.Idles b x) :
    (work >>= next).run b = (next x).run b := by
  rw [BranchM.run_bind, idles_iff.mp h]

section Names

variable {w : Watch} {bindings : List Binding} {name next : String} {names rest : List String}
  {settled unifying : Bool}

-- What is left to do after one pair of variables was put in order.
def orderRest (p : Problem) (unifying : Bool) (w : Watch) (bindings : List Binding)
    (names : List String) (settled : Bool) : Comparison → BranchM Unit
  | .violated => return
  | .undecided => orderNames p unifying w bindings names false
  | .less | .equal => orderNames p unifying w bindings names settled

theorem orderNames_cons : orderNames p unifying w bindings (name :: next :: rest) settled = (do
    let first ← attempt (pathOf bindings name)
    let second ← attempt (pathOf bindings next)
    let outcome ← order p unifying first second
    orderRest p unifying w bindings (next :: rest) settled outcome) := by
  rw [orderNames]
  refine bind_congr fun first => bind_congr fun second => bind_congr fun outcome => ?_
  cases outcome <;> rfl

theorem run_orderNames_cons
    (h : (orderNames p unifying w bindings (name :: next :: rest) settled).run b = .ok () c) :
    ∃ first second outcome m, pathOf bindings name = .ok first ∧ pathOf bindings next = .ok second ∧
      (order p unifying first second).run b = .ok outcome m ∧
      (orderRest p unifying w bindings (next :: rest) settled outcome).run m = .ok () c := by
  rw [orderNames_cons] at h
  obtain ⟨first, _, hread, hlater⟩ := run_bind_eq_ok.mp h
  obtain ⟨hfirst, rfl⟩ := run_attempt_eq_ok.mp hread
  obtain ⟨second, _, hread', hlater'⟩ := run_bind_eq_ok.mp hlater
  obtain ⟨hsecond, rfl⟩ := run_attempt_eq_ok.mp hread'
  obtain ⟨outcome, m, horder, hrest⟩ := run_bind_eq_ok.mp hlater'
  exact ⟨first, second, outcome, m, hfirst, hsecond, horder, hrest⟩

theorem lasts_orderRest (outcome : Comparison) :
    (lasting p).Made () (orderRest p unifying w bindings names settled outcome) b := by
  cases outcome with
  | violated => exact .done ()
  | undecided => exact made_orderNames trivial _ _
  | less => exact made_orderNames trivial _ _
  | equal => exact made_orderNames trivial _ _

theorem prefix_of_pathOf (hbelow : ∀ x ∈ bindings, root <+: x.path) {path : Path}
    (h : pathOf bindings name = .ok path) : root <+: path := by
  unfold pathOf at h
  split at h
  · rename_i x hx
    cases h
    exact hbelow x (List.mem_of_find?_eq_some hx)
  · cases h

-- The names of some variables put in order once more. All that may happen is that their constraint
-- retires.
theorem orderNames_again (hbelow : ∀ x ∈ bindings, root <+: x.path)
    (hw : p.grammar.WellFormed none b.tree)
    (hrun : (orderNames p unifying w bindings names settled).run b = .ok () c)
    (hf : c.feasible = true) (hview : c.tree.get? root = b.tree.get? root) (he : e.Balanced p ∅)
    (hfe : e.feasible = true) (hviewe : e.tree.get? root = b.tree.get? root) :
    ∃ d, (orderNames p false w bindings names settled).run e = .ok () d ∧ (d = e ∨ d = e.retire w) := by
  have hlast (settled : Bool) :
      ∃ d, (if settled = true then modify (·.retire w) else return : BranchM Unit).run e = .ok () d ∧
        (d = e ∨ d = e.retire w) := by
    split
    · exact ⟨_, rfl, Or.inr rfl⟩
    · exact ⟨_, rfl, Or.inl rfl⟩
  induction names generalizing b settled with
  | nil => exact hlast settled
  | cons name names ih =>
      cases names with
      | nil => exact hlast settled
      | cons next rest =>
          obtain ⟨first, second, outcome, m, hfirst, hsecond, horder, hrest⟩ := run_orderNames_cons hrun
          obtain ⟨hwm, hbm, -⟩ := (made_order (D := lasting p) (i := ()) hw).ok horder
          obtain ⟨-, hmc, -⟩ := (lasts_orderRest outcome hwm).ok hrest
          have hfm : m.feasible = true := by
            by_contra hno
            exact Bool.noConfusion ((hmc.infeasible (by simpa using hno)).1.symm.trans hf)
          -- The tree is the same before and after all the work, so it is the same in between.
          have hsame := hmc.refines.get?_between hbm.refines hview
          have hecho : Echoes p root (BranchM.order p unifying first second)
              (BranchM.order p false first second) :=
            .order (prefix_of_pathOf hbelow hfirst) (prefix_of_pathOf hbelow hsecond)
          have hagain := hecho.idles hw horder hfm hsame he hfe hviewe
          rw [orderNames_cons, (Idles.attempt hfirst).run_bind, (Idles.attempt hsecond).run_bind,
            hagain.run_bind]
          have hmview := hview.trans hsame.symm
          have hmviewe := hviewe.trans hsame.symm
          cases outcome with
          | violated => exact ⟨e, rfl, Or.inl rfl⟩
          | undecided => exact ih hwm hrest hmview hmviewe
          | less => exact ih hwm hrest hmview hmviewe
          | equal => exact ih hwm hrest hmview hmviewe

end Names

end BranchM

end TreeSearch
