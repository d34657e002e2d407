import TreeSearch.Proofs.Branch.Narrowing

namespace TreeSearch

-- A complete tree of the grammar within the limits and under all constraints.
structure Problem.Solves (p : Problem) (t : Tree) : Prop where
  wellFormed : p.grammar.WellFormed none t
  complete : t.Complete
  admits : p.bounds.Admits t
  holds : ∀ c ∈ p.grammar.constraints, c.Holds t

variable {p : Problem} {T : Tree → Prop} {busy : Watch → Prop} {owed : Path → Prop}
  {limit : Nat → Prop} {b c : Branch} {α β : Type}

theorem Problem.Solves.completes {t : Tree} (h : p.Solves t) (hc : b.Covers t) :
    p.Completes t b.tree :=
  ⟨h.wellFormed, h.complete, hc.2⟩

-- What an outcome says about two positions of a tree.
def Compares (p : Problem) (t : Tree) (first second : Path) : Comparison → Prop
  | .less => ∀ u, p.Completes u t → ∀ s v, u.get? first = some s → u.get? second = some v →
      s.Before v
  | .equal => ∀ u, p.Completes u t → u.get? first = u.get? second
  | .undecided => ∀ s v, t.get? first = some s → t.get? second = some v →
      ¬ (s.Complete ∧ v.Complete)
  | .violated => False

-- What putting two positions in order comes to. No position is decided by it, and unless the
-- branch is given up, the outcome tells how the two compare.
def Sorts (p : Problem) (first second : Path) (b : Branch) (outcome : Comparison) (c : Branch) : Prop :=
  Narrowed b c ∧ (c.feasible = true → Compares p c.tree first second outcome)

-- The children of two positions before an index are equal in all completions.
def Abreast (p : Problem) (t : Tree) (first second : Path) (index : Nat) : Prop :=
  ∀ i < index, ∀ u, p.Completes u t → u.get? (first ++ [(i : Int)]) = u.get? (second ++ [(i : Int)])

section Children

variable {t : Tree} {first second : Path} {index : Nat}

theorem Abreast.refines {t' : Tree} (h : Abreast p t first second index) (hr : t'.Refines t) :
    Abreast p t' first second index :=
  fun i hi u hu => h i hi u (hu.of_refines hr)

theorem Abreast.succ (h : Abreast p t first second index)
    (hequal : Compares p t (first ++ [(index : Int)]) (second ++ [(index : Int)]) .equal) :
    Abreast p t first second (index + 1) := by
  intro i hi u hu
  rcases Nat.lt_succ_iff_lt_or_eq.mp hi with hlt | rfl
  · exact h i hlt u hu
  · exact hequal u hu

variable {r : Int} {es fs : List Tree} (hs : t.get? first = some (.node r es))
  (hv : t.get? second = some (.node r fs))

include hs hv

-- Both nodes stay in a completion, and they agree on their first children.
theorem Abreast.nodes (h : Abreast p t first second index) {u : Tree} (hu : p.Completes u t) :
    ∃ es' fs', u.get? first = some (.node r es') ∧ u.get? second = some (.node r fs') ∧
      ∀ i < index, es'[i]? = fs'[i]? := by
  obtain ⟨es', hes, -⟩ := hu.root hs
  obtain ⟨fs', hfs, -⟩ := hu.root hv
  refine ⟨es', fs', hes, hfs, fun i hi => ?_⟩
  rw [← Tree.get?_below hes, ← Tree.get?_below hfs]
  exact h i hi u hu

theorem Abreast.compares_equal (h : Abreast p t first second index) (hlen : es.length = fs.length)
    (hle : es.length ≤ index) : Compares p t first second .equal := by
  intro u hu
  obtain ⟨es', hes, hel⟩ := hu.root hs
  obtain ⟨fs', hfs, hfl⟩ := hu.root hv
  exact (Tree.get?_eq_iff hes hfs (by omega)).mpr fun i hi => h i (by omega) u hu

-- The first children that are not equal decide.
theorem Compares.of_child {outcome : Comparison} (h : Abreast p t first second index)
    (hi : index < es.length) (hi' : index < fs.length) (hne : outcome ≠ .equal)
    (hchild : Compares p t (first ++ [(index : Int)]) (second ++ [(index : Int)]) outcome) :
    Compares p t first second outcome := by
  have hs' := Tree.get?_child hs (List.getElem?_eq_getElem hi)
  have hv' := Tree.get?_child hv (List.getElem?_eq_getElem hi')
  cases outcome with
  | less =>
      intro u hu x y hx hy
      obtain ⟨es', fs', hes, hfs, hsame⟩ := h.nodes hs hv hu
      obtain rfl := Option.some.inj (hes.symm.trans hx)
      obtain rfl := Option.some.inj (hfs.symm.trans hy)
      obtain ⟨x, hx', -⟩ := hu.get? hs'
      obtain ⟨y, hy', -⟩ := hu.get? hv'
      have hlt := hchild u hu x y hx' hy'
      rw [Tree.get?_below hes] at hx'
      rw [Tree.get?_below hfs] at hy'
      exact Tree.before_of_child hsame hx' hy' hlt
  | equal => exact absurd rfl hne
  | undecided =>
      rintro x y hx hy ⟨hcx, hcy⟩
      refine hchild _ _ hs' hv' ⟨?_, ?_⟩
      · rw [Tree.get?_append_of_get? hx] at hs'
        exact hcx.get? hs'
      · rw [Tree.get?_append_of_get? hy] at hv'
        exact hcy.get? hv'
  | violated => exact hchild

end Children

section Rules

variable {t s : Tree} {path : Path}

-- A decided position has its rule in all completions.
theorem decided_spec (hw : p.grammar.WellFormed none t) (hs : t.get? path = some s) {r : Int}
    (hr : s.decided? = some r) : ∃ (n : Nat) (rule : Rule), r = n ∧ p.grammar.rule? n = some rule ∧
      ∀ u, p.Completes u t → ∃ cs, u.get? path = some (.node n cs) := by
  cases (hw.get? hs).concrete with
  | node n cs =>
      obtain rfl : (n : Int) = r := by simpa [Tree.decided?] using hr
      obtain ⟨rule, hrule, -⟩ := Grammar.wellFormed_node_iff.mp (hw.get? hs)
      refine ⟨n, rule, rfl, hrule, fun u hu => ?_⟩
      obtain ⟨ds, hds, -⟩ := hu.root hs
      exact ⟨ds, hds⟩
  | hole category d =>
      obtain ⟨n, rfl, rfl⟩ := Tree.decided?_hole_eq_some.mp hr
      obtain ⟨rule, hrule, -⟩ := (Grammar.wellFormed_hole_iff.mp (hw.get? hs)).2.2 n
        ((Domain.mem_singleton n n).mpr rfl)
      refine ⟨n, rule, rfl, hrule, fun u hu => ?_⟩
      obtain ⟨m, cs, hm, hmem⟩ := hu.rootIn hs
      obtain rfl := (Domain.mem_singleton m n).mp hmem
      exact ⟨cs, hm⟩

-- An open position without rules.
def Hopeless (t : Tree) : Prop :=
  ∃ path category d, t.get? path = some (.hole category d) ∧ d.isEmpty = true

-- The rule of a decided position, and one that is picked of the rules of an open one.
def extreme (pick : Domain → Option Nat) (s : Tree) : Except Fault Int :=
  match s.decided? with
  | some r => .ok r
  | none => match s.domain?.bind pick with
      | some r => .ok r
      | none => .error .emptyDomain

theorem extreme_spec {pick : Domain → Option Nat} {R : Nat → Nat → Prop} (hself : ∀ n, R n n)
    (hsome : ∀ {d k}, pick d = some k → ∀ n ∈ d, R k n)
    (hnone : ∀ {d}, pick d = none → d.isEmpty = true)
    (hw : p.grammar.WellFormed none t) (hs : t.get? path = some s) :
    (∃ k : Nat, extreme pick s = .ok (k : Int) ∧ ∀ u, p.Completes u t → ∀ (n : Nat) cs,
      u.get? path = some (.node n cs) → R k n) ∨
    extreme pick s = .error .emptyDomain ∧ Hopeless t := by
  unfold extreme
  cases hd : s.decided? with
  | some r =>
      obtain ⟨k, -, rfl, -, hroot⟩ := decided_spec hw hs hd
      refine Or.inl ⟨k, rfl, fun u hu n cs hn => ?_⟩
      obtain ⟨ds, hds⟩ := hroot u hu
      obtain ⟨he, -⟩ := Tree.node.inj (Option.some.inj (hds.symm.trans hn))
      obtain rfl : k = n := Int.ofNat_inj.mp he
      exact hself k
  | none =>
      cases (hw.get? hs).concrete with
      | node => cases hd
      | hole category d =>
          simp only [Tree.domain?, Option.bind_some]
          cases hl : pick d with
          | none => exact Or.inr ⟨rfl, path, category, d, hs, hnone hl⟩
          | some k =>
              refine Or.inl ⟨k, rfl, fun u hu n cs hn => ?_⟩
              obtain ⟨m, ds, hm, hmem⟩ := hu.rootIn hs
              obtain ⟨he, -⟩ := Tree.node.inj (Option.some.inj (hm.symm.trans hn))
              obtain rfl : m = n := Int.ofNat_inj.mp he
              exact hsome hl m hmem

theorem lowest_spec (hw : p.grammar.WellFormed none t) (hs : t.get? path = some s) :
    (∃ k : Nat, s.lowest = .ok (k : Int) ∧ ∀ u, p.Completes u t → ∀ (n : Nat) cs,
      u.get? path = some (.node n cs) → k ≤ n) ∨
    s.lowest = .error .emptyDomain ∧ Hopeless t :=
  extreme_spec Nat.le_refl (fun h => (Domain.lowest?_eq_some h).2) Domain.lowest?_eq_none.mp hw hs

theorem highest_spec (hw : p.grammar.WellFormed none t) (hs : t.get? path = some s) :
    (∃ k : Nat, s.highest = .ok (k : Int) ∧ ∀ u, p.Completes u t → ∀ (n : Nat) cs,
      u.get? path = some (.node n cs) → n ≤ k) ∨
    s.highest = .error .emptyDomain ∧ Hopeless t :=
  extreme_spec (R := fun k n => n ≤ k) Nat.le_refl (fun h => (Domain.highest?_eq_some h).2)
    Domain.highest?_eq_none.mp hw hs

-- Narrowing leaves a hopeless position hopeless.
theorem Hopeless.refines {s t : Tree} (h : Hopeless t) (hr : s.Refines t)
    (hs : s.skeleton = t.skeleton) : Hopeless s := by
  obtain ⟨path, category, d, hp, hd⟩ := h
  obtain ⟨v, hv, hvr⟩ := hr.get? hp
  have hsk := Tree.get?_skeleton s path
  rw [hs, Tree.get?_skeleton, hp, hv] at hsk
  cases hvr with
  | narrowed sub =>
      refine ⟨path, _, _, hv, (Domain.isEmpty_iff _).mpr fun n hn => ?_⟩
      exact (Domain.isEmpty_iff d).mp hd n (sub n hn)
  | filled => simp [Tree.skeleton] at hsk

end Rules

-- The trees in question have the two positions in order.
def InOrder (T : Tree → Prop) (b : Branch) (first second : Path) : Prop :=
  ∀ t, T t → b.Covers t → ∀ s v, t.get? first = some s → t.get? second = some v → s.UpTo v

-- The order of the roots of two positions of a solution.
theorem InOrder.roots {first second : Path} (h : InOrder T b first second) {t : Tree} (ht : T t) (hc : b.Covers t)
    {n m : Nat} {cs ds : List Tree} (hn : t.get? first = some (.node n cs))
    (hm : t.get? second = some (.node m ds)) : n ≤ m := by
  have := (h t ht hc _ _ hn hm).root_le
  omega

theorem InOrder.of_step {first second : Path} (h : InOrder T b first second)
    (hc : Step p T busy owed b c) : InOrder T c first second :=
  fun t ht hcovers => h t ht (hc.moves.proceeds.of_covers hcovers)

-- The roots of two positions of the trees in question, by rule index.
theorem InOrder.exists_roots {first second : Path} {s v : Tree} (hT : ∀ t, T t → p.Completes t t)
    (hs : b.tree.get? first = some s) (hv : b.tree.get? second = some v)
    (h : InOrder T b first second) {t : Tree} (ht : T t) (hc : b.Covers t) : ∃ (n m : Nat) (cs ds : List Tree),
      t.get? first = some (.node n cs) ∧ t.get? second = some (.node m ds) ∧ n ≤ m := by
  have hu := (hT t ht).of_refines hc.2
  obtain ⟨n, cs, hn⟩ := hu.root_nat hs
  obtain ⟨m, ds, hm⟩ := hu.root_nat hv
  exact ⟨n, m, cs, ds, hn, hm, h.roots ht hc hn hm⟩

-- Behind equal children the next ones are in order too.
theorem InOrder.child {first second : Path} (hT : ∀ t, T t → p.Completes t t) {index : Nat} {r : Int}
    {es fs : List Tree} (hs : b.tree.get? first = some (.node r es))
    (hv : b.tree.get? second = some (.node r fs)) (h : InOrder T b first second)
    (habreast : b.feasible = true → Abreast p b.tree first second index) :
    InOrder T b (first ++ [(index : Int)]) (second ++ [(index : Int)]) := by
  intro t ht hc x y hx hy
  obtain ⟨es', fs', hes, hfs, hsame⟩ := (habreast hc.1).nodes hs hv ((hT t ht).of_refines hc.2)
  rw [Tree.get?_below hes] at hx
  rw [Tree.get?_below hfs] at hy
  exact (h t ht hc _ _ hes hfs).child hsame hx hy

namespace BranchM

variable {unifying : Bool} {first second : Path} {s v : Tree}

theorem does_attempt_hopeless {result : Except Fault β} {next : β → BranchM α}
    {Q : α → Branch → Prop} (hr : result = .error .emptyDomain) (hb : Hopeless b.tree) :
    Does p T busy owed limit (attempt result >>= next) b Q := by
  unfold Does
  rw [meets_bind, meets_attempt_error hr]
  exact ⟨.refl, rfl, hb⟩

-- Nothing is compared in a branch that was given up.
theorem does_whileFeasible {work : BranchM Comparison}
    (h : Does p T busy owed limit work b (Sorts p first second b)) :
    Does p T busy owed limit (isFeasible >>= fun feasible =>
      if (!feasible) = true then pure .violated else work) b (Sorts p first second b) := by
  rw [does_isFeasible_bind]
  cases hf : b.feasible with
  | false => exact .pure ⟨.refl b, fun hf' => nomatch hf.symm.trans hf'⟩
  | true => exact h

theorem does_compareRoots (hT : ∀ t, T t → p.Completes t t) (hb : b.Ready p T)
    (hs : b.tree.get? first = some s) (hv : b.tree.get? second = some v)
    (horder : InOrder T b first second) {r q : Int} (hr : s.decided? = some r)
    (hq : v.decided? = some q) (hopen : r = q → ¬ (s.Complete ∧ v.Complete)) :
    Does p T busy owed limit (compareRoots p r q) b (Sorts p first second b) := by
  obtain ⟨n, rule, rfl, hrule, hfirst⟩ := decided_spec hb.sound.wellFormed hs hr
  obtain ⟨m, -, rfl, -, hsecond⟩ := decided_spec hb.sound.wellFormed hv hq
  unfold compareRoots
  by_cases hlt : (n : Int) < m
  · rw [if_pos hlt]
    refine .pure ⟨.refl b, fun _ u hu s' v' hs' hv' => ?_⟩
    obtain ⟨cs, hcs⟩ := hfirst u hu
    obtain ⟨ds, hds⟩ := hsecond u hu
    obtain rfl := Option.some.inj (hcs.symm.trans hs')
    obtain rfl := Option.some.inj (hds.symm.trans hv')
    exact .root hlt
  · rw [if_neg hlt]
    by_cases hgt : (m : Int) < n
    · rw [if_pos hgt]
      refine .bind (R := fun _ c => c = b.fail) (.fail (fun t ht hc => ?_) rfl) ?_
      · have hu := (hT t ht).of_refines hc.2
        obtain ⟨cs, hcs⟩ := hfirst t hu
        obtain ⟨ds, hds⟩ := hsecond t hu
        have := horder.roots ht hc hcs hds
        omega
      · rintro _ c _ rfl
        exact .pure ⟨⟨rfl, fun _ h => h⟩, nofun⟩
    · rw [if_neg hgt]
      obtain rfl : n = m := by omega
      rw [does_attempt_bind (Grammar.isTerminal_eq_ok hrule)]
      cases hterminal : rule.isTerminal with
      | true =>
          refine .pure ⟨.refl b, fun _ u hu => ?_⟩
          obtain ⟨cs, hcs⟩ := hfirst u hu
          obtain ⟨ds, hds⟩ := hsecond u hu
          exact hu.terminal_eq hrule (by simpa [Rule.isTerminal] using hterminal) hcs hds
      | false =>
          refine .pure ⟨.refl b, fun _ s' v' hs' hv' => ?_⟩
          obtain rfl := Option.some.inj (hs.symm.trans hs')
          obtain rfl := Option.some.inj (hv.symm.trans hv')
          exact hopen rfl

theorem does_strikeAbove {k : Nat} (hb : b.Ready p T) (hs : b.tree.get? first = some s)
    (h : ∀ t, T t → b.Covers t → ∃ (n : Nat) (cs : List Tree),
      t.get? first = some (.node n cs) ∧ n ≤ k) :
    Does p T busy owed limit (strikeAbove unifying first k) b
      fun _ c => Narrowed b c := by
  have hmask : Mask.upTo (k : Int) = .ok (Mask.below (k + 1)) := by
    rw [Mask.upTo_eq_ok (by omega), show ((k : Int) + 1).toNat = k + 1 by omega]
  unfold strikeAbove
  rw [does_attempt_bind hmask]
  refine (does_narrow hb hs fun t ht hc => ?_).post fun _ _ _ hq => hq.1
  obtain ⟨n, cs, hn, hle⟩ := h t ht hc
  exact ⟨n, cs, hn, (Mask.mem_below (k + 1) n).mpr (Nat.lt_succ_of_le hle)⟩

theorem does_strikeBelow {k : Nat} (hb : b.Ready p T) (hs : b.tree.get? first = some s)
    (h : ∀ t, T t → b.Covers t → ∃ (n : Nat) (cs : List Tree),
      t.get? first = some (.node n cs) ∧ k ≤ n) :
    Does p T busy owed limit (strikeBelow unifying first k) b
      fun _ c => Narrowed b c := by
  have hmask : Mask.onwards (k : Int) = .ok (Mask.atLeast k) := by
    rw [Mask.onwards_eq_ok (by omega), Int.toNat_natCast]
  unfold strikeBelow
  rw [does_attempt_bind hmask]
  refine (does_narrow hb hs fun t ht hc => ?_).post fun _ _ _ hq => hq.1
  obtain ⟨n, cs, hn, hle⟩ := h t ht hc
  exact ⟨n, cs, hn, (Mask.mem_atLeast k n).mpr hle⟩

-- Two positions that are not both decided may be told apart by the rules that are left.
theorem does_compareExtremes (hb : b.Ready p T) (hs : b.tree.get? first = some s)
    (hv : b.tree.get? second = some v) (hopen : ¬ (s.Complete ∧ v.Complete)) :
    Does p T busy owed limit (do
      let k ← attempt s.highest
      let l ← attempt v.lowest
      if k < l then pure Comparison.less else pure Comparison.undecided) b
        (Sorts p first second b) := by
  have hw := hb.sound.wellFormed
  rcases highest_spec hw hs with ⟨k, hk, hkmax⟩ | ⟨hk, hhopeless⟩
  · rw [does_attempt_bind hk]
    rcases lowest_spec hw hv with ⟨l, hl, hlmin⟩ | ⟨hl, hhopeless⟩
    · rw [does_attempt_bind hl]
      by_cases hlt : (k : Int) < l
      · rw [if_pos hlt]
        refine .pure ⟨.refl b, fun _ u hu s' v' hs' hv' => ?_⟩
        obtain ⟨n, cs, hn⟩ := hu.root_nat hs
        obtain ⟨m, ds, hm⟩ := hu.root_nat hv
        obtain rfl := Option.some.inj (hn.symm.trans hs')
        obtain rfl := Option.some.inj (hm.symm.trans hv')
        have := hkmax u hu n cs hn
        have := hlmin u hu m ds hm
        exact .root (by omega)
      · rw [if_neg hlt]
        refine .pure ⟨.refl b, fun _ s' v' hs' hv' => ?_⟩
        obtain rfl := Option.some.inj (hs.symm.trans hs')
        obtain rfl := Option.some.inj (hv.symm.trans hv')
        exact hopen
    · exact does_attempt_hopeless hl hhopeless
  · exact does_attempt_hopeless hk hhopeless

-- The second look at two positions, after something was struck.
def lookAgain (p : Problem) (first second : Path) : BranchM Comparison := do
  if !(← isFeasible) then return .violated
  let s ← nodeAt first
  let t ← nodeAt second
  match s.decided?, t.decided? with
  | some r, some q => compareRoots p r q
  | _, _ =>
      if (← attempt s.highest) < (← attempt t.lowest) then return .less
      return .undecided

theorem does_lookAgain (hT : ∀ t, T t → p.Completes t t) (hb : b.Ready p T)
    (hs : b.tree.get? first = some s) (hv : b.tree.get? second = some v)
    (horder : InOrder T b first second) (hopen : ¬ (s.Complete ∧ v.Complete)) :
    Does p T busy owed limit (lookAgain p first second) b (Sorts p first second b) := by
  unfold lookAgain
  refine does_whileFeasible ?_
  rw [does_nodeAt_bind hs, does_nodeAt_bind hv]
  split
  · rename_i r q hr hq
    exact does_compareRoots hT hb hs hv horder hr hq fun _ => hopen
  · exact does_compareExtremes hb hs hv hopen

theorem compareHoles_eq (first second : Path) (s t : Tree) :
    compareHoles p unifying first second s t = (match s.decided?, t.decided? with
      | none, some q => strikeAbove unifying first q
      | some r, _ => strikeBelow unifying second r
      | none, none => do
          strikeAbove unifying first (← attempt t.highest)
          strikeBelow unifying second (← attempt s.lowest)) >>= fun _ => lookAgain p first second := by
  unfold compareHoles
  cases s.decided? with
  | some r => rfl
  | none =>
      cases t.decided? with
      | some q => rfl
      | none =>
          simp only [bind_assoc]
          rfl

-- The positions of a narrowed tree are open where they were before.
theorem exists_of_skeleton {path : Path} (hc : c.tree.skeleton = b.tree.skeleton)
    (hs : b.tree.get? path = some s) :
    ∃ s', c.tree.get? path = some s' ∧ s'.skeleton = s.skeleton := by
  have hsk := Tree.get?_skeleton c.tree path
  rw [hc, Tree.get?_skeleton, hs] at hsk
  cases hs' : c.tree.get? path with
  | none => simp [hs'] at hsk
  | some s' =>
      rw [hs'] at hsk
      exact ⟨s', rfl, (Option.some.inj hsk).symm⟩

theorem complete_congr {s' : Tree} (h : s'.skeleton = s.skeleton) : s'.Complete ↔ s.Complete := by
  rw [← Tree.complete_skeleton, h, Tree.complete_skeleton]

-- Two open positions strike what is out of order in each other.
theorem does_strikeBoth (hT : ∀ t, T t → p.Completes t t) (hb : b.Ready p T)
    (hs : b.tree.get? first = some s) (hv : b.tree.get? second = some v)
    (horder : InOrder T b first second) :
    Does p T busy owed limit (do
      strikeAbove unifying first (← attempt v.highest)
      strikeBelow unifying second (← attempt s.lowest)) b fun _ c => Narrowed b c := by
  have hw := hb.sound.wellFormed
  rcases highest_spec hw hv with ⟨k, hk, hkmax⟩ | ⟨hk, hhopeless⟩
  · rw [does_attempt_bind hk]
    refine Does.bind (does_strikeAbove hb hs fun t ht hc => ?_) fun _ c hc hnarrowed => ?_
    · obtain ⟨n, m, cs, ds, hn, hm, hle⟩ := horder.exists_roots hT hs hv ht hc
      have := hkmax t ((hT t ht).of_refines hc.2) m ds hm
      exact ⟨n, cs, hn, by omega⟩
    · rcases lowest_spec hw hs with ⟨l, hl, hlmin⟩ | ⟨hl, hhopeless⟩
      · rw [does_attempt_bind hl]
        obtain ⟨v', hv', -⟩ := exists_of_skeleton hnarrowed.skeleton hv
        refine (does_strikeBelow (hc.ready hb) hv' fun t ht hct => ?_).post
          fun _ d _ hd => hnarrowed.trans hd
        have hbt := hc.moves.proceeds.of_covers hct
        obtain ⟨n, m, cs, ds, hn, hm, hle⟩ := horder.exists_roots hT hs hv ht hbt
        have := hlmin t ((hT t ht).of_refines hbt.2) n cs hn
        exact ⟨m, ds, hm, by omega⟩
      · exact does_attempt_hopeless hl (hhopeless.refines hc.moves.proceeds.refines hnarrowed.skeleton)
  · exact does_attempt_hopeless hk hhopeless

theorem does_compareHoles (hT : ∀ t, T t → p.Completes t t) (hb : b.Ready p T)
    (hs : b.tree.get? first = some s) (hv : b.tree.get? second = some v)
    (horder : InOrder T b first second) (hopen : ¬ (s.Complete ∧ v.Complete)) :
    Does p T busy owed limit (compareHoles p unifying first second s v) b
      (Sorts p first second b) := by
  have hw := hb.sound.wellFormed
  rw [compareHoles_eq]
  refine Does.bind (R := fun _ c => Narrowed b c) ?_ ?_
  · split
    · rename_i q _ hq
      obtain ⟨k, -, rfl, -, hsecond⟩ := decided_spec hw hv hq
      refine does_strikeAbove hb hs fun t ht hc => ?_
      obtain ⟨n, m, cs, ds, hn, hm, hle⟩ := horder.exists_roots hT hs hv ht hc
      obtain ⟨es, hes⟩ := hsecond t ((hT t ht).of_refines hc.2)
      obtain ⟨he, -⟩ := Tree.node.inj (Option.some.inj (hes.symm.trans hm))
      exact ⟨n, cs, hn, by omega⟩
    · rename_i r _ hr
      obtain ⟨k, -, rfl, -, hfirst⟩ := decided_spec hw hs hr
      refine does_strikeBelow hb hv fun t ht hc => ?_
      obtain ⟨n, m, cs, ds, hn, hm, hle⟩ := horder.exists_roots hT hs hv ht hc
      obtain ⟨es, hes⟩ := hfirst t ((hT t ht).of_refines hc.2)
      obtain ⟨he, -⟩ := Tree.node.inj (Option.some.inj (hes.symm.trans hn))
      exact ⟨m, ds, hm, by omega⟩
    · exact does_strikeBoth hT hb hs hv horder
  -- What is struck opens and decides nothing, so the two positions are as open as before.
  · intro _ c hc hnarrowed
    obtain ⟨s', hs', hss⟩ := exists_of_skeleton hnarrowed.skeleton hs
    obtain ⟨v', hv', hvv⟩ := exists_of_skeleton hnarrowed.skeleton hv
    refine (does_lookAgain hT (hc.ready hb) hs' hv' (horder.of_step hc) ?_).post
      fun _ d _ hd => ⟨hnarrowed.trans hd.1, hd.2⟩
    rwa [complete_congr hss, complete_congr hvv]

theorem does_orderWith (hT : ∀ t, T t → p.Completes t t) (hb : b.Ready p T)
    (hs : b.tree.get? first = some s) (hv : b.tree.get? second = some v)
    (horder : InOrder T b first second) {below : BranchM Comparison}
    (hbelow : ∀ r cs ds, s = .node r cs → v = .node r ds →
      Does p T busy owed limit below b (Sorts p first second b)) :
    Does p T busy owed limit (orderWith p unifying below first second) b
      (Sorts p first second b) := by
  have hw := hb.sound.wellFormed
  unfold orderWith
  refine does_whileFeasible ?_
  rw [does_nodeAt_bind hs, does_nodeAt_bind hv]
  cases s with
  | node r cs =>
      cases v with
      | node q ds =>
          show Does p T busy owed limit (if r = q then below else compareRoots p r q) b _
          by_cases hrq : r = q
          · rw [if_pos hrq]
            subst hrq
            exact hbelow r cs ds rfl rfl
          · rw [if_neg hrq]
            exact does_compareRoots hT hb hs hv horder rfl rfl fun he => absurd he hrq
      | hole category d =>
          have hopen : ¬ ((Tree.node r cs).Complete ∧ (Tree.hole category d).Complete) := by
            rintro ⟨-, ⟨⟩⟩
          split
          · rename_i hr hq
            exact does_compareRoots hT hb hs hv horder hr hq fun _ => hopen
          · exact does_compareHoles hT hb hs hv horder hopen
      | choice => cases hw.get? hv
      | var => cases hw.get? hv
  | hole category d =>
      have hopen : ¬ ((Tree.hole category d).Complete ∧ v.Complete) := by
        rintro ⟨⟨⟩, -⟩
      split
      · rename_i hr hq
        exact does_compareRoots hT hb hs hv horder hr hq fun _ => hopen
      · exact does_compareHoles hT hb hs hv horder hopen
  | choice => cases hw.get? hs
  | var => cases hw.get? hs

-- Two nodes of one rule have as many children.
theorem length_children (hw : p.grammar.WellFormed none b.tree) {r : Int} {cs ds : List Tree}
    (hc : b.tree.get? first = some (.node r cs)) (hd : b.tree.get? second = some (.node r ds)) :
    cs.length = ds.length := by
  obtain ⟨rule, hr, -, -, hlen, -⟩ := Grammar.wellFormed_node_iff.mp (hw.get? hc)
  obtain ⟨rule', hr', -, -, hlen', -⟩ := Grammar.wellFormed_node_iff.mp (hw.get? hd)
  obtain rfl : rule = rule' := Option.some.inj (hr.symm.trans hr')
  omega

-- A node stays one, with children of the same skeletons.
theorem exists_node_of_skeleton {path : Path} (hc : c.tree.skeleton = b.tree.skeleton) {r : Int}
    {es : List Tree} (hs : b.tree.get? path = some (.node r es)) :
    ∃ gs, c.tree.get? path = some (.node r gs) ∧ gs.map Tree.skeleton = es.map Tree.skeleton := by
  obtain ⟨x, hx, hxs⟩ := exists_of_skeleton hc hs
  cases x with
  | node q gs =>
      rw [Tree.skeleton, Tree.skeleton, Tree.node.injEq, Tree.skeletons_eq, Tree.skeletons_eq] at hxs
      obtain ⟨rfl, hgs⟩ := hxs
      exact ⟨gs, hx, hgs⟩
  | hole => simp [Tree.skeleton] at hxs
  | choice => simp [Tree.skeleton] at hxs
  | var => simp [Tree.skeleton] at hxs

-- The children from some index on, behind equal ones. They follow a list that has their
-- skeletons, for the work changes them.
theorem does_orderChildren (hT : ∀ t, T t → p.Completes t t) {cs : List Tree}
    (ih : ∀ c ∈ cs, ∀ (b : Branch) (first second : Path) (s v : Tree), b.Ready p T →
      b.tree.get? first = some s → b.tree.get? second = some v → InOrder T b first second →
      s.skeleton = c.skeleton →
      Does p T busy owed limit (orderFrom p unifying c first second) b (Sorts p first second b))
    {index : Nat} {r : Int} {es fs : List Tree} (hb : b.Ready p T)
    (hs : b.tree.get? first = some (.node r es)) (hv : b.tree.get? second = some (.node r fs))
    (horder : InOrder T b first second)
    (hskeleton : (es.map Tree.skeleton).drop index = cs.map Tree.skeleton)
    (habreast : b.feasible = true → Abreast p b.tree first second index) :
    Does p T busy owed limit (orderChildren p unifying cs index first second) b
      (Sorts p first second b) := by
  induction cs generalizing b index es fs with
  | nil =>
      rw [orderChildren]
      have hle : es.length ≤ index := by simpa using hskeleton
      have hlen := length_children hb.sound.wellFormed hs hv
      exact .pure ⟨.refl b, fun hfeasible => (habreast hfeasible).compares_equal hs hv hlen hle⟩
  | cons d cs ihc =>
      have hlen := length_children hb.sound.wellFormed hs hv
      have hi : index < es.length := by
        have := congrArg List.length hskeleton
        rw [List.length_drop, List.length_map, List.length_map, List.length_cons] at this
        omega
      rw [List.drop_eq_getElem_cons (by simpa using hi), List.map_cons, List.cons.injEq,
        List.getElem_map] at hskeleton
      have hs' := Tree.get?_child hs (List.getElem?_eq_getElem hi)
      have hv' := Tree.get?_child hv (List.getElem?_eq_getElem (show index < fs.length by omega))
      rw [orderChildren]
      refine Does.bind (ih d List.mem_cons_self b _ _ _ _ hb hs' hv'
        (horder.child hT hs hv habreast) hskeleton.1) fun outcome c hc hq => ?_
      obtain ⟨hnarrowed, hcompares⟩ := hq
      obtain ⟨gs, hx, hgs⟩ := exists_node_of_skeleton hnarrowed.skeleton hs
      obtain ⟨ks, hy, hks⟩ := exists_node_of_skeleton hnarrowed.skeleton hv
      have hgl : gs.length = es.length := by simpa using congrArg List.length hgs
      have hkl : ks.length = fs.length := by simpa using congrArg List.length hks
      have hstill (hfeasible : c.feasible = true) : Abreast p c.tree first second index :=
        (habreast (hc.moves.proceeds.feasible hfeasible)).refines hc.moves.proceeds.refines
      have hdecided (hne : outcome ≠ .equal) (hfeasible : c.feasible = true) :
          Compares p c.tree first second outcome :=
        .of_child hx hy (hstill hfeasible) (by omega) (by omega) hne (hcompares hfeasible)
      cases outcome with
      | less => exact .pure ⟨hnarrowed, hdecided (by decide)⟩
      | violated => exact .pure ⟨hnarrowed, hdecided (by decide)⟩
      | undecided => exact .pure ⟨hnarrowed, hdecided (by decide)⟩
      | equal =>
          refine (ihc (fun c hm => ih c (List.mem_cons_of_mem _ hm)) (hc.ready hb) hx hy
            (horder.of_step hc) (hgs ▸ hskeleton.2) fun hfeasible => ?_).post
              fun _ _ _ hq => ⟨hnarrowed.trans hq.1, hq.2⟩
          exact (hstill hfeasible).succ (hcompares hfeasible)

-- Where the first subtree was open, there are no children to go down to.
theorem does_orderFrom_open (hT : ∀ t, T t → p.Completes t t) {t : Tree} (hb : b.Ready p T)
    (hs : b.tree.get? first = some s) (hv : b.tree.get? second = some v)
    (horder : InOrder T b first second) (hskeleton : s.skeleton = t.skeleton)
    (hopen : ∀ r cs, t ≠ .node r cs) :
    Does p T busy owed limit (orderFrom p unifying t first second) b (Sorts p first second b) := by
  rw [orderFrom]
  · refine does_orderWith hT hb hs hv horder fun q es fs he => ?_
    subst he
    cases t with
    | node => exact absurd rfl (hopen _ _)
    | hole => simp [Tree.skeleton] at hskeleton
    | choice => simp [Tree.skeleton] at hskeleton
    | var => simp [Tree.skeleton] at hskeleton
  · exact hopen

-- The work follows the first subtree as it was before; what is decided in it stays.
theorem does_orderFrom (hT : ∀ t, T t → p.Completes t t) (t : Tree) (hb : b.Ready p T)
    (hs : b.tree.get? first = some s) (hv : b.tree.get? second = some v)
    (horder : InOrder T b first second) (hskeleton : s.skeleton = t.skeleton) :
    Does p T busy owed limit (orderFrom p unifying t first second) b (Sorts p first second b) := by
  induction t using Tree.induction generalizing b first second s v with
  | node r cs ih =>
      rw [orderFrom]
      refine does_orderWith hT hb hs hv horder fun q es fs he hf => ?_
      subst he hf
      rw [Tree.skeleton, Tree.skeleton, Tree.node.injEq, Tree.skeletons_eq, Tree.skeletons_eq]
        at hskeleton
      obtain ⟨rfl, hskeleton⟩ := hskeleton
      exact does_orderChildren hT (fun c hm b first second s v hb hs hv ho hsk =>
        ih c hm hb hs hv ho hsk) hb hs hv horder hskeleton
          fun _ i hi => absurd hi (Nat.not_lt_zero i)
  | hole => exact does_orderFrom_open hT hb hs hv horder hskeleton (by simp)
  | choice => exact does_orderFrom_open hT hb hs hv horder hskeleton (by simp)
  | var => exact does_orderFrom_open hT hb hs hv horder hskeleton (by simp)

theorem does_order (hT : ∀ t, T t → p.Completes t t) (hb : b.Ready p T)
    (hs : b.tree.get? first = some s) (hv : b.tree.get? second = some v)
    (horder : InOrder T b first second) :
    Does p T busy owed limit (order p unifying first second) b (Sorts p first second b) := by
  unfold order
  refine does_whileFeasible ?_
  rw [does_nodeAt_bind hs]
  exact does_orderFrom hT s hb hs hv horder rfl

end BranchM

end TreeSearch
