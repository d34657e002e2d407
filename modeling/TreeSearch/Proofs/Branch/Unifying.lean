import TreeSearch.Branch.Unify
import TreeSearch.Proofs.Branch.Ordering

namespace TreeSearch

variable {p : Problem} {T : Tree → Prop} {busy : Watch → Prop} {owed : Path → Prop}
  {limit : Nat → Prop} {b c : Branch}

-- No constraint is busy, and no position is owed.
abbrev BranchM.Settles (p : Problem) (T : Tree → Prop) (limit : Nat → Prop) {α : Type}
    (work : BranchM α) (b : Branch) (Q : α → Branch → Prop) : Prop :=
  BranchM.Does p T (fun _ => False) (fun _ => False) limit work b Q

-- A filler with a number of steps that are enough below that rank.
def Fills (p : Problem) (T : Tree → Prop) (steps : Nat) (fill : Filler) : Prop :=
  ∀ (b : Branch) (unifying : Bool) (path : Path) (rule : Nat) (s : Tree), b.Ready p T →
    b.tree.get? path = some s → (∀ t, T t → b.Covers t → t.RootIn path (.only {rule})) →
    BranchM.Settles p T (fun D => steps ≤ b.rank p D path) (fill unifying path rule) b fun _ c =>
      c.feasible = true → ∃ cs, c.tree.get? path = some (.node rule cs)

section Members

variable {trees : List Tree}

theorem mem_filledRules {r : Int} : r ∈ filledRules trees ↔ ∃ cs, Tree.node r cs ∈ trees := by
  rw [filledRules, List.mem_eraseDups, List.mem_filterMap]
  constructor
  · rintro ⟨t, ht, he⟩
    cases t with
    | node q cs =>
        obtain rfl : q = r := by simpa using he
        exact ⟨cs, ht⟩
    | _ => cases he
  · rintro ⟨cs, h⟩
    exact ⟨_, h, rfl⟩

theorem nodup_eraseDups (l : List Int) : l.eraseDups.Nodup := by
  induction h : l.length using Nat.strong_induction_on generalizing l with
  | _ n ih =>
      cases l with
      | nil => simp
      | cons a l =>
          rw [List.eraseDups_cons, List.nodup_cons]
          have hlen : (l.filter fun b => !b == a).length ≤ l.length := List.length_filter_le _ _
          rw [List.length_cons] at h
          refine ⟨by simp [List.mem_eraseDups], ih _ (by omega) _ rfl⟩

-- Where the filled positions have neither no rule nor one, two of them differ.
theorem exists_ne_of_filledRules (hnil : filledRules trees ≠ [])
    (hone : ∀ r, filledRules trees ≠ [r]) :
    ∃ r q, r ∈ filledRules trees ∧ q ∈ filledRules trees ∧ r ≠ q := by
  have hnodup : (filledRules trees).Nodup := nodup_eraseDups _
  cases he : filledRules trees with
  | nil => exact absurd he hnil
  | cons r rest =>
      cases rest with
      | nil => exact absurd he (hone r)
      | cons q rest =>
          rw [he] at hnodup
          refine ⟨r, q, by simp, by simp, fun h => ?_⟩
          simp [h] at hnodup

theorem mem_foldl_inter {n : Nat} {l : List Domain} {d : Domain} :
    n ∈ l.foldl (· ∩ ·) d ↔ n ∈ d ∧ ∀ e ∈ l, n ∈ e := by
  induction l generalizing d with
  | nil => simp
  | cons e l ih =>
      rw [List.foldl_cons, ih, Domain.mem_inter]
      simp [and_assoc]

-- The common rules are those that every hole has.
theorem mem_commonRules {n : Nat} (h : ∀ t ∈ trees, ∀ d, t.domain? = some d → n ∈ d) :
    n ∈ commonRules trees := by
  have hmem (d : Domain) (hd : d ∈ trees.filterMap Tree.domain?) : n ∈ d := by
    obtain ⟨t, ht, he⟩ := List.mem_filterMap.mp hd
    exact h t ht d he
  unfold commonRules
  split
  · rename_i d rest he
    rw [he] at hmem
    exact mem_foldl_inter.mpr ⟨hmem d List.mem_cons_self, fun e hm => hmem e (List.mem_cons_of_mem d hm)⟩
  · exact Domain.not_mem_empty n

-- All holes have the common rules.
theorem commonRules_eq {t : Tree} {d : Domain} (ht : t ∈ trees) (hd : t.domain? = some d) :
    ∃ e, commonRules trees = .only e ∧ ∀ v ∈ trees, ∀ d, v.domain? = some d → ∀ n ∈ e, n ∈ d := by
  have hin (v : Tree) (hv : v ∈ trees) (d : Domain) (hd : v.domain? = some d) :
      d ∈ trees.filterMap Tree.domain? := List.mem_filterMap.mpr ⟨v, hv, hd⟩
  unfold commonRules
  split
  · rename_i rules others he
    rw [he] at hin
    refine ⟨_, rfl, fun v hv d hd n hn => ?_⟩
    obtain ⟨hrules, hothers⟩ := mem_foldl_inter.mp hn
    rcases List.mem_cons.mp (hin v hv d hd) with rfl | hd
    · exact hrules
    · exact hothers d hd
  · rename_i he
    have := hin t ht d hd
    rw [he] at this
    cases this

-- The trees at some paths are read one by one.
theorem Tree.exists_mapM_get {t : Tree} {paths : List Path} (h : ∀ q ∈ paths, ∃ v, t.get? q = some v) :
    ∃ trees, paths.mapM t.get = .ok trees ∧ ∀ v, v ∈ trees ↔ ∃ q ∈ paths, t.get? q = some v := by
  obtain ⟨trees, htrees⟩ : ∃ trees, paths.mapM t.get = .ok trees :=
    Except.exists_mapM_eq_ok fun q hq => (h q hq).imp fun _ => Tree.get_eq_ok
  have hfound := Except.mapM_eq_ok.mp htrees
  refine ⟨trees, htrees, fun v => ⟨fun hv => ?_, ?_⟩⟩
  · exact (exists_of_forall₂ hfound.flip hv).imp fun _ h => ⟨h.1, Tree.get_eq_ok_iff.mp h.2⟩
  · rintro ⟨q, hq, hv⟩
    obtain ⟨w, hw, he⟩ := exists_of_forall₂ hfound hq
    obtain rfl := Option.some.inj (hv.symm.trans (Tree.get_eq_ok_iff.mp he))
    exact hw

end Members

namespace BranchM

variable {fill : Filler} {steps : Nat} {unifying : Bool} {path : Path} {s : Tree}

-- A class with one member is left alone. Open members lose the rules that they do not have in
-- common, filled ones hand on their rule, and two of these that differ in it end the branch.
theorem meets_sync {Q : Unit → Branch → Prop} {H : Halt → Branch → Prop} {expected : Option String}
    (hw : p.grammar.WellFormed expected b.tree)
    (hplaced : ∀ q ∈ b.classes.members path, ∃ v, b.tree.get? q = some v)
    (hsingle : (b.classes.members path).length < 2 → Q () b)
    (hopen : ∀ trees, (∀ v, v ∈ trees ↔ ∃ q ∈ b.classes.members path, b.tree.get? q = some v) →
      filledRules trees = [] → (narrow unifying path (commonRules trees)).Meets b Q H)
    (hagree : ∀ q ∈ b.classes.members path, ∀ (n : Nat) cs, b.tree.get? q = some (.node n cs) →
      (narrow unifying path (.only {n}) >>= fun _ => whenFeasible (fill unifying path n)).Meets b Q H)
    (hdiffer : (∃ q ∈ b.classes.members path, ∃ r ∈ b.classes.members path, ∃ i cs j ds,
      b.tree.get? q = some (.node i cs) ∧ b.tree.get? r = some (.node j ds) ∧ i ≠ j) → Q () b.fail) :
    (sync fill unifying path).Meets b Q H := by
  unfold sync
  rw [meets_bind, meets_get]
  by_cases hlen : (b.classes.members path).length < 2
  · rw [if_pos hlen]
    exact hsingle hlen
  · rw [if_neg hlen]
    obtain ⟨trees, htrees, hmem⟩ := Tree.exists_mapM_get hplaced
    have hnode {r : Int} (hr : r ∈ filledRules trees) :
        ∃ q ∈ b.classes.members path, ∃ cs, b.tree.get? q = some (.node r cs) := by
      obtain ⟨cs, hcs⟩ := mem_filledRules.mp hr
      obtain ⟨q, hq, hv⟩ := (hmem _).mp hcs
      exact ⟨q, hq, cs, hv⟩
    rw [meets_bind, meets_attempt htrees]
    split
    · rename_i hnone
      exact hopen trees hmem hnone
    · rename_i r hone
      obtain ⟨q, hq, cs, hv⟩ := hnode (hone ▸ List.mem_singleton_self r)
      obtain ⟨n, rfl⟩ := Int.eq_ofNat_of_zero_le (hw.get? hv).root_nonneg
      rw [meets_bind, meets_attempt (a := n) (by simp [bitOf])]
      exact hagree q hq n cs hv
    · rename_i hnil hone
      obtain ⟨i, j, hi, hj, hne⟩ := exists_ne_of_filledRules hnil hone
      obtain ⟨q, hq, cs, hv⟩ := hnode hi
      obtain ⟨r, hr, ds, hv'⟩ := hnode hj
      exact hdiffer ⟨q, hq, r, hr, i, cs, j, ds, hv, hv', hne⟩

-- What a member of a class has at its root, the trees in question have at the path.
theorem root_of_member (hT : ∀ t, T t → p.Solves t) (hb : b.Ready p T)
    (hs : b.tree.get? path = some s) {t : Tree} (ht : T t) (hc : b.Covers t) :
    ∃ (n : Nat) (cs : List Tree), t.get? path = some (.node n cs) ∧
      ∀ member ∈ b.classes.members path, ∀ v, b.tree.get? member = some v →
        (Tree.node n cs).Refines v := by
  obtain ⟨n, cs, hn⟩ := ((hT t ht).completes hc).root_nat hs
  refine ⟨n, cs, hn, fun member hm v hv => ?_⟩
  obtain ⟨w, hw, hr⟩ := hc.2.get? hv
  rw [(hb.loyal t ht hc).members hm, hw] at hn
  obtain rfl := Option.some.inj hn
  exact hr

theorem does_sync (hfill : Fills p T steps fill) (hT : ∀ t, T t → p.Solves t) (hb : b.Ready p T)
    (hs : b.tree.get? path = some s) :
    Settles p T (fun D => steps ≤ b.rank p D path) (sync fill unifying path) b fun _ _ => True := by
  have hroot (t : Tree) (ht : T t) (hc : b.Covers t) := root_of_member hT hb hs ht hc
  refine meets_sync hb.sound.wellFormed (fun q hq => hb.sound.member hs hq)
    (fun _ => ⟨.refl b, trivial⟩) (fun trees htrees _ => ?_) (fun q hq k ds hv => ?_)
    fun ⟨q, hq, r, hr, i, ds, j, es, hv, hv', hne⟩ => ?_
  · show Settles p T _ _ b fun _ _ => True
    refine (does_narrow hb hs fun t ht hc => ?_).post fun _ _ _ _ => trivial
    obtain ⟨n, cs, hn, hrefines⟩ := hroot t ht hc
    refine ⟨n, cs, hn, mem_commonRules fun v hv d hd => ?_⟩
    obtain ⟨q, hq, hv⟩ := (htrees v).mp hv
    exact (hrefines q hq v hv).root_mem hd
  · have hrule (t : Tree) (ht : T t) (hc : b.Covers t) : t.RootIn path (.only {k}) := by
      obtain ⟨n, cs, hn, hrefines⟩ := hroot t ht hc
      obtain ⟨es, he, -⟩ := Tree.refines_node_iff.mp (hrefines q hq _ hv)
      obtain rfl : n = k := Int.ofNat_inj.mp (Tree.node.inj he).1
      exact ⟨n, cs, hn, (Domain.mem_singleton n n).mpr rfl⟩
    show Settles p T _ _ b fun _ _ => True
    refine (does_narrow hb hs hrule).bind fun _ c hc _ => ?_
    refine .whenFeasible (fun _ => ?_) fun _ => trivial
    obtain ⟨v', hv'⟩ := hc.moves.proceeds.placed ⟨s, hs⟩
    refine (hfill c unifying path k v' (hc.ready hb) hv' fun t ht hct => ?_).mono
      (fun _ _ _ _ => trivial) fun D hD hl => ?_
    · exact hrule t ht (hc.moves.proceeds.of_covers hct)
    · exact Nat.le_trans hl (hc.moves.proceeds.rank_le hb.sound hD path)
  · -- no tree in question has two rules at one position
    refine ⟨.of_move (.fail fun t ht hc => hne ?_) rfl nofun, trivial⟩
    obtain ⟨n, cs, -, hrefines⟩ := hroot t ht hc
    obtain ⟨ds', hi, -⟩ := Tree.refines_node_iff.mp (hrefines q hq _ hv)
    obtain ⟨es', hj, -⟩ := Tree.refines_node_iff.mp (hrefines r hr _ hv')
    exact (Tree.node.inj hi).1.symm.trans (Tree.node.inj hj).1

end BranchM

section Classes

theorem Step.unite {classes : PathClasses} (h : Moves p T b { b with classes }) :
    Step p T busy owed b { b with classes } :=
  ⟨h, fun _ _ _ _ s hs => Or.inl ⟨s, hs⟩, fun _ ha => ⟨ha.announced, ha.retired, ha.active⟩⟩

-- Uniting a path with several others.
theorem Moves.uniteAll {anchor : Path} {l : List Path} (ha : ∃ s, b.tree.get? anchor = some s)
    (hl : ∀ q ∈ l, ∃ s, b.tree.get? q = some s)
    (heq : ∀ q ∈ l, ∀ t, T t → b.Covers t → t.get? anchor = t.get? q) :
    Moves p T b { b with classes := l.foldl (fun classes q => classes.unite anchor q) b.classes } := by
  induction l generalizing b with
  | nil => exact .refl
  | cons q l ih =>
      refine .head (.unite ha (hl q List.mem_cons_self) (heq q List.mem_cons_self)) ?_
      exact ih (b := { b with classes := b.classes.unite anchor q }) ha
        (fun r hr => hl r (List.mem_cons_of_mem q hr))
        fun r hr t ht hc => heq r (List.mem_cons_of_mem q hr) t ht hc

-- The children of some positions in one place, united with each other.
def Branch.joined (b : Branch) (anchor : Path) (others : List Path) (i : Nat) : Branch :=
  { b with classes := others.foldl (fun classes member =>
      classes.unite (anchor ++ [(i : Int)]) (member ++ [(i : Int)])) b.classes }

variable {anchor : Path} {others : List Path}

theorem Branch.joined_classes (b : Branch) (anchor : Path) (others : List Path) (i : Nat) :
    (b.joined anchor others i).classes = (others.map (· ++ [(i : Int)])).foldl
      (fun classes q => classes.unite (anchor ++ [(i : Int)]) q) b.classes :=
  List.foldl_map.symm

theorem Moves.joined {i : Nat} (hplaced : ∀ q ∈ anchor :: others, ∃ s, b.tree.get? (q ++ [(i : Int)]) = some s)
    (heq : ∀ q ∈ others, ∀ t, T t → b.Covers t → t.get? anchor = t.get? q) :
    Moves p T b (b.joined anchor others i) := by
  have hunited := Moves.uniteAll (p := p) (T := T) (l := others.map (· ++ [(i : Int)]))
    (hplaced anchor List.mem_cons_self)
    (List.forall_mem_map.mpr fun q hq => hplaced q (List.mem_cons_of_mem anchor hq))
    (List.forall_mem_map.mpr fun q hq t ht hc => by
      rw [Tree.get?_append, Tree.get?_append, heq q hq t ht hc])
  rwa [← b.joined_classes] at hunited

-- The class of the children reaches one level further down.
theorem Branch.reach_joined (b : Branch) (hc : b.classes.Proper) (i : Nat) {member : Path}
    (hm : member ∈ anchor :: others) :
    member.length + 1 ≤ (b.joined anchor others i).reach (anchor ++ [(i : Int)]) := by
  have hjoined := hc.foldl_unite (anchor ++ [(i : Int)]) (others.map (· ++ [(i : Int)]))
  rw [← b.joined_classes] at hjoined
  have hle : (member ++ [(i : Int)]).length ≤ (b.joined anchor others i).reach (anchor ++ [(i : Int)]) := by
    refine (b.joined anchor others i).le_reach ?_
    rcases List.mem_cons.mp hm with rfl | hm
    · exact (b.joined member others i).classes.mem_members_self _
    · exact hjoined.2 _ (List.mem_map_of_mem hm)
  rwa [List.length_append, List.length_singleton] at hle

end Classes

namespace BranchM

variable {fill : Filler} {steps : Nat} {unifying : Bool}

theorem does_equate (hfill : Fills p T steps fill) (hT : ∀ t, T t → p.Solves t) (hb : b.Ready p T)
    {first second : Path} (hfirst : ∃ s, b.tree.get? first = some s)
    (hsecond : ∃ s, b.tree.get? second = some s)
    (heq : ∀ t, T t → b.Covers t → t.get? first = t.get? second) :
    Settles p T (fun D => steps ≤ b.ceiling p D) (equate fill first second) b fun _ _ => True := by
  obtain ⟨s, hs⟩ := hfirst
  obtain ⟨v, hv⟩ := hsecond
  unfold equate Settles
  rw [does_nodeAt_bind hs, does_nodeAt_bind hv, does_isFeasible_bind]
  by_cases hstop : ((!b.feasible) = true ∨ first = second)
  · rw [if_pos hstop]
    exact .pure trivial
  · rw [if_neg hstop]
    have hne : first ≠ second := fun h => hstop (Or.inr h)
    split
    · -- a part of a tree is smaller than the tree
      have hpart {t : Tree} {above below : Path} (hle : above <+: below) (hlt : above ≠ below)
          {x : Tree} (hx : t.get? above = some x) (hy : t.get? below = some x) : False := by
        obtain ⟨rest, rfl⟩ := hle
        rw [Tree.get?_append_of_get? hx] at hy
        have hsize := Tree.size_le_of_get? hy
        have : rest ≠ [] := fun h => hlt (by simp [h])
        have := List.length_pos_of_ne_nil this
        omega
      rename_i hprefix
      refine .fail (fun t ht hc => ?_) trivial
      obtain ⟨n, cs, hn⟩ := ((hT t ht).completes hc).root_nat hs
      have hn' := (heq t ht hc).symm.trans hn
      rcases hprefix with hle | hle
      · exact hpart (List.isPrefixOf_iff_prefix.mp hle) hne hn hn'
      · exact hpart (List.isPrefixOf_iff_prefix.mp hle) hne.symm hn' hn
    · have hstep : Step p T (fun _ => False) (fun _ => False) b
          { b with classes := b.classes.unite first second } :=
        .unite (.single (.unite ⟨s, hs⟩ ⟨v, hv⟩ heq))
      refine Does.bind (R := fun _ c => c = { b with classes := b.classes.unite first second })
        (.modify hstep rfl) fun _ c hc he => ?_
      subst he
      refine (does_sync hfill hT (hc.ready hb) hs).mono (fun _ _ _ _ => trivial) fun D _ hl => ?_
      exact Nat.le_trans hl (Branch.rank_le_ceiling _ first)

-- The children of a class are unified one by one. Their classes reach one level further down.
theorem does_joinChildren (hfill : Fills p T steps fill) (hT : ∀ t, T t → p.Solves t)
    (hb : b.Ready p T) {path : Path} {s : Tree} (hs : b.tree.get? path = some s)
    (hc : Moves p T b c) {arity : Nat}
    (hnodes : ∀ member ∈ b.classes.members path, ∃ (r : Int) (cs : List Tree),
      c.tree.get? member = some (.node r cs) ∧ cs.length = arity) :
    Settles p T (fun D => steps < b.rank p D path)
      (joinChildren fill unifying (b.classes.members path) arity) c fun _ _ => True := by
  cases hm : b.classes.members path with
  | nil => exact .pure trivial
  | cons anchor others =>
      rw [hm] at hnodes
      refine (Does.forM_whenFeasible (fun _ => True) (fun _ _ => True) trivial (fun _ _ _ _ _ => id)
        fun i hi d hd _ => ?_).post fun _ _ _ _ => trivial
      have hd' : Proceeds p T b d := Moves.proceeds (hc.trans hd.moves)
      have hplaced (q : Path) (hq : q ∈ anchor :: others) :
          ∃ s, d.tree.get? (q ++ [(i : Int)]) = some s := by
        obtain ⟨_, cs, hcs, hlen⟩ := hnodes q hq
        refine hd.moves.proceeds.placed ?_
        rw [Tree.get?_below hcs]
        exact ⟨_, List.getElem?_eq_getElem (hlen ▸ List.mem_range.mp hi)⟩
      have hmoves : Moves p T d (d.joined anchor others i) := by
        refine .joined hplaced fun q hq t ht hct => ?_
        have hloyal := hb.loyal t ht (hd'.of_covers hct)
        rw [← hloyal.members (hm ▸ List.mem_cons_self : anchor ∈ b.classes.members path),
          ← hloyal.members (hm ▸ List.mem_cons_of_mem anchor hq : q ∈ b.classes.members path)]
      refine Does.bind (R := fun _ e => e = d.joined anchor others i) (.modify (.unite hmoves) rfl)
        fun _ e he heq => ?_
      subst heq
      obtain ⟨v, hv⟩ := hplaced anchor List.mem_cons_self
      refine (does_sync hfill hT (he.ready (hd'.ready hb)) hv).mono
        (fun _ _ _ _ => ⟨trivial, fun _ => trivial⟩) fun D hD hl => Nat.lt_of_le_of_lt hl ?_
      -- The farthest member has a child that is farther still, so the rank is lower there.
      refine Proceeds.rank_lt (hd'.trans hmoves.proceeds) hb.sound hD hs ?_
      obtain ⟨other, ho, hreach⟩ := b.exists_reach path
      have hfarther := d.reach_joined (hd'.ready hb).sound.classes i (hm ▸ ho)
      omega

end BranchM

end TreeSearch
