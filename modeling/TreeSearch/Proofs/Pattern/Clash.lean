import TreeSearch.Proofs.Limits

namespace TreeSearch

variable {p : Problem}

namespace Tree

-- Two subtrees that cannot become equal.
inductive Clash : Tree → Tree → Prop
  | roots {r q : Int} {cs ds : List Tree} (h : ¬ (r = q ∧ cs.length = ds.length)) :
      Clash (.node r cs) (.node q ds)
  | child {r : Int} {cs ds : List Tree} {i : Nat} {c d : Tree} (hc : cs[i]? = some c)
      (hd : ds[i]? = some d) (h : Clash c d) : Clash (.node r cs) (.node r ds)
  | left {n : Nat} {cs : List Tree} {category : String} {rules : Domain} (h : n ∉ rules) :
      Clash (.node n cs) (.hole category rules)
  | right {n : Nat} {cs : List Tree} {category : String} {rules : Domain} (h : n ∉ rules) :
      Clash (.hole category rules) (.node n cs)
  | apart {category category' : String} {rules rules' : Domain} (h : ∀ r ∈ rules, r ∉ rules') :
      Clash (.hole category rules) (.hole category' rules')

-- Two subtrees that will be equal whatever becomes of their open positions.
inductive Alike (p : Problem) : Tree → Tree → Prop
  | node {r : Int} {cs ds : List Tree} (length : cs.length = ds.length)
      (below : ∀ (i : Nat) (c d : Tree), cs[i]? = some c → ds[i]? = some d → Alike p c d) :
      Alike p (.node r cs) (.node r ds)
  | left {n : Nat} {category : String} : Alike p (.node n []) (.hole category {n})
  | right {n : Nat} {category : String} : Alike p (.hole category {n}) (.node n [])
  | holes {n : Nat} {category category' : String} {rule : Rule}
      (found : p.grammar.rule? n = some rule) (terminal : rule.children = []) :
      Alike p (.hole category {n}) (.hole category' {n})

section Clash

variable {n : Nat} {cs : List Tree} {category category' : String} {rules rules' : Domain}

theorem clash_node_iff {r q : Int} {cs ds : List Tree} : Clash (.node r cs) (.node q ds) ↔
    ¬ (r = q ∧ cs.length = ds.length) ∨
      ∃ (i : Nat) (c d : Tree), cs[i]? = some c ∧ ds[i]? = some d ∧ Clash c d := by
  constructor
  · intro h
    cases h with
    | roots h => exact Or.inl h
    | child hc hd h => exact Or.inr ⟨_, _, _, hc, hd, h⟩
  · rintro (h | ⟨i, c, d, hc, hd, h⟩)
    · exact .roots h
    · by_cases hr : r = q
      · subst hr
        exact .child hc hd h
      · exact .roots fun he => hr he.1

theorem clash_node_hole_iff : Clash (.node n cs) (.hole category rules) ↔ n ∉ rules := by
  constructor
  · intro h
    generalize hr : (n : Int) = r at h
    cases h with
    | left h =>
        obtain rfl : n = _ := Int.ofNat.inj hr
        exact h
  · exact .left

theorem clash_hole_node_iff : Clash (.hole category rules) (.node n cs) ↔ n ∉ rules := by
  constructor
  · intro h
    generalize hr : (n : Int) = r at h
    cases h with
    | right h =>
        obtain rfl : n = _ := Int.ofNat.inj hr
        exact h
  · exact .right

theorem clash_holes_iff : Clash (.hole category rules) (.hole category' rules') ↔
    ∀ r ∈ rules, r ∉ rules' := by
  constructor
  · intro h
    cases h with
    | apart h => exact h
  · exact .apart

end Clash

section Alike

variable {n : Nat} {cs : List Tree} {category : String} {rules : Domain}

theorem alike_node_iff {r : Int} {cs ds : List Tree} : Alike p (.node r cs) (.node r ds) ↔
    cs.length = ds.length ∧
      ∀ (i : Nat) (c d : Tree), cs[i]? = some c → ds[i]? = some d → Alike p c d := by
  constructor
  · intro h
    cases h with
    | node length below => exact ⟨length, below⟩
  · rintro ⟨length, below⟩
    exact .node length below

theorem alike_node_hole_iff : Alike p (.node n cs) (.hole category rules) ↔ cs = [] ∧ rules = {n} := by
  constructor
  · intro h
    generalize hr : (n : Int) = r at h
    cases h with
    | left =>
        obtain rfl : n = _ := Int.ofNat.inj hr
        exact ⟨rfl, rfl⟩
  · rintro ⟨rfl, rfl⟩
    exact .left

theorem alike_hole_node_iff : Alike p (.hole category rules) (.node n cs) ↔ cs = [] ∧ rules = {n} := by
  constructor
  · intro h
    generalize hr : (n : Int) = r at h
    cases h with
    | right =>
        obtain rfl : n = _ := Int.ofNat.inj hr
        exact ⟨rfl, rfl⟩
  · rintro ⟨rfl, rfl⟩
    exact .right

theorem alike_holes_iff {category' : String} {rules' : Domain} :
    Alike p (.hole category rules) (.hole category' rules') ↔ ∃ (n : Nat) (rule : Rule),
      rules = {n} ∧ rules' = {n} ∧ p.grammar.rule? n = some rule ∧ rule.children = [] := by
  constructor
  · intro h
    cases h with
    | holes hr hterminal => exact ⟨_, _, rfl, rfl, hr, hterminal⟩
  · rintro ⟨n, rule, rfl, rfl, hr, hterminal⟩
    exact .holes hr hterminal

end Alike

-- Every open position has rules left.
def Viable (t : Tree) : Prop :=
  ∀ path category d, t.get? path = some (.hole category d) → d.isEmpty = false

variable {s t s' t' : Tree}

theorem Viable.get? {path : Path} (h : t.Viable) (hs : t.get? path = some s) : s.Viable := by
  intro rest category d hd
  apply h (path ++ rest) category d
  rw [get?_append_of_get? hs, hd]

theorem Viable.child {r : Int} {cs : List Tree} {i : Nat} {c : Tree} (h : Viable (.node r cs))
    (hc : cs[i]? = some c) : c.Viable := by
  have hget : Tree.get? (.node r cs) [(i : Int)] = some c := by simp [get?_cons, hc]
  exact h.get? hget

theorem Viable.exists_mem {category : String} {d : Domain} (h : Viable (.hole category d)) :
    ∃ n, n ∈ d :=
  (Domain.isEmpty_eq_false_iff d).mp (h [] category d (get?_nil _))

theorem exists_getElem?_of_length {l l' : List Tree} (h : l.length = l'.length) {i : Nat} {c : Tree}
    (hc : l[i]? = some c) : ∃ d, l'[i]? = some d := by
  have hi : i < l.length := (List.getElem?_eq_some_iff.mp hc).1
  exact ⟨_, List.getElem?_eq_getElem (h ▸ hi)⟩

section Clash

-- What cannot become equal cannot do so later.
theorem Clash.refines (h : Clash s t) (hs : s'.Refines s) (ht : t'.Refines t) : Clash s' t' := by
  induction h generalizing s' t' with
  | roots h =>
      obtain ⟨cs', rfl, hc, -⟩ := refines_node_iff.mp hs
      obtain ⟨ds', rfl, hd, -⟩ := refines_node_iff.mp ht
      apply Clash.roots
      rw [hc, hd]
      exact h
  | child hc hd _ ih =>
      obtain ⟨cs', rfl, hlen, hcs⟩ := refines_node_iff.mp hs
      obtain ⟨ds', rfl, hlen', hds⟩ := refines_node_iff.mp ht
      obtain ⟨c', hc'⟩ := exists_getElem?_of_length hlen.symm hc
      obtain ⟨d', hd'⟩ := exists_getElem?_of_length hlen'.symm hd
      exact .child hc' hd' (ih (hcs _ _ _ hc' hc) (hds _ _ _ hd' hd))
  | @left n cs category rules h =>
      obtain ⟨cs', rfl, -, -⟩ := refines_node_iff.mp hs
      rcases refines_hole_iff.mp ht with ⟨e, rfl, sub⟩ | ⟨m, ds, rfl, hm⟩
      · exact .left fun hn => h (sub n hn)
      · refine .roots fun he => h ?_
        obtain rfl : n = m := Int.ofNat.inj he.1
        exact hm
  | @right n cs category rules h =>
      obtain ⟨cs', rfl, -, -⟩ := refines_node_iff.mp ht
      rcases refines_hole_iff.mp hs with ⟨e, rfl, sub⟩ | ⟨m, ds, rfl, hm⟩
      · exact .right fun hn => h (sub n hn)
      · refine .roots fun he => h ?_
        obtain rfl : m = n := Int.ofNat.inj he.1
        exact hm
  | apart h =>
      rcases refines_hole_iff.mp hs with ⟨e, rfl, sub⟩ | ⟨m, ds, rfl, hm⟩
      · rcases refines_hole_iff.mp ht with ⟨e', rfl, sub'⟩ | ⟨k, ds', rfl, hk⟩
        · exact .apart fun r hr hr' => h r (sub r hr) (sub' r hr')
        · exact .right fun hr => h k (sub k hr) hk
      · rcases refines_hole_iff.mp ht with ⟨e', rfl, sub'⟩ | ⟨k, ds', rfl, hk⟩
        · exact .left fun hr => h m hm (sub' m hr)
        · refine .roots fun he => h m hm ?_
          obtain rfl : m = k := Int.ofNat.inj he.1
          exact hk

end Clash

section Alike

theorem Alike.not_clash (h : Alike p s t) : ¬ Clash s t := by
  induction h with
  | node length below ih =>
      rw [clash_node_iff]
      rintro (h | ⟨i, c, d, hc, hd, h⟩)
      · exact h ⟨rfl, length⟩
      · exact ih i c d hc hd h
  | left => simp [clash_node_hole_iff]
  | right => simp [clash_hole_node_iff]
  | holes => simp [clash_holes_iff]

-- Two subtrees that are alike to a third do not differ.
theorem Alike.not_clash_of_alike {u : Tree} (h : Alike p s t) (h' : Alike p s u) : ¬ Clash t u := by
  induction h generalizing u with
  | @node r cs ds length below ih =>
      cases h' with
      | @node _ _ es length' below' =>
          rw [clash_node_iff]
          rintro (h | ⟨i, d, e, hd, he, h⟩)
          · exact h ⟨rfl, length.symm.trans length'⟩
          · obtain ⟨c, hc⟩ := exists_getElem?_of_length length.symm hd
            exact ih i c d hc hd (below' i c e hc he) h
      | left => simp [clash_node_hole_iff]
  | @left n category =>
      generalize hr : (n : Int) = r at h'
      cases h' with
      | node =>
          subst hr
          simp [clash_hole_node_iff]
      | left =>
          obtain rfl : n = _ := Int.ofNat.inj hr
          simp [clash_holes_iff]
  | @right n category =>
      generalize hr : ({n} : Domain) = rules at h'
      cases h' with
      | right =>
          obtain rfl := Domain.singleton_inj hr
          simp [clash_node_iff]
      | holes =>
          obtain rfl := Domain.singleton_inj hr
          simp [clash_node_hole_iff]
  | @holes n category category' rule =>
      generalize hr : ({n} : Domain) = rules at h'
      cases h' with
      | right =>
          obtain rfl := Domain.singleton_inj hr
          simp [clash_hole_node_iff]
      | holes =>
          obtain rfl := Domain.singleton_inj hr
          simp [clash_holes_iff]

-- Where a rule without children is the only one left, it is there or will be.
theorem Refines.leaf {n : Nat} {category : String} {rule : Rule}
    (h : s.Refines (.hole category {n})) (hw : p.grammar.WellFormed none s) (hv : s.Viable)
    (hr : p.grammar.rule? n = some rule) (hterminal : rule.children = []) :
    s = .hole category {n} ∨ s = .node n [] := by
  rcases refines_hole_iff.mp h with ⟨e, rfl, sub⟩ | ⟨m, cs, rfl, hm⟩
  · refine Or.inl (congrArg _ (Domain.ext fun k => ?_))
    obtain ⟨l, hl⟩ := hv.exists_mem
    obtain rfl := (Domain.mem_singleton l n).mp (sub l hl)
    rw [Domain.mem_singleton]
    constructor
    · exact fun hk => (Domain.mem_singleton k l).mp (sub k hk)
    · rintro rfl
      exact hl
  · obtain rfl := (Domain.mem_singleton m n).mp hm
    obtain ⟨rule', hr', -, -, hlen, -⟩ := Grammar.wellFormed_node_iff.mp hw
    obtain rfl := Option.some.inj (hr.symm.trans hr')
    rw [hterminal, List.length_nil, List.length_eq_zero_iff] at hlen
    exact Or.inr (by rw [hlen])

-- What will be equal stays so.
theorem Alike.refines (h : Alike p s t) (hs : s'.Refines s) (ht : t'.Refines t)
    (hws : p.grammar.WellFormed none s') (hwt : p.grammar.WellFormed none t') (hvs : s'.Viable)
    (hvt : t'.Viable) : Alike p s' t' := by
  have leaf {n : Nat} {u : Tree} (hu : u.Refines (.node n [])) (hw : p.grammar.WellFormed none u) :
      u = .node n [] ∧ ∃ rule, p.grammar.rule? n = some rule ∧ rule.children = [] := by
    obtain ⟨cs, rfl, hlen, -⟩ := refines_node_iff.mp hu
    obtain rfl := List.length_eq_zero_iff.mp hlen
    obtain ⟨rule, hr, -, -, hlen, -⟩ := Grammar.wellFormed_node_iff.mp hw
    exact ⟨rfl, rule, hr, List.length_eq_zero_iff.mp hlen.symm⟩
  have same (n : Nat) : Alike p (.node n []) (.node n []) := alike_node_iff.mpr ⟨rfl, by simp⟩
  induction h generalizing s' t' with
  | node length below ih =>
      obtain ⟨cs', rfl, hlen, hcs⟩ := refines_node_iff.mp hs
      obtain ⟨ds', rfl, hlen', hds⟩ := refines_node_iff.mp ht
      refine .node (by omega) fun i c' d' hc' hd' => ?_
      obtain ⟨c, hc⟩ := exists_getElem?_of_length hlen hc'
      obtain ⟨d, hd⟩ := exists_getElem?_of_length hlen' hd'
      obtain ⟨_, hwc⟩ := hws.child hc'
      obtain ⟨_, hwd⟩ := hwt.child hd'
      exact ih i c d hc hd (hcs i c' c hc' hc) (hds i d' d hd' hd) hwc.anyCategory hwd.anyCategory
        (hvs.child hc') (hvt.child hd')
  | left =>
      obtain ⟨rfl, rule, hr, hterminal⟩ := leaf hs hws
      rcases ht.leaf hwt hvt hr hterminal with rfl | rfl
      · exact .left
      · exact same _
  | right =>
      obtain ⟨rfl, rule, hr, hterminal⟩ := leaf ht hwt
      rcases hs.leaf hws hvs hr hterminal with rfl | rfl
      · exact .right
      · exact same _
  | holes hr hterminal =>
      rcases hs.leaf hws hvs hr hterminal with rfl | rfl
      · rcases ht.leaf hwt hvt hr hterminal with rfl | rfl
        · exact .holes hr hterminal
        · exact .right
      · rcases ht.leaf hwt hvt hr hterminal with rfl | rfl
        · exact .left
        · exact same _

end Alike

end Tree

end TreeSearch
