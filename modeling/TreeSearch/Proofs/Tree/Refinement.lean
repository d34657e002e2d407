import TreeSearch.Proofs.Tree.Paths

namespace TreeSearch.Tree

theorem Refines.refl (t : Tree) : t.Refines t := by
  induction t using Tree.induction with
  | node r cs ih =>
      refine .node rfl fun i s c hs hc => ?_
      obtain rfl : s = c := Option.some.inj (hs.symm.trans hc)
      exact ih s (List.mem_of_getElem? hs)
  | hole category d => exact .narrowed fun r h => h
  | choice d parts => exact .choice d parts
  | var name => exact .var name

theorem refines_node_iff {s : Tree} {r : Int} {cs : List Tree} :
    s.Refines (node r cs) ↔ ∃ ds : List Tree, s = node r ds ∧ ds.length = cs.length ∧
      ∀ (i : Nat) (d c : Tree), ds[i]? = some d → cs[i]? = some c → d.Refines c := by
  constructor
  · intro h
    cases h with
    | node length below => exact ⟨_, rfl, length, below⟩
  · rintro ⟨ds, rfl, length, below⟩
    exact .node length below

-- A hole becomes a narrower one, or a node with one of its rules.
theorem refines_hole_iff {s : Tree} {category : String} {d : Domain} : s.Refines (.hole category d) ↔
    (∃ e, s = .hole category e ∧ ∀ r ∈ e, r ∈ d) ∨ ∃ (n : Nat) (cs : List Tree), s = .node n cs ∧ n ∈ d := by
  constructor
  · intro h
    cases h with
    | narrowed sub => exact Or.inl ⟨_, rfl, sub⟩
    | filled mem => exact Or.inr ⟨_, _, rfl, mem⟩
  · rintro (⟨e, rfl, sub⟩ | ⟨n, cs, rfl, mem⟩)
    · exact .narrowed sub
    · exact .filled mem

theorem Refines.trans {s t u : Tree} (hst : s.Refines t) (htu : t.Refines u) : s.Refines u := by
  induction htu generalizing s with
  | narrowed sub =>
      cases hst with
      | narrowed sub' => exact .narrowed fun r h => sub r (sub' r h)
      | filled mem => exact .filled (sub _ mem)
  | filled mem =>
      obtain ⟨ds, rfl, -, -⟩ := refines_node_iff.mp hst
      exact .filled mem
  | @node r finer coarser length below ih =>
      obtain ⟨ds, rfl, hlen, hds⟩ := refines_node_iff.mp hst
      refine .node (hlen.trans length) fun i d c hd hc => ?_
      obtain ⟨m, hm⟩ : ∃ m, finer[i]? = some m := by
        have hi : i < ds.length := (List.getElem?_eq_some_iff.mp hd).1
        exact ⟨_, List.getElem?_eq_getElem (hlen ▸ hi)⟩
      exact ih i m c hm hc (hds i d m hd hm)
  | choice => exact hst
  | var => exact hst

-- The rule of a node is one of those that the position could take before.
theorem Refines.root_mem {n : Nat} {cs : List Tree} {t : Tree} (h : (Tree.node n cs).Refines t)
    {d : Domain} (hd : t.domain? = some d) : n ∈ d := by
  generalize hk : (n : Int) = k at h
  cases h with
  | filled mem =>
      obtain rfl := Int.ofNat_inj.mp hk
      obtain rfl := Option.some.inj hd
      exact mem
  | node => cases hd

-- A finer tree has all positions of the coarser one.
theorem Refines.get? {s t u : Tree} {path : Path} (h : s.Refines t) (hu : t.get? path = some u) :
    ∃ v, s.get? path = some v ∧ v.Refines u := by
  induction path generalizing s t with
  | nil =>
      obtain rfl : t = u := by simpa using hu
      exact ⟨s, by simp, h⟩
  | cons i path ih =>
      rw [get?_cons] at hu
      obtain ⟨c, hi, hc⟩ := Option.bind_eq_some_iff.mp hu
      obtain ⟨n, rfl, hn⟩ := child?_eq_some.mp hi
      cases t with
      | node r cs =>
          obtain ⟨ds, rfl, hlen, hds⟩ := refines_node_iff.mp h
          obtain ⟨d, hd⟩ : ∃ d, ds[n]? = some d := by
            have hi : n < cs.length := (List.getElem?_eq_some_iff.mp hn).1
            exact ⟨_, List.getElem?_eq_getElem (hlen ▸ hi)⟩
          obtain ⟨v, hv, hr⟩ := ih (hds n d c hd hn) hc
          exact ⟨v, by simp [get?_cons, hd, hv], hr⟩
      | hole => simp [children] at hn
      | choice => simp [children] at hn
      | var => simp [children] at hn

theorem complete_iff {t : Tree} :
    t.Complete ↔ ∃ (r : Int) (cs : List Tree), t = node r cs ∧ ∀ c ∈ cs, c.Complete := by
  constructor
  · intro h
    cases h with
    | node below => exact ⟨_, _, rfl, below⟩
  · rintro ⟨r, cs, rfl, below⟩
    exact .node below

theorem Complete.get? {t s : Tree} {path : Path} (h : t.Complete) (hs : t.get? path = some s) :
    s.Complete := by
  induction path generalizing t with
  | nil =>
      obtain rfl : t = s := by simpa using hs
      exact h
  | cons i path ih =>
      rw [get?_cons] at hs
      obtain ⟨c, hi, hc⟩ := Option.bind_eq_some_iff.mp hs
      obtain ⟨n, rfl, hn⟩ := child?_eq_some.mp hi
      obtain ⟨r, cs, rfl, below⟩ := complete_iff.mp h
      exact ih (below c (List.mem_of_getElem? hn)) hc

-- Nothing is left to refine in a complete tree.
theorem Complete.eq_of_refines {s t : Tree} (ht : t.Complete) (h : s.Refines t) : s = t := by
  induction t using Tree.induction generalizing s with
  | node r cs ih =>
      obtain ⟨q, ds, he, below⟩ := complete_iff.mp ht
      obtain ⟨rfl, rfl⟩ : r = q ∧ cs = ds := by simpa using he
      obtain ⟨es, rfl, hlen, hes⟩ := refines_node_iff.mp h
      congr 1
      refine List.ext_getElem hlen fun i hi hi' => ?_
      have hd : es[i]? = some es[i] := List.getElem?_eq_getElem hi
      have hc : cs[i]? = some cs[i] := List.getElem?_eq_getElem hi'
      have hm : cs[i] ∈ cs := List.getElem_mem hi'
      exact ih _ hm (below _ hm) (hes i _ _ hd hc)
  | hole => cases ht
  | choice => cases ht
  | var => cases ht

theorem Complete.refines_hole {s : Tree} {category : String} {d : Domain} (hs : s.Complete)
    (h : s.Refines (Tree.hole category d)) :
    ∃ (r : Nat) (cs : List Tree), r ∈ d ∧ s = Tree.node r cs ∧ ∀ c ∈ cs, c.Complete := by
  cases h with
  | narrowed => cases hs
  | filled mem =>
      obtain ⟨q, ds, he, below⟩ := complete_iff.mp hs
      obtain ⟨rfl, rfl⟩ := Tree.node.inj he
      exact ⟨_, _, mem, rfl, below⟩

-- A tree in which the subtree at a path is another one.
inductive Replaced (old new : Tree) : Path → Tree → Tree → Prop
  | here : Replaced old new [] old new
  | inside {r : Int} {cs : List Tree} {n : Nat} {c d : Tree} {path : Path} (found : cs[n]? = some c)
      (rest : Replaced old new path c d) :
      Replaced old new ((n : Int) :: path) (node r cs) (node r (cs.set n d))

theorem replace_of_get? {t old : Tree} {path : Path} (h : t.get? path = some old) (new : Tree) :
    ∃ u, t.replace path new = .ok u ∧ Replaced old new path t u := by
  induction path generalizing t with
  | nil =>
      obtain rfl : t = old := by simpa using h
      exact ⟨new, by cases t <;> rfl, .here⟩
  | cons i path ih =>
      rw [get?_cons] at h
      obtain ⟨c, hi, hc⟩ := Option.bind_eq_some_iff.mp h
      obtain ⟨n, rfl, hn⟩ := child?_eq_some.mp hi
      cases t with
      | node r cs =>
          obtain ⟨d, hd, hr⟩ := ih hc
          refine ⟨node r (cs.set n d), ?_, .inside hn hr⟩
          rw [replace, hi]
          simp only [hd]
          rfl
      | hole => simp [children] at hn
      | choice => simp [children] at hn
      | var => simp [children] at hn

section Replaced

variable {old new t u : Tree} {path : Path}

theorem Replaced.get?_old (h : Replaced old new path t u) : t.get? path = some old := by
  induction h with
  | here => simp
  | inside found _ ih => simp [get?_cons, found, ih]

theorem Replaced.get?_new (h : Replaced old new path t u) : u.get? path = some new := by
  induction h with
  | here => simp
  | @inside r cs n c d path found _ ih =>
      have hn : n < cs.length := (List.getElem?_eq_some_iff.mp found).1
      simp [get?_cons, hn, ih]

-- Positions on neither side of the path keep their subtrees.
theorem Replaced.get?_other (h : Replaced old new path t u) {q : Path} (hq : ¬ path <+: q)
    (hp : ¬ q <+: path) : u.get? q = t.get? q := by
  induction h generalizing q with
  | here => exact absurd List.nil_prefix hq
  | @inside r cs n c d path found _ ih =>
      cases q with
      | nil => exact absurd List.nil_prefix hp
      | cons i q =>
          rw [get?_cons, get?_cons]
          by_cases hi : i = n
          · subst hi
            have hn : n < cs.length := (List.getElem?_eq_some_iff.mp found).1
            simp only [child?_node, found, List.getElem?_set_self hn, Option.bind_some]
            apply ih
            · simpa using hq
            · simpa using hp
          · rw [child?_set_ne hi]

-- The nodes above the path keep their rules.
theorem Replaced.get?_above (h : Replaced old new path t u) {q rest : Path}
    (hp : path = q ++ rest) (hr : rest ≠ []) :
    ∃ (r : Int) (cs ds : List Tree), t.get? q = some (node r cs) ∧ u.get? q = some (node r ds) ∧
      ds.length = cs.length := by
  induction h generalizing q with
  | here =>
      obtain ⟨rfl, rfl⟩ := List.append_eq_nil_iff.mp hp.symm
      exact absurd rfl hr
  | @inside r cs n c d path found _ ih =>
      cases q with
      | nil => exact ⟨r, cs, cs.set n d, by simp, by simp, by simp⟩
      | cons i q =>
          obtain ⟨rfl, rfl⟩ := List.cons.inj hp
          obtain ⟨r', cs', ds', ht, hu, hl⟩ := ih rfl
          have hn : n < cs.length := (List.getElem?_eq_some_iff.mp found).1
          exact ⟨r', cs', ds', by simp [get?_cons, found, ht], by simp [get?_cons, hn, hu], hl⟩

-- The new tree has no other positions than the old one and those of the new subtree.
theorem Replaced.get?_of_new (h : Replaced old new path t u) {q : Path} {s : Tree}
    (hs : u.get? q = some s) : (∃ v, t.get? q = some v) ∨
      ∃ rest, q = path ++ rest ∧ rest ≠ [] ∧ new.get? rest = some s := by
  by_cases hp : path <+: q
  · obtain ⟨rest, rfl⟩ := hp
    rw [get?_append_of_get? h.get?_new] at hs
    by_cases hr : rest = []
    · subst hr
      exact Or.inl ⟨old, by simpa using h.get?_old⟩
    · exact Or.inr ⟨rest, rfl, hr, hs⟩
  · by_cases hq : q <+: path
    · obtain ⟨rest, rfl⟩ := hq
      obtain ⟨v, hv, -⟩ := get?_of_append h.get?_old
      exact Or.inl ⟨v, hv⟩
    · exact Or.inl ⟨s, by rw [← h.get?_other hp hq, hs]⟩

-- Its open positions are those of the new subtree and those elsewhere in the old tree, since what
-- is above a position is a node.
theorem Replaced.get?_of_hole (h : Replaced old new path t u) {q : Path} {category : String} {d : Domain}
    (hs : u.get? q = some (hole category d)) :
    (∃ rest, q = path ++ rest ∧ new.get? rest = some (hole category d)) ∨
      t.get? q = some (hole category d) := by
  by_cases hbelow : path <+: q
  · obtain ⟨rest, rfl⟩ := hbelow
    rw [get?_append_of_get? h.get?_new] at hs
    exact Or.inl ⟨rest, rfl, hs⟩
  · by_cases habove : q <+: path
    · obtain ⟨rest, rfl⟩ := habove
      obtain ⟨r, cs, ds, -, hds, -⟩ := h.get?_above rfl fun he => hbelow (by simp [he])
      cases hs.symm.trans hds
    · rw [h.get?_other hbelow habove] at hs
      exact Or.inr hs

theorem Replaced.refines (h : Replaced old new path t u) (hn : new.Refines old) : u.Refines t := by
  induction h with
  | here => exact hn
  | @inside r cs n c d path found _ ih =>
      refine .node (by simp) fun i s c' hs hc => ?_
      rw [List.getElem?_set] at hs
      split at hs
      · rename_i hi
        subst hi
        split at hs
        · obtain rfl : d = s := Option.some.inj hs
          obtain rfl : c = c' := Option.some.inj (found.symm.trans hc)
          exact ih
        · cases hs
      · obtain rfl : s = c' := Option.some.inj (hs.symm.trans hc)
        exact .refl s

-- Whatever refines the old tree, and the new subtree at the path, refines the new tree.
theorem Replaced.refines_of_refines (h : Replaced old new path t u) {v w : Tree}
    (hv : v.Refines t) (hw : v.get? path = some w) (hn : w.Refines new) : v.Refines u := by
  induction h generalizing v with
  | here =>
      obtain rfl : v = w := by simpa using hw
      exact hn
  | @inside r cs n c d path found _ ih =>
      obtain ⟨es, rfl, hlen, hes⟩ := refines_node_iff.mp hv
      refine .node (by simpa using hlen) fun i s c' hs hc => ?_
      rw [List.getElem?_set] at hc
      split at hc
      · rename_i hi
        subst hi
        split at hc
        · obtain rfl : d = c' := Option.some.inj hc
          exact ih (hes n s c hs found) (by simpa [get?_cons, hs] using hw)
        · cases hc
      · exact hes i s c' hs hc

end Replaced

end TreeSearch.Tree
