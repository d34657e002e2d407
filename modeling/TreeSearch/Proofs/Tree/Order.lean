import TreeSearch.Tree.Canonical
import TreeSearch.Proofs.Tree.Refinement

namespace TreeSearch.Tree

section Order

theorem Before.ne {s t : Tree} (h : Before s t) : s ≠ t := by
  induction h with
  | root lt =>
      intro he
      cases he
      exact Int.lt_irrefl _ lt
  | child _ ih =>
      intro he
      have hcs := (Tree.node.inj he).2
      exact ih (List.cons.inj (List.append_cancel_left hcs)).1

theorem Before.trans {s t u : Tree} (h : Before s t) (h' : Before t u) : Before s u := by
  induction h generalizing u with
  | root lt =>
      cases h' with
      | root lt' => exact .root (Int.lt_trans lt lt')
      | child => exact .root lt
  | @child r same cs ds c d lt ih =>
      generalize ht : node r (same ++ d :: ds) = t at h'
      cases h' with
      | root lt' =>
          obtain ⟨rfl, -⟩ := Tree.node.inj ht
          exact .root lt'
      | @child r' same' cs' ds' c' d' lt' =>
          obtain ⟨rfl, he⟩ := Tree.node.inj ht
          rcases List.append_eq_append_iff.mp he with ⟨mid, rfl, hmid⟩ | ⟨mid, rfl, hmid⟩
          · cases mid with
            | nil =>
                obtain ⟨rfl, -⟩ := List.cons.inj (by simpa using hmid)
                simpa using Before.child (ih lt')
            | cons e mid =>
                obtain ⟨rfl, -⟩ := List.cons.inj (by simpa using hmid)
                simpa using Before.child lt
          · cases mid with
            | nil =>
                obtain ⟨rfl, -⟩ := List.cons.inj (by simpa using hmid)
                simpa using Before.child (ih lt')
            | cons e mid =>
                obtain ⟨rfl, -⟩ := List.cons.inj (by simpa using hmid)
                simpa using Before.child lt'

theorem UpTo.trans {s t u : Tree} (h : UpTo s t) (h' : UpTo t u) : UpTo s u := by
  rcases h with rfl | h
  · exact h'
  · rcases h' with rfl | h'
    · exact Or.inr h
    · exact Or.inr (h.trans h')

theorem UpTo.root_le {r q : Int} {cs ds : List Tree} (h : UpTo (node r cs) (node q ds)) : r ≤ q := by
  rcases h with he | h
  · exact Int.le_of_eq (Tree.node.inj he).1
  · generalize hs : node r cs = s at h
    generalize ht : node q ds = t at h
    cases h with
    | root lt =>
        cases hs
        cases ht
        exact Int.le_of_lt lt
    | child =>
        cases hs
        cases ht
        exact Int.le_refl r

-- Behind equal children the next ones are in order too.
theorem UpTo.child {r : Int} {cs ds : List Tree} (h : UpTo (node r cs) (node r ds)) {n : Nat}
    (hsame : ∀ i < n, cs[i]? = ds[i]?) {c d : Tree} (hc : cs[n]? = some c) (hd : ds[n]? = some d) :
    UpTo c d := by
  rcases h with he | h
  · obtain ⟨-, rfl⟩ := Tree.node.inj he
    exact Or.inl (Option.some.inj (hc.symm.trans hd))
  · generalize hs : node r cs = s at h
    generalize ht : node r ds = t at h
    cases h with
    | root lt =>
        cases hs
        cases ht
        exact absurd lt (Int.lt_irrefl r)
    | @child r' same cs' ds' c' d' lt =>
        cases hs
        cases ht
        rcases Nat.lt_trichotomy same.length n with hlt | rfl | hgt
        · have := hsame same.length hlt
          simp only [List.getElem?_append_right (Nat.le_refl _), Nat.sub_self,
            List.getElem?_cons_zero, Option.some.injEq] at this
          exact absurd this lt.ne
        · simp only [List.getElem?_append_right (Nat.le_refl _), Nat.sub_self,
            List.getElem?_cons_zero, Option.some.injEq] at hc hd
          subst hc hd
          exact Or.inr lt
        · rw [List.getElem?_append_left hgt] at hc hd
          exact Or.inl (Option.some.inj (hc.symm.trans hd))

-- The first children that differ decide.
theorem before_of_child {r : Int} {cs ds : List Tree} {n : Nat}
    (hsame : ∀ i < n, cs[i]? = ds[i]?) {c d : Tree} (hc : cs[n]? = some c) (hd : ds[n]? = some d)
    (h : Before c d) : Before (node r cs) (node r ds) := by
  obtain ⟨hn, rfl⟩ := List.getElem?_eq_some_iff.mp hc
  obtain ⟨hn', rfl⟩ := List.getElem?_eq_some_iff.mp hd
  have htake : cs.take n = ds.take n := by
    refine List.ext_getElem? fun i => ?_
    rw [List.getElem?_take, List.getElem?_take]
    split
    · exact hsame i (by assumption)
    · rfl
  have hcs : cs.take n ++ cs[n] :: cs.drop (n + 1) = cs := by simp
  have hds : cs.take n ++ ds[n] :: ds.drop (n + 1) = ds := by
    rw [htake]
    simp
  have hb : Before (node r (cs.take n ++ cs[n] :: cs.drop (n + 1)))
      (node r (cs.take n ++ ds[n] :: ds.drop (n + 1))) := .child h
  rwa [hcs, hds] at hb

end Order

section Skeleton

mutual

-- A tree without the rules of its holes.
def skeleton : Tree → Tree
  | .node r cs => .node r (skeletons cs)
  | .hole category _ => .hole category ∅
  | .choice d parts => .choice d parts
  | .var name => .var name

def skeletons : List Tree → List Tree
  | [] => []
  | c :: cs => skeleton c :: skeletons cs

end

theorem skeletons_eq (cs : List Tree) : skeletons cs = cs.map skeleton := by
  induction cs with
  | nil => rfl
  | cons c cs ih => simp [skeletons, ih]

theorem get?_skeleton (t : Tree) (path : Path) :
    t.skeleton.get? path = (t.get? path).map skeleton := by
  induction path generalizing t with
  | nil => simp
  | cons i path ih =>
      rw [get?_cons, get?_cons]
      cases t with
      | node r cs =>
          rw [skeleton, skeletons_eq]
          unfold child?
          split
          · simp only [children, List.getElem?_map]
            cases cs[i.toNat]? with
            | none => rfl
            | some c => exact ih c
          · rfl
      | hole => simp [skeleton]
      | choice => simp [skeleton, child?, children]
      | var => simp [skeleton, child?, children]

theorem complete_skeleton (t : Tree) : t.skeleton.Complete ↔ t.Complete := by
  induction t using Tree.induction with
  | node r cs ih =>
      rw [skeleton, skeletons_eq]
      constructor
      · intro h
        obtain ⟨_, _, he, hcs⟩ := complete_iff.mp h
        obtain ⟨-, rfl⟩ := Tree.node.inj he
        exact .node fun c hc => (ih c hc).mp (hcs _ (List.mem_map_of_mem hc))
      · intro h
        obtain ⟨_, _, he, hcs⟩ := complete_iff.mp h
        obtain ⟨-, rfl⟩ := Tree.node.inj he
        refine .node fun c hc => ?_
        obtain ⟨d, hd, rfl⟩ := List.mem_map.mp hc
        exact (ih d hd).mpr (hcs d hd)
  | hole => exact iff_of_false nofun nofun
  | choice => exact iff_of_false nofun nofun
  | var => exact iff_of_false nofun nofun

theorem Replaced.skeleton_eq {old new t u : Tree} {path : Path} (h : Replaced old new path t u)
    (hn : new.skeleton = old.skeleton) : u.skeleton = t.skeleton := by
  induction h with
  | here => exact hn
  | @inside r cs n c d path found _ ih =>
      rw [skeleton, skeleton, skeletons_eq, skeletons_eq, List.map_set, ih]
      congr 1
      refine List.ext_getElem? fun i => ?_
      rw [List.getElem?_set]
      split
      · rename_i hi
        subst hi
        split
        · rw [List.getElem?_map, found]
          rfl
        · rename_i hlt
          exact (List.getElem?_eq_none (Nat.le_of_not_lt hlt)).symm
      · rfl

end Skeleton

end TreeSearch.Tree
