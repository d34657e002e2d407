import Mathlib.Data.Set.Card
import Mathlib.Data.Setoid.Partition
import TreeSearch.Proofs.Branch.Classes

namespace TreeSearch.PathClasses

-- The equivalence that pairs of paths generate.
def closure (pairs : List (Path × Path)) : Setoid Path :=
  Relation.EqvGen.setoid fun first second => (first, second) ∈ pairs

-- The classes of pairs that were united one after the other, the latest pair first.
def united (pairs : List (Path × Path)) : PathClasses :=
  pairs.foldr (fun pair c => c.unite pair.1 pair.2) .empty

variable {c : PathClasses} {pairs : List (Path × Path)} {path other first second : Path}

theorem closure_pair (h : (first, second) ∈ pairs) : closure pairs first second :=
  .rel first second h

theorem closure_later (pair : Path × Path) (h : closure pairs path other) :
    closure (pair :: pairs) path other :=
  Relation.EqvGen.mono (fun _ _ hp => List.mem_cons_of_mem pair hp) path other h

-- A merge brings together only what the two paths were together with.
theorem Proper.of_mem_members_unite (hc : c.Proper) (h : other ∈ (c.unite first second).members path) :
    other ∈ c.members path ∨ (path ∈ c.members first ∨ path ∈ c.members second) ∧
      (other ∈ c.members first ∨ other ∈ c.members second) := by
  rcases unite_eq hc first second with ⟨he, -⟩ | ⟨merged, hm, he⟩
  · rw [he] at h
    exact Or.inl h
  · rcases (c.unite first second).members_eq_or path with ⟨k, hk, hp, hmem⟩ | ⟨-, hmem⟩
    · rw [hmem] at h
      rw [he] at hk
      rcases List.mem_cons.mp hk with rfl | hk
      · exact Or.inr ⟨(hm path).mp hp, (hm other).mp h⟩
      · rw [hc.members_eq (List.mem_filter.mp hk).1 hp]
        exact Or.inl h
    · rw [hmem, List.mem_singleton] at h
      rw [h]
      exact Or.inl (c.mem_members_self path)

-- The members of both classes make the new one.
theorem unite_of_not_mem (hc : c.Proper) (h : second ∉ c.members first) : ∃ merged,
    merged.Perm (c.members first ++ c.members second) ∧
      c.unite first second = ⟨merged :: c.classes.filter fun k => first ∉ k ∧ second ∉ k⟩ := by
  unfold unite
  rw [if_neg (fun hs => h (hc.same_iff.mp hs))]
  refine ⟨_, ?_, rfl⟩
  split
  · exact List.perm_append_comm
  · exact .refl _

-- The classes of an equivalence. Each is listed once, has several members, and lists each once.
structure Closes (s : Setoid Path) (c : PathClasses) : Prop where
  proper : c.Proper
  mem_members : ∀ path other, other ∈ c.members path ↔ s path other
  distinct : c.classes.Nodup
  nodup : ∀ k ∈ c.classes, k.Nodup
  several : ∀ k ∈ c.classes, 1 < k.length

namespace Closes

theorem empty : Closes (closure []) .empty := by
  refine ⟨nofun, fun path other => ?_, .nil, nofun, nofun⟩
  have hmem : PathClasses.empty.members path = [path] := rfl
  rw [hmem, List.mem_singleton]
  constructor
  · rintro rfl
    exact .refl other
  · intro h
    clear hmem
    induction h with
    | rel _ _ h => cases h
    | refl => rfl
    | symm _ _ _ ih => exact ih.symm
    | trans _ _ _ _ _ ih ih' => exact ih'.trans ih

theorem nodup_members {s : Setoid Path} (h : Closes s c) (path : Path) : (c.members path).Nodup := by
  rcases c.members_eq_or path with ⟨k, hk, -, he⟩ | ⟨-, he⟩
  · rw [he]
    exact h.nodup k hk
  · rw [he]
    exact List.nodup_singleton path

-- The members after a merge are the ones that the pairs bring together, the new pair included.
theorem mem_members_unite (h : Closes (closure pairs) c) (first second path other : Path) :
    other ∈ (c.unite first second).members path ↔
      closure ((first, second) :: pairs) path other := by
  have hu := h.proper.unite first second
  have hnew : closure ((first, second) :: pairs) first second := closure_pair List.mem_cons_self
  have hold {path other : Path} (hm : other ∈ c.members path) :
      closure ((first, second) :: pairs) path other :=
    closure_later _ ((h.mem_members path other).mp hm)
  have hfirst {path : Path} (hm : path ∈ c.members first ∨ path ∈ c.members second) :
      closure ((first, second) :: pairs) first path := by
    rcases hm with hm | hm
    · exact hold hm
    · exact .trans _ _ _ hnew (hold hm)
  constructor
  · intro hm
    rcases h.proper.of_mem_members_unite hm with hm | ⟨hp, ho⟩
    · exact hold hm
    · exact .trans _ _ _ (.symm _ _ (hfirst hp)) (hfirst ho)
  · intro hm
    -- The members after the merge are classes of an equivalence that holds of all pairs.
    induction hm with
    | rel p q hpair =>
        rcases List.mem_cons.mp hpair with he | hpair
        · obtain ⟨rfl, rfl⟩ := Prod.mk.inj he
          exact h.proper.mem_members_unite p q
        · exact h.proper.members_unite first second p q ((h.mem_members p q).mpr (closure_pair hpair))
    | refl p => exact mem_members_self _ p
    | symm p q _ ih =>
        rw [hu.members_of_mem ih]
        exact mem_members_self _ p
    | trans p q r _ _ ihp ihq => rwa [hu.members_of_mem ihp] at ihq

theorem unite (h : Closes (closure pairs) c) (first second : Path) :
    Closes (closure ((first, second) :: pairs)) (c.unite first second) := by
  have hu := h.proper.unite first second
  have hexact := h.mem_members_unite first second
  by_cases hsecond : second ∈ c.members first
  · have he : c.unite first second = c := if_pos (h.proper.same_iff.mpr hsecond)
    exact ⟨hu, hexact, by rw [he]; exact h.distinct, by rw [he]; exact h.nodup, by rw [he]; exact h.several⟩
  · obtain ⟨merged, hperm, he⟩ := unite_of_not_mem h.proper hsecond
    have hmerged : first ∈ merged :=
      hperm.mem_iff.mpr (List.mem_append_left _ (c.mem_members_self first))
    -- The two classes are disjoint, so the merged one lists each member once.
    have hapart : (c.members first).Disjoint (c.members second) := fun path hp hq => by
      apply hsecond
      rw [← h.proper.members_of_mem hp, h.proper.members_of_mem hq]
      exact c.mem_members_self second
    have hnodup : merged.Nodup := hperm.nodup_iff.mpr
      (List.nodup_append'.mpr ⟨h.nodup_members first, h.nodup_members second, hapart⟩)
    have hseveral : 1 < merged.length := by
      have hours := List.length_pos_of_mem (c.mem_members_self first)
      have htheirs := List.length_pos_of_mem (c.mem_members_self second)
      rw [hperm.length_eq, List.length_append]
      omega
    refine ⟨hu, hexact, ?_, fun k hk => ?_, fun k hk => ?_⟩
    · rw [he]
      refine List.nodup_cons.mpr ⟨fun hin => ?_, h.distinct.filter _⟩
      have hout := (List.mem_filter.mp hin).2
      simp [hmerged] at hout
    · rw [he] at hk
      rcases List.mem_cons.mp hk with rfl | hk
      · exact hnodup
      · exact h.nodup k (List.mem_filter.mp hk).1
    · rw [he] at hk
      rcases List.mem_cons.mp hk with rfl | hk
      · exact hseveral
      · exact h.several k (List.mem_filter.mp hk).1

theorem united (pairs : List (Path × Path)) : Closes (closure pairs) (united pairs) := by
  induction pairs with
  | nil => exact .empty
  | cons pair pairs ih => exact ih.unite pair.1 pair.2

-- A listed class is the class of each of its members.
theorem eq_class {s : Setoid Path} (h : Closes s c) {k : List Path} (hk : k ∈ c.classes) (hp : path ∈ k) :
    {other | other ∈ k} = {other | s other path} := by
  refine Set.ext fun other => ?_
  show other ∈ k ↔ s other path
  rw [← h.proper.members_eq hk hp, h.mem_members]
  exact ⟨s.symm', s.symm'⟩

-- The classes with several members are the ones that are listed.
theorem nontrivial_classes {s : Setoid Path} (h : Closes s c) :
    {k ∈ s.classes | k.Nontrivial} = (fun k : List Path => {path | path ∈ k}) '' {k | k ∈ c.classes} := by
  ext k
  constructor
  · rintro ⟨⟨path, rfl⟩, first, hfirst, second, hsecond, hne⟩
    have hmem {other : Path} (ho : s other path) : other ∈ c.members path :=
      (h.mem_members path other).mpr (s.symm' ho)
    rcases c.members_eq_or path with ⟨l, hl, hp, -⟩ | ⟨-, he⟩
    · exact ⟨l, hl, h.eq_class hl hp⟩
    · rw [he] at hmem
      exact absurd ((List.mem_singleton.mp (hmem hfirst)).trans (List.mem_singleton.mp (hmem hsecond)).symm) hne
  · rintro ⟨l, hl, rfl⟩
    have hlen := h.several l hl
    have hfirst : l[0] ∈ l := List.getElem_mem (by omega)
    refine ⟨⟨l[0], h.eq_class hl hfirst⟩, l[0], hfirst, l[1], List.getElem_mem hlen, fun he => ?_⟩
    have := (h.nodup l hl).getElem_inj_iff.mp he
    omega

theorem encard_classes {s : Setoid Path} (h : Closes s c) :
    {k ∈ s.classes | k.Nontrivial}.encard = c.size := by
  classical
  have hinj : Set.InjOn (fun k : List Path => {path | path ∈ k}) {k | k ∈ c.classes} := by
    intro k hk l hl he
    obtain ⟨path, hp⟩ := List.exists_mem_of_length_pos (Nat.lt_of_succ_lt (h.several k hk))
    exact h.proper k hk l hl path hp ((Set.ext_iff.mp he path).mp hp)
  rw [h.nontrivial_classes, hinj.encard_image, ← List.coe_toFinset, Set.encard_coe_eq_coe_finsetCard,
    List.toFinset_card_of_nodup h.distinct]
  rfl

end Closes

end TreeSearch.PathClasses
