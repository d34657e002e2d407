import TreeSearch.Branch.PathClasses
import TreeSearch.Proofs.Tree.Paths

namespace TreeSearch.PathClasses

-- No path is in two classes.
def Proper (c : PathClasses) : Prop :=
  ∀ k ∈ c.classes, ∀ l ∈ c.classes, ∀ path ∈ k, path ∈ l → k = l

-- A tree has equal subtrees at the paths of one class.
def Respected (c : PathClasses) (t : Tree) : Prop :=
  ∀ k ∈ c.classes, ∀ first ∈ k, ∀ second ∈ k, t.get? first = t.get? second

variable {c : PathClasses} {path other first second : Path}

theorem members_eq_or (c : PathClasses) (path : Path) :
    (∃ k ∈ c.classes, path ∈ k ∧ c.members path = k) ∨
      (∀ k ∈ c.classes, path ∉ k) ∧ c.members path = [path] := by
  unfold members
  cases h : c.classes.find? (path ∈ ·) with
  | some k => exact Or.inl ⟨k, List.mem_of_find?_eq_some h, by simpa using List.find?_some h, rfl⟩
  | none => exact Or.inr ⟨by simpa using h, rfl⟩

theorem mem_members_self (c : PathClasses) (path : Path) : path ∈ c.members path := by
  rcases c.members_eq_or path with ⟨k, -, hp, he⟩ | ⟨-, he⟩
  · rw [he]
    exact hp
  · rw [he]
    exact List.mem_singleton.mpr rfl

theorem Respected.members {t : Tree} (h : c.Respected t) (hm : other ∈ c.members path) :
    t.get? path = t.get? other := by
  rcases c.members_eq_or path with ⟨k, hk, hp, he⟩ | ⟨-, he⟩
  · exact h k hk path hp other (he ▸ hm)
  · rw [he, List.mem_singleton] at hm
    rw [hm]

theorem Proper.members_eq (hc : c.Proper) {k : List Path} (hk : k ∈ c.classes) (hp : path ∈ k) :
    c.members path = k := by
  rcases c.members_eq_or path with ⟨l, hl, hpl, he⟩ | ⟨hnone, -⟩
  · rw [he]
    exact hc l hl k hk path hpl hp
  · exact absurd hp (hnone k hk)

theorem Proper.members_of_mem (hc : c.Proper) (h : other ∈ c.members path) :
    c.members other = c.members path := by
  rcases c.members_eq_or path with ⟨k, hk, -, he⟩ | ⟨-, he⟩
  · rw [he] at h ⊢
    exact hc.members_eq hk h
  · rw [he, List.mem_singleton] at h
    rw [h]

theorem Proper.same_iff (hc : c.Proper) : c.same first second = true ↔ second ∈ c.members first := by
  have hhead (path : Path) : c.representative path ∈ c.members path := by
    unfold representative
    cases hm : c.members path with
    | nil =>
        have := c.mem_members_self path
        rw [hm] at this
        cases this
    | cons q rest => exact List.mem_cons_self
  rw [same, decide_eq_true_eq]
  constructor
  · intro h
    rw [← hc.members_of_mem (hhead first), h, hc.members_of_mem (hhead second)]
    exact c.mem_members_self second
  · intro h
    rw [representative, representative, hc.members_of_mem h]
    cases hm : c.members first with
    | nil =>
        have := c.mem_members_self first
        rw [hm] at this
        cases this
    | cons q rest => rfl

-- Two paths that are not united yet make one class of theirs.
theorem unite_eq (hc : c.Proper) (first second : Path) :
    c.unite first second = c ∧ second ∈ c.members first ∨
      ∃ merged, (∀ path, path ∈ merged ↔ path ∈ c.members first ∨ path ∈ c.members second) ∧
        c.unite first second = ⟨merged :: c.classes.filter fun k => first ∉ k ∧ second ∉ k⟩ := by
  unfold unite
  split
  · rename_i h
    exact Or.inl ⟨rfl, hc.same_iff.mp h⟩
  · refine Or.inr ⟨_, fun path => ?_, rfl⟩
    split <;> simp [or_comm]

theorem Proper.unite (hc : c.Proper) (first second : Path) : (c.unite first second).Proper := by
  rcases unite_eq hc first second with ⟨he, -⟩ | ⟨merged, hm, he⟩
  · rw [he]
    exact hc
  · rw [he]
    have hout (k : List Path) (hk : k ∈ c.classes.filter fun k => first ∉ k ∧ second ∉ k)
        (path : Path) (hpk : path ∈ k) : path ∉ merged := by
      obtain ⟨hk, hout⟩ := List.mem_filter.mp hk
      have hout : first ∉ k ∧ second ∉ k := by simpa using hout
      have hno (other : Path) (ho : other ∉ k) (hp : path ∈ c.members other) : False := by
        have hself := c.mem_members_self other
        rw [← hc.members_of_mem hp, hc.members_eq hk hpk] at hself
        exact ho hself
      rw [hm]
      rintro (hp | hp)
      · exact hno first hout.1 hp
      · exact hno second hout.2 hp
    intro k hk l hl path hpk hpl
    rcases List.mem_cons.mp hk with rfl | hk'
    · rcases List.mem_cons.mp hl with rfl | hl'
      · rfl
      · exact absurd hpk (hout l hl' path hpl)
    · rcases List.mem_cons.mp hl with rfl | hl'
      · exact absurd hpl (hout k hk' path hpk)
      · exact hc k (List.mem_filter.mp hk').1 l (List.mem_filter.mp hl').1 path hpk hpl

theorem Proper.members_unite (hc : c.Proper) (first second path : Path) :
    ∀ other ∈ c.members path, other ∈ (c.unite first second).members path := by
  intro other ho
  have hu := hc.unite first second
  rcases unite_eq hc first second with ⟨he, -⟩ | ⟨merged, hm, he⟩
  · rwa [he]
  · rw [he] at hu ⊢
    have hmerged (q : Path) (hq : path ∈ c.members q) (hin : ∀ x ∈ c.members q, x ∈ merged) :
        other ∈ PathClasses.members ⟨merged :: c.classes.filter fun k => first ∉ k ∧ second ∉ k⟩ path := by
      rw [hu.members_eq List.mem_cons_self (hin path hq)]
      refine hin other ?_
      rwa [← hc.members_of_mem hq]
    by_cases hfirst : path ∈ c.members first
    · exact hmerged first hfirst fun x hx => (hm x).mpr (Or.inl hx)
    · by_cases hsecond : path ∈ c.members second
      · exact hmerged second hsecond fun x hx => (hm x).mpr (Or.inr hx)
      · rcases c.members_eq_or path with ⟨k, hk, hp, hmem⟩ | ⟨-, hmem⟩
        · have hout (q : Path) (hq : path ∉ c.members q) : q ∉ k := by
            intro hqk
            rw [hc.members_eq hk hqk] at hq
            exact hq hp
          have hin : k ∈ c.classes.filter fun k => first ∉ k ∧ second ∉ k :=
            List.mem_filter.mpr ⟨hk, by simpa using ⟨hout first hfirst, hout second hsecond⟩⟩
          rw [hu.members_eq (List.mem_cons_of_mem _ hin) hp]
          rwa [hmem] at ho
        · rw [hmem, List.mem_singleton] at ho
          rw [ho]
          exact mem_members_self _ path

theorem Proper.mem_members_unite (hc : c.Proper) (first second : Path) :
    second ∈ (c.unite first second).members first := by
  have hu := hc.unite first second
  rcases unite_eq hc first second with ⟨he, hs⟩ | ⟨merged, hm, he⟩
  · rwa [he]
  · rw [he] at hu ⊢
    rw [hu.members_eq List.mem_cons_self ((hm first).mpr (Or.inl (c.mem_members_self first)))]
    exact (hm second).mpr (Or.inr (c.mem_members_self second))

-- Uniting one path with several others puts them all into its class.
theorem Proper.foldl_unite (hc : c.Proper) (anchor : Path) (l : List Path) :
    (∀ other ∈ c.members anchor,
      other ∈ (l.foldl (fun c q => c.unite anchor q) c).members anchor) ∧
    ∀ q ∈ l, q ∈ (l.foldl (fun c q => c.unite anchor q) c).members anchor := by
  induction l generalizing c with
  | nil => exact ⟨fun _ h => h, nofun⟩
  | cons q l ih =>
      obtain ⟨hmono, hl⟩ := ih (hc.unite anchor q)
      refine ⟨fun other ho => hmono other (hc.members_unite anchor q anchor other ho), fun r hr => ?_⟩
      rcases List.mem_cons.mp hr with rfl | hr
      · exact hmono r (hc.mem_members_unite anchor r)
      · exact hl r hr

-- A class has no other paths than those of the classes before and the two that are united.
theorem mem_unite (hc : c.Proper) {k : List Path} (hk : k ∈ (c.unite first second).classes)
    (hp : path ∈ k) : (∃ l ∈ c.classes, path ∈ l) ∨ path = first ∨ path = second := by
  have hmem (q : Path) (hq : path ∈ c.members q) : (∃ l ∈ c.classes, path ∈ l) ∨ path = q := by
    rcases c.members_eq_or q with ⟨l, hl, -, he⟩ | ⟨-, he⟩
    · exact Or.inl ⟨l, hl, he ▸ hq⟩
    · rw [he, List.mem_singleton] at hq
      exact Or.inr hq
  rcases unite_eq hc first second with ⟨he, -⟩ | ⟨merged, hm, he⟩
  · rw [he] at hk
    exact Or.inl ⟨k, hk, hp⟩
  · rw [he] at hk
    rcases List.mem_cons.mp hk with rfl | hk
    · rcases (hm path).mp hp with hp | hp
      · exact (hmem first hp).imp_right Or.inl
      · exact (hmem second hp).imp_right Or.inr
    · exact Or.inl ⟨k, (List.mem_filter.mp hk).1, hp⟩

theorem Respected.unite {t : Tree} (hc : c.Proper) (h : c.Respected t)
    (heq : t.get? first = t.get? second) : (c.unite first second).Respected t := by
  rcases unite_eq hc first second with ⟨he, -⟩ | ⟨merged, hm, he⟩
  · rwa [he]
  · rw [he]
    intro k hk
    rcases List.mem_cons.mp hk with rfl | hk
    · have hfirst (path : Path) (hp : path ∈ k) : t.get? first = t.get? path := by
        rcases (hm path).mp hp with hp | hp
        · exact h.members hp
        · exact heq.trans (h.members hp)
      exact fun a ha b hb => (hfirst a ha).symm.trans (hfirst b hb)
    · exact h k (List.mem_filter.mp hk).1

end TreeSearch.PathClasses
