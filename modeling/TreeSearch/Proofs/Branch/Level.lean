import Mathlib.Data.Set.Insert
import TreeSearch.Proofs.Branch.Invariants

namespace TreeSearch

-- What stands at the root of a tree: a rule and the number of children, or else all of it.
def Tree.root : Tree → (Int × Nat) ⊕ Tree
  | .node r cs => .inl (r, cs.length)
  | t => .inr t

theorem Tree.root_eq_inl {t : Tree} {r : Int} {n : Nat} :
    t.root = .inl (r, n) ↔ ∃ cs, t = .node r cs ∧ cs.length = n := by
  cases t with
  | node q ds =>
      constructor
      · intro h
        obtain ⟨rfl, rfl⟩ := Prod.mk.inj (Sum.inl.inj h)
        exact ⟨ds, rfl, rfl⟩
      · rintro ⟨cs, he, rfl⟩
        cases he
        rfl
  | hole => exact ⟨nofun, fun ⟨_, h, _⟩ => nomatch h⟩
  | choice => exact ⟨nofun, fun ⟨_, h, _⟩ => nomatch h⟩
  | var => exact ⟨nofun, fun ⟨_, h, _⟩ => nomatch h⟩

theorem Tree.eq_of_root_eq_inr {t s : Tree} (h : t.root = .inr s) : t = s := by
  cases t with
  | node => cases h
  | hole => exact Sum.inr.inj h
  | choice => exact Sum.inr.inj h
  | var => exact Sum.inr.inj h

namespace Branch

variable {p : Problem} {b c : Branch} {path : Path} {D E : Set (Set Path)}

def rootAt (b : Branch) (path : Path) : Option ((Int × Nat) ⊕ Tree) :=
  (b.tree.get? path).map Tree.root

theorem rootAt_eq_some {s : Tree} (hs : b.tree.get? path = some s) : b.rootAt path = some s.root := by
  rw [rootAt, hs]
  rfl

theorem rootAt_eq_inl {r : Int} {n : Nat} : b.rootAt path = some (.inl (r, n)) ↔
    ∃ cs, b.tree.get? path = some (.node r cs) ∧ cs.length = n := by
  rw [rootAt, Option.map_eq_some_iff]
  constructor
  · rintro ⟨s, hs, h⟩
    obtain ⟨cs, rfl, hn⟩ := Tree.root_eq_inl.mp h
    exact ⟨cs, hs, hn⟩
  · rintro ⟨cs, hs, hn⟩
    exact ⟨_, hs, Tree.root_eq_inl.mpr ⟨cs, rfl, hn⟩⟩

theorem get?_of_rootAt {s : Tree} (h : b.rootAt path = some (.inr s)) : b.tree.get? path = some s := by
  obtain ⟨v, hv, hroot⟩ := Option.map_eq_some_iff.mp h
  rw [hv, Tree.eq_of_root_eq_inr hroot]

-- The class of a path as a set.
def classAt (b : Branch) (path : Path) : Set Path := {q | q ∈ b.classes.members path}

-- Positions in the same state, whose children are united one by one.
structure Level (b : Branch) (k : List Path) : Prop where
  roots : ∀ first ∈ k, ∀ second ∈ k, b.rootAt first = b.rootAt second
  below : ∀ first ∈ k, ∀ second ∈ k, ∀ (r : Int) (n i : Nat), b.rootAt first = some (.inl (r, n)) →
    i < n → second ++ [(i : Int)] ∈ b.classes.members (first ++ [(i : Int)])

-- The children of some positions at an index are united.
def Joined (b : Branch) (k : List Path) (i : Nat) : Prop :=
  ∀ first ∈ k, ∀ second ∈ k, second ++ [(i : Int)] ∈ b.classes.members (first ++ [(i : Int)])

-- What every operation keeps, whether the branch is feasible or not.
structure Intact (p : Problem) (b : Branch) : Prop where
  wellFormed : p.grammar.WellFormed none b.tree
  rules : ∀ path category d, b.tree.get? path = some (.hole category d) → d.isEmpty = false
  classes : b.classes.Proper
  united : ∀ k ∈ b.classes.classes, ∀ path ∈ k, ∃ s, b.tree.get? path = some s

-- All classes are level but those that are excused.
structure Balanced (p : Problem) (D : Set (Set Path)) (b : Branch) : Prop where
  intact : b.Intact p
  level : b.feasible = true → ∀ k ∈ b.classes.classes, b.Level k ∨ {q | q ∈ k} ∈ D

-- Positions stay where they are and united paths stay united. A branch that has failed stays so.
structure Grows (b c : Branch) : Prop where
  refines : c.tree.Refines b.tree
  feasible : c.feasible = true → b.feasible = true
  members : ∀ path, ∀ other ∈ b.classes.members path, other ∈ c.classes.members path

theorem Grows.refl (b : Branch) : b.Grows b := ⟨.refl _, fun h => h, fun _ _ h => h⟩

theorem Grows.trans {d : Branch} (h : b.Grows c) (h' : c.Grows d) : b.Grows d :=
  ⟨h'.refines.trans h.refines, fun hf => h.feasible (h'.feasible hf),
    fun path other ho => h'.members path other (h.members path other ho)⟩

theorem Grows.joined (h : b.Grows c) {k : List Path} {i : Nat} (hj : b.Joined k i) : c.Joined k i :=
  fun first hf second hs => h.members _ _ (hj first hf second hs)

theorem Grows.placed (h : b.Grows c) (hs : ∃ s, b.tree.get? path = some s) :
    ∃ s, c.tree.get? path = some s := by
  obtain ⟨s, hs⟩ := hs
  obtain ⟨v, hv, -⟩ := h.refines.get? hs
  exact ⟨v, hv⟩

-- A node keeps its rule and the number of its children.
theorem Grows.rootAt (h : b.Grows c) {r : Int} {n : Nat} (hr : b.rootAt path = some (.inl (r, n))) :
    c.rootAt path = some (.inl (r, n)) := by
  obtain ⟨cs, hcs, rfl⟩ := rootAt_eq_inl.mp hr
  obtain ⟨v, hv, hvr⟩ := h.refines.get? hcs
  obtain ⟨ds, rfl, hlen, -⟩ := Tree.refines_node_iff.mp hvr
  exact rootAt_eq_inl.mpr ⟨ds, hv, hlen⟩

theorem Intact.member (h : b.Intact p) (hs : ∃ s, b.tree.get? path = some s) {other : Path}
    (hm : other ∈ b.classes.members path) : ∃ s, b.tree.get? other = some s := by
  rcases b.classes.members_eq_or path with ⟨k, hk, -, he⟩ | ⟨-, he⟩
  · exact h.united k hk other (he ▸ hm)
  · rw [he, List.mem_singleton] at hm
    exact hm ▸ hs

-- All classes may be excused.
theorem Intact.balanced (h : b.Intact p) : b.Balanced p Set.univ :=
  ⟨h, fun _ _ _ => Or.inr (Set.mem_univ _)⟩

-- Open positions have rules, so there is a lowest and a highest one.
theorem Intact.not_hopeless (hb : b.Intact p) : ¬ Hopeless b.tree := by
  rintro ⟨path, category, d, hs, hd⟩
  exact absurd (hd.symm.trans (hb.rules path category d hs)) nofun

theorem Intact.classAt_eq (h : b.Intact p) {k : List Path} (hk : k ∈ b.classes.classes)
    (hp : path ∈ k) : {q | q ∈ k} = b.classAt path := by
  rw [classAt, h.classes.members_eq hk hp]

section Level

theorem Level.congr {k : List Path} (h : b.Level k) (hroot : ∀ q ∈ k, c.rootAt q = b.rootAt q)
    (hm : ∀ path, ∀ other ∈ b.classes.members path, other ∈ c.classes.members path) : c.Level k := by
  refine ⟨fun first hf second hs => ?_, fun first hf second hs r n i hr hi => ?_⟩
  · rw [hroot first hf, hroot second hs]
    exact h.roots first hf second hs
  · rw [hroot first hf] at hr
    exact hm _ _ (h.below first hf second hs r n i hr hi)

theorem level_of_length (b : Branch) {k : List Path} (h : k.length < 2) : b.Level k := by
  have hsame (first : Path) (hf : first ∈ k) (second : Path) (hs : second ∈ k) : first = second := by
    match k, h with
    | [q], _ => rw [List.mem_singleton.mp hf, List.mem_singleton.mp hs]
  refine ⟨fun first hf second hs => by rw [hsame first hf second hs], ?_⟩
  intro first hf second hs r n i _ _
  rw [hsame first hf second hs]
  exact b.classes.mem_members_self _

-- Where all classes are level, united positions have equal subtrees.
theorem get?_eq_of_level (hb : b.Intact p) (h : ∀ k ∈ b.classes.classes, b.Level k)
    {first second : Path} (hm : second ∈ b.classes.members first) {s : Tree}
    (hs : b.tree.get? first = some s) : b.tree.get? second = some s := by
  induction s using Tree.induction generalizing first second with
  | node r cs ih =>
      rcases b.classes.members_eq_or first with ⟨k, hk, hf, he⟩ | ⟨-, he⟩
      · rw [he] at hm
        have hroot := rootAt_eq_inl.mpr ⟨cs, hs, rfl⟩
        obtain ⟨ds, hds, hlen⟩ := rootAt_eq_inl.mp (((h k hk).roots first hf second hm).symm.trans hroot)
        suffices hcs : ds = cs by rw [hds, hcs]
        refine List.ext_getElem? fun i => ?_
        by_cases hi : i < cs.length
        · have hc : cs[i]? = some cs[i] := List.getElem?_eq_getElem hi
          have hchild := Tree.get?_child hs hc
          have hbelow := (h k hk).below first hf second hm r cs.length i hroot hi
          rw [hc, ← Tree.get?_below hds]
          exact ih cs[i] (List.getElem_mem hi) hbelow hchild
        · rw [List.getElem?_eq_none (Nat.le_of_not_lt hi), List.getElem?_eq_none (by omega)]
      · rw [he, List.mem_singleton] at hm
        rwa [hm]
  | hole category d =>
      rcases b.classes.members_eq_or first with ⟨k, hk, hf, he⟩ | ⟨-, he⟩
      · rw [he] at hm
        exact get?_of_rootAt (((h k hk).roots first hf second hm).symm.trans (rootAt_eq_some hs))
      · rw [he, List.mem_singleton] at hm
        rwa [hm]
  | choice => cases hb.wellFormed.get? hs
  | var => cases hb.wellFormed.get? hs

end Level

section Balance

theorem Balanced.mono (h : b.Balanced p D) (hsub : D ⊆ E) : b.Balanced p E :=
  ⟨h.intact, fun hf k hk => (h.level hf k hk).imp_right fun hin => hsub hin⟩

theorem Balanced.excuse (h : b.Balanced p D) (S : Set Path) : b.Balanced p (insert S D) :=
  h.mono (Set.subset_insert S D)

-- A class that has become level is excused no longer.
theorem Balanced.settle {S : Set Path} (h : b.Balanced p (insert S D))
    (hl : b.feasible = true → ∀ k ∈ b.classes.classes, {q | q ∈ k} = S → b.Level k) :
    b.Balanced p D := by
  refine ⟨h.intact, fun hf k hk => ?_⟩
  rcases h.level hf k hk with hk' | he | hD
  · exact Or.inl hk'
  · exact Or.inl (hl hf k hk he)
  · exact Or.inr hD

theorem Balanced.release (h : b.Balanced p (insert (b.classAt path) D))
    (hl : b.feasible = true → b.Level (b.classes.members path)) : b.Balanced p D := by
  refine h.settle fun hf k hk he => ?_
  have hp : path ∈ k := (Set.ext_iff.mp he path).mpr (b.classes.mem_members_self path)
  rw [← h.intact.classes.members_eq hk hp]
  exact hl hf

-- What matters is the tree, the classes and whether the branch is feasible.
theorem Intact.congr (h : b.Intact p) (htree : c.tree = b.tree) (hclasses : c.classes = b.classes) :
    c.Intact p := by
  refine ⟨htree ▸ h.wellFormed, ?_, hclasses ▸ h.classes, ?_⟩
  · rw [htree]
    exact h.rules
  · rw [htree, hclasses]
    exact h.united

theorem Balanced.congr (h : b.Balanced p D) (htree : c.tree = b.tree)
    (hclasses : c.classes = b.classes) (hf : c.feasible = true → b.feasible = true) :
    c.Balanced p D := by
  refine ⟨h.intact.congr htree hclasses, fun hfc k hk => ?_⟩
  rw [hclasses] at hk
  refine (h.level (hf hfc) k hk).imp_left fun hl => hl.congr (fun q _ => ?_) ?_
  · rw [rootAt, rootAt, htree]
  · rw [hclasses]
    exact fun _ _ hm => hm

theorem Grows.of_eq (htree : c.tree = b.tree) (hclasses : c.classes = b.classes)
    (hf : c.feasible = true → b.feasible = true) : b.Grows c := by
  refine ⟨htree ▸ .refl _, hf, ?_⟩
  rw [hclasses]
  exact fun _ _ hm => hm

end Balance

section Edits

variable {old new tree : Tree}

-- Putting something in the place of a hole changes the state of no other position.
theorem rootAt_of_hole_replaced {category : String} {rules : Domain}
    (replaced : Tree.Replaced (.hole category rules) new path b.tree tree) (hc : c.tree = tree)
    {q : Path} (hne : q ≠ path) (hs : ∃ s, b.tree.get? q = some s) : c.rootAt q = b.rootAt q := by
  obtain ⟨s, hs⟩ := hs
  rw [rootAt, rootAt, hc]
  by_cases hbelow : path <+: q
  · obtain ⟨rest, rfl⟩ := hbelow
    rw [Tree.get?_append_of_get? replaced.get?_old] at hs
    obtain ⟨rfl, -⟩ := Tree.get?_hole_eq_some hs
    exact absurd (List.append_nil path) hne
  · by_cases habove : q <+: path
    · obtain ⟨rest, rfl⟩ := habove
      obtain ⟨r, cs, ds, hcs, hds, hlen⟩ := replaced.get?_above rfl fun h => hbelow (by simp [h])
      rw [hcs, hds]
      show some (Sum.inl (r, ds.length)) = some (Sum.inl (r, cs.length))
      rw [hlen]
    · rw [replaced.get?_other hbelow habove]

theorem rootAt_of_replaced (change : Edit p path old new)
    (replaced : Tree.Replaced old new path b.tree tree) (hc : c.tree = tree) {q : Path}
    (hne : q ≠ path) (hs : ∃ s, b.tree.get? q = some s) : c.rootAt q = b.rootAt q := by
  obtain ⟨category, rules, rfl⟩ := change.old_hole
  exact rootAt_of_hole_replaced replaced hc hne hs

theorem Intact.edit (h : b.Intact p) (change : Edit p path old new)
    (replaced : Tree.Replaced old new path b.tree tree) (htree : c.tree = tree)
    (hclasses : c.classes = b.classes) : c.Intact p := by
  have hrefines := replaced.refines change.refines
  refine ⟨?_, ?_, hclasses ▸ h.classes, ?_⟩
  · rw [htree]
    exact h.wellFormed.replaced replaced fun e => change.wellFormed
  · intro q category d hs
    rw [htree] at hs
    exact (change.hole_of_replaced replaced hs).elim (h.rules q category d) id
  · intro k hk q hq
    rw [hclasses] at hk
    obtain ⟨s, hs⟩ := h.united k hk q hq
    obtain ⟨v, hv, -⟩ := hrefines.get? hs
    exact ⟨v, htree ▸ hv⟩

theorem Grows.edit (change : Edit p path old new) (replaced : Tree.Replaced old new path b.tree tree)
    (htree : c.tree = tree) (hclasses : c.classes = b.classes) (hf : c.feasible = b.feasible) :
    b.Grows c := by
  refine ⟨htree ▸ replaced.refines change.refines, fun hfc => hf ▸ hfc, ?_⟩
  rw [hclasses]
  exact fun _ _ hm => hm

-- An edit in a class that is excused.
theorem Balanced.edit (h : b.Balanced p D) (hin : b.classAt path ∈ D) (change : Edit p path old new)
    (replaced : Tree.Replaced old new path b.tree tree) (htree : c.tree = tree)
    (hclasses : c.classes = b.classes) (hf : c.feasible = b.feasible) : c.Balanced p D := by
  refine ⟨h.intact.edit change replaced htree hclasses, fun hfc k hk => ?_⟩
  rw [hclasses] at hk
  by_cases hp : path ∈ k
  · rw [h.intact.classAt_eq hk hp]
    exact Or.inr hin
  · refine (h.level (hf ▸ hfc) k hk).imp_left fun hl => hl.congr (fun q hq => ?_) ?_
    · exact rootAt_of_replaced change replaced htree (fun he => hp (he ▸ hq)) (h.intact.united k hk q hq)
    · rw [hclasses]
      exact fun _ _ hm => hm

end Edits

section Unions

variable {first second : Path}

theorem Intact.unite (h : b.Intact p) (hfirst : ∃ s, b.tree.get? first = some s)
    (hsecond : ∃ s, b.tree.get? second = some s) :
    { b with classes := b.classes.unite first second }.Intact p := by
  refine ⟨h.wellFormed, h.rules, h.classes.unite first second, fun k hk path hp => ?_⟩
  rcases PathClasses.mem_unite h.classes hk hp with ⟨l, hl, hp⟩ | rfl | rfl
  · exact h.united l hl path hp
  · exact hfirst
  · exact hsecond

-- The class that comes of a union is uneven at first.
theorem Balanced.unite (h : b.Balanced p (insert (b.classAt first) D))
    (hfirst : ∃ s, b.tree.get? first = some s) (hsecond : ∃ s, b.tree.get? second = some s) :
    { b with classes := b.classes.unite first second }.Balanced p
      (insert ({ b with classes := b.classes.unite first second }.classAt first) D) := by
  have hintact := h.intact.unite hfirst hsecond
  refine ⟨hintact, fun hf k hk => ?_⟩
  by_cases hp : first ∈ k
  · exact Or.inr (Or.inl (hintact.classAt_eq hk hp))
  · have hold : k ∈ b.classes.classes := by
      rcases PathClasses.unite_eq h.intact.classes first second with ⟨he, -⟩ | ⟨merged, hm, he⟩
      · rwa [he] at hk
      · rw [he] at hk
        rcases List.mem_cons.mp hk with rfl | hk
        · exact absurd ((hm first).mpr (Or.inl (b.classes.mem_members_self first))) hp
        · exact (List.mem_filter.mp hk).1
    rcases h.level hf k hold with hl | he | hD
    · refine Or.inl (hl.congr (fun _ _ => rfl) ?_)
      exact fun path => h.intact.classes.members_unite first second path
    · exact absurd ((Set.ext_iff.mp he first).mpr (b.classes.mem_members_self first)) hp
    · exact Or.inr (Or.inr hD)

theorem Grows.unite (h : b.Intact p) : b.Grows { b with classes := b.classes.unite first second } :=
  ⟨.refl _, fun hf => hf, fun path => h.classes.members_unite first second path⟩

-- Uniting a path with several others.
theorem Balanced.uniteAll {anchor : Path} {l : List Path}
    (h : b.Balanced p (insert (b.classAt anchor) D)) (ha : ∃ s, b.tree.get? anchor = some s)
    (hl : ∀ q ∈ l, ∃ s, b.tree.get? q = some s) {classes : PathClasses}
    (he : classes = l.foldl (fun classes q => classes.unite anchor q) b.classes) :
    b.Grows { b with classes } ∧
      { b with classes }.Balanced p (insert ({ b with classes }.classAt anchor) D) := by
  subst he
  induction l generalizing b with
  | nil => exact ⟨.refl b, h⟩
  | cons q l ih =>
      have hunited := h.unite ha (hl q List.mem_cons_self)
      obtain ⟨hgrows, hbalanced⟩ := ih hunited ha fun r hr => hl r (List.mem_cons_of_mem q hr)
      exact ⟨(Grows.unite h.intact).trans hgrows, hbalanced⟩

end Unions

end Branch

end TreeSearch
