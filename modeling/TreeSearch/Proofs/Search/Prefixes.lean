import TreeSearch.Proofs.Search.BestFirst
import TreeSearch.Proofs.Search.CanonicalOrder
import TreeSearch.Proofs.Search.Termination

namespace TreeSearch

-- The first elements of a set in some order, as many of them as the limit says.
structure Foremost {α : Type} (among : α → Prop) (less : α → α → Prop) (limit : Option Nat)
    (l : List α) : Prop where
  nodup : l.Nodup
  sound : ∀ x ∈ l, among x
  ascending : l.Pairwise fun x y => ∀ z, among z → less y z → less x z
  first : ∀ before x after, l = before ++ x :: after → ∀ y, among y → less y x → y ∈ before
  within : ∀ n ∈ limit, l.length ≤ n
  full : (∀ x, among x → x ∈ l) ∨ limit = some l.length

namespace Foremost

variable {α β : Type} {among : α → Prop} {less : α → α → Prop} {limit : Option Nat} {l k : List α}
  {x y : α}

theorem mem (h : Foremost among less limit l) (hx : x ∈ l) (hy : among y) (hlt : less y x) :
    y ∈ l := by
  obtain ⟨before, after, rfl⟩ := List.append_of_mem hx
  exact List.mem_append_left _ (h.first before x after rfl y hy hlt)

theorem length_le (h : Foremost among less limit l) (hk : Foremost among less limit k) :
    l.length ≤ k.length := by
  rcases hk.full with hfull | rfl
  · exact (h.nodup.subperm fun x hx => hfull x (h.sound x hx)).length_le
  · exact h.within _ rfl

theorem length_eq (h : Foremost among less limit l) (hk : Foremost among less limit k) :
    l.length = k.length :=
  Nat.le_antisymm (h.length_le hk) (hk.length_le h)

-- The elements up to the first place where one list is ahead of the other would all stand in
-- front of that place in the other list, and they are too many.
theorem not_less (h : Foremost among less limit l) (hk : Foremost among less limit k) {i : Nat}
    (hx : l[i]? = some x) (hy : k[i]? = some y) : ¬ less x y := by
  intro hlt
  obtain ⟨hi, rfl⟩ := List.getElem?_eq_some_iff.mp hx
  obtain ⟨hi', rfl⟩ := List.getElem?_eq_some_iff.mp hy
  have hsplit : k = k.take i ++ k[i] :: k.drop (i + 1) := by simp
  have hamong := hk.sound k[i] (List.getElem_mem hi')
  have hsub : l.take (i + 1) ⊆ k.take i := by
    intro u hu
    obtain ⟨j, hj, rfl⟩ := List.mem_iff_getElem.mp hu
    rw [List.length_take] at hj
    rw [List.getElem_take]
    refine hk.first _ _ _ hsplit _ (h.sound _ (List.getElem_mem _)) ?_
    rcases Nat.lt_or_ge j i with hji | hij
    · exact List.pairwise_iff_getElem.mp h.ascending j i (by omega) hi hji k[i] hamong hlt
    · obtain rfl : j = i := by omega
      exact hlt
  have hlen := ((h.nodup.sublist (List.take_sublist (i + 1) l)).subperm hsub).length_le
  simp only [List.length_take] at hlen
  omega

theorem perm (h : Foremost among less none l) (hk : Foremost among less none k) : l.Perm k := by
  refine (List.perm_ext_iff_of_nodup h.nodup hk.nodup).mpr fun x => ?_
  have hall := h.full.resolve_right nofun
  have hall' := hk.full.resolve_right nofun
  exact ⟨fun hx => hall' x (h.sound x hx), fun hx => hall x (hk.sound x hx)⟩

-- An order that tells all elements apart leaves no choice.
theorem eq_of_total (h : Foremost among less limit l) (hk : Foremost among less limit k)
    (total : ∀ x y, among x → among y → x = y ∨ less x y ∨ less y x) : l = k := by
  refine List.ext_getElem (h.length_eq hk) fun i hi hi' => ?_
  have hx := List.getElem?_eq_getElem hi
  have hy := List.getElem?_eq_getElem hi'
  rcases total _ _ (h.sound _ (List.getElem_mem hi)) (hk.sound _ (List.getElem_mem hi')) with he | hlt | hlt
  · exact he
  · exact absurd hlt (h.not_less hk hx hy)
  · exact absurd hlt (hk.not_less h hy hx)

-- Other names for the elements, which keep their order.
theorem map {among' : β → Prop} {less' : β → β → Prop} {f : α → β} (h : Foremost among less limit l)
    (maps : ∀ x, among x → among' (f x)) (onto : ∀ y, among' y → ∃ x, among x ∧ f x = y)
    (inj : ∀ x y, among x → among y → f x = f y → x = y)
    (same : ∀ x y, among x → among y → (less' (f x) (f y) ↔ less x y)) :
    Foremost among' less' limit (l.map f) := by
  refine ⟨h.nodup.map_on fun x hx y hy => inj x y (h.sound x hx) (h.sound y hy),
    List.forall_mem_map.mpr fun x hx => maps x (h.sound x hx), ?_, ?_, ?_, ?_⟩
  · refine List.pairwise_map.mpr (h.ascending.imp_of_mem fun {x y} hx hy hle z hz hlt => ?_)
    obtain ⟨w, hw, rfl⟩ := onto z hz
    exact (same x w (h.sound x hx) hw).mpr (hle w hw ((same y w (h.sound y hy) hw).mp hlt))
  · rintro _ _ _ hl y hy hlt
    obtain ⟨before, rest, rfl, rfl, hrest⟩ := List.map_eq_append_iff.mp hl
    obtain ⟨x, after, rfl, rfl, rfl⟩ := List.map_eq_cons_iff.mp hrest
    obtain ⟨z, hz, rfl⟩ := onto y hy
    have hx := h.sound x (List.mem_append_right before List.mem_cons_self)
    exact List.mem_map_of_mem (h.first before x after rfl z hz ((same z x hz hx).mp hlt))
  · exact fun n hn => by simpa using h.within n hn
  · refine h.full.imp (fun hall y hy => ?_) fun hlimit => by simpa using hlimit
    obtain ⟨x, hx, rfl⟩ := onto y hy
    exact List.mem_map_of_mem (hall x hx)

end Foremost

-- The order in which a strategy lists trees.
def Strategy.Earlier : Strategy → Tree → Tree → Prop
  | .breadthFirst, s, t => s.size < t.size
  | .depthFirst, s, t => s.Before t

namespace Enumerator

variable {e : Enumerator} {fuel : Nat} {pass last : Pass} {trees : List Tree}

section Limits

-- A limit is kept, and only the end of the pass comes before it is reached.
theorem pull_within {n : Nat} (h : e.pull fuel (some n) pass = .ok (trees, last)) :
    trees.length ≤ n ∧ (trees.length = n ∨ last.frontier = []) := by
  induction fuel generalizing n pass trees with
  | zero =>
      rcases pull_eq_ok h with ⟨hn, rfl, -⟩ | ⟨steps, progress, he, -⟩
      · obtain rfl := Option.some.inj hn
        exact ⟨Nat.le_refl 0, Or.inl rfl⟩
      · cases he
  | succ fuel ih =>
      rcases pull_eq_ok h with ⟨hn, rfl, -⟩ | ⟨steps, progress, he, hstep, hrest⟩
      · obtain rfl := Option.some.inj hn
        exact ⟨Nat.le_refl 0, Or.inl rfl⟩
      · obtain rfl : fuel = steps := by omega
        cases progress with
        | finished =>
            obtain ⟨rfl, rfl⟩ := hrest
            exact ⟨Nat.zero_le n, Or.inr (step_eq_ok hstep)⟩
        | expanded next => exact ih hrest
        | yielded tree next =>
            obtain ⟨rest, rfl, hpull⟩ := hrest
            cases n with
            | zero =>
                obtain ⟨hnil, -⟩ := Prod.mk.inj (Except.ok.inj h)
                cases hnil
            | succ n =>
                obtain ⟨hle, hend⟩ := ih hpull
                exact ⟨Nat.succ_le_succ hle, hend.imp_left (congrArg Nat.succ)⟩

end Limits

section Order

-- What a depth-first pass has left comes behind all that it has yielded.
theorem pull_before_rest (hg : e.problem.grammar.Regular) (hs : e.strategy = .depthFirst)
    {limit : Option Nat} (ho : e.Orderly pass.frontier) (hq : e.Sequential pass.frontier)
    (h : e.pull fuel limit pass = .ok (trees, last)) :
    ∀ t ∈ trees, ∀ u, e.Awaits last.frontier u → t.Before u := by
  induction fuel generalizing limit pass trees with
  | zero =>
      rcases pull_eq_ok h with ⟨-, rfl, -⟩ | ⟨steps, progress, he, -⟩
      · exact nofun
      · cases he
  | succ fuel ih =>
      rcases pull_eq_ok h with ⟨-, rfl, -⟩ | ⟨steps, progress, he, hstep, hrest⟩
      · exact nofun
      · obtain rfl : fuel = steps := by omega
        have hsequential := step_sequential hg hs ho hq hstep
        have hspec := step_spec hg ho hstep
        cases progress with
        | finished =>
            obtain ⟨rfl, -⟩ := hrest
            exact nofun
        | expanded next => exact ih hspec.1 hsequential hrest
        | yielded tree next =>
            obtain ⟨hnext, hbefore⟩ := hsequential
            obtain ⟨rest, rfl, hpull⟩ := hrest
            obtain ⟨-, -, -, hall⟩ := pull_spec hg hspec.1 hpull
            intro t ht u hu
            rcases List.mem_cons.mp ht with rfl | ht
            · exact hbefore u ((hall u).mpr (Or.inr hu))
            · exact ih hspec.1 hnext hpull t ht u hu

theorem pull_first (hg : e.problem.grammar.Regular) (hs : e.strategy = .depthFirst)
    {limit : Option Nat} (ho : e.Orderly pass.frontier) (hq : e.Sequential pass.frontier)
    (h : e.pull fuel limit pass = .ok (trees, last)) :
    ∀ before t after, trees = before ++ t :: after →
      ∀ u, e.Awaits pass.frontier u → u.Before t → u ∈ before := by
  rintro before t after rfl u hu hut
  obtain ⟨-, hlater, -⟩ := List.pairwise_append.mp (pull_ascends hg hs ho hq h)
  obtain ⟨-, -, -, hall⟩ := pull_spec hg ho h
  have hnot (htu : t.Before u) : u ∈ before := absurd rfl (htu.trans hut).ne
  rcases (hall u).mp hu with hin | hrest
  · rcases List.mem_append.mp hin with hin | hin
    · exact hin
    · rcases List.mem_cons.mp hin with rfl | hin
      · exact absurd rfl hut.ne
      · exact hnot ((List.pairwise_cons.mp hlater).1 u hin)
  · exact hnot (pull_before_rest hg hs ho hq h t (by simp) u hrest)

-- The trees that have been taken are the first ones of all solutions.
theorem trees_foremost (hg : e.problem.grammar.Reachable) {limit : Option Nat}
    (h : e.trees fuel limit = .ok (trees, last)) :
    Foremost (e.problem.Solution e.start) e.strategy.Earlier limit trees := by
  obtain ⟨pass, hpass, hpull⟩ := Except.bind_eq_ok.mp h
  obtain ⟨ho, hsolutions⟩ := firstPass_spec hg.regular hpass
  obtain ⟨hend, hnodup, -, hall⟩ := pull_spec hg.regular ho hpull
  have hwithin : ∀ n ∈ limit, trees.length ≤ n := by
    rintro n rfl
    exact (pull_within hpull).1
  have hfull : (∀ t, e.problem.Solution e.start t → t ∈ trees) ∨ limit = some trees.length := by
    have hnone (hempty : last.frontier = []) (t : Tree) (ht : e.problem.Solution e.start t) :
        t ∈ trees := by
      refine ((hall t).mp ((hsolutions t).mpr ht)).resolve_right ?_
      simp [Awaits, hempty]
    cases limit with
    | none => exact Or.inl (hnone (hend rfl))
    | some n => exact (pull_within hpull).2.symm.imp hnone fun hn => congrArg some hn.symm
  have hsound (t : Tree) (ht : t ∈ trees) : e.problem.Solution e.start t :=
    (hsolutions t).mp ((hall t).mpr (Or.inl ht))
  cases hs : e.strategy with
  | breadthFirst =>
      have hbest := pull_best_first hg.regular hs ho (firstPass_ranked hg.regular hs hpass) hpull
      refine ⟨hnodup, hsound, hbest.ascending.imp fun hst u _ htu => Nat.lt_of_le_of_lt hst htu,
        fun before t after he u hu => ?_, hwithin, hfull⟩
      exact hbest.smaller before t after he u ((hsolutions u).mpr hu)
  | depthFirst =>
      have hq := firstPass_sequential hpass
      have hascend := pull_ascends hg.regular hs ho hq hpull
      refine ⟨hnodup, hsound, hascend.imp fun hst u _ htu => Tree.Before.trans hst htu,
        fun before t after he u hu => ?_, hwithin, hfull⟩
      exact pull_first hg.regular hs ho hq hpull before t after he u ((hsolutions u).mpr hu)

end Order

end Enumerator

end TreeSearch
