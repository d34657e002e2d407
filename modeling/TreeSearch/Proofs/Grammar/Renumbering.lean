import TreeSearch.Proofs.Grammar.Trees
import TreeSearch.Proofs.Tree.Measures
import TreeSearch.Proofs.Tree.Order

namespace TreeSearch

variable {g next : Grammar} {m : Renumbering}

-- The live rules of one grammar are the rules of another one, in the same order.
structure Grammar.Renumbers (g next : Grammar) (m : Renumbering) : Prop where
  live : ∀ r rule, g.rule? r = some rule → rule.removed = false → ∃ s, m.new? r = some s
  rule : ∀ r s, m.new? r = some s → ∃ rule index, g.rule? r = some rule ∧ rule.removed = false ∧
    next.rule? s = some { rule with index }
  onto : ∀ s rule, next.rule? s = some rule → ∃ r, m.new? r = some s
  lt : ∀ r s r' s', m.new? r = some s → m.new? r' = some s' → (s < s' ↔ r < r')
  categories : next.categories = g.categories
  nonneg : ∀ p ∈ m, 0 ≤ p.2

-- The old index of a rule can be told from the new one when no two rules share it.
theorem Renumbering.exists_old (hinj : ∀ r r' s, m.new? r = some s → m.new? r' = some s → r = r') :
    ∃ old : Int → Int, ∀ r s, m.new? r = some s → old s = r := by
  classical
  refine ⟨fun s => if found : ∃ r, m.new? r = some s then found.choose else s, fun r s hr => ?_⟩
  have found : ∃ r, m.new? r = some s := ⟨r, hr⟩
  simp only [dif_pos found]
  exact hinj _ _ _ found.choose_spec hr

namespace Grammar

section Compaction

theorem Regular.rules_sorted (hg : g.Regular) : g.rules.Pairwise fun x y => x.index < y.index := by
  refine List.pairwise_iff_getElem.mpr fun i j hi hj hlt => ?_
  rw [hg.index i _ (List.getElem?_eq_getElem hi), hg.index j _ (List.getElem?_eq_getElem hj)]
  exact hlt

theorem Regular.liveRules_sorted (hg : g.Regular) : g.liveRules.Pairwise fun x y => x.index < y.index :=
  hg.rules_sorted.filter _

theorem Regular.lt_iff_index_lt (hg : g.Regular) {n k : Nat} {x y : Rule} (hx : g.liveRules[n]? = some x)
    (hy : g.liveRules[k]? = some y) : n < k ↔ x.index < y.index := by
  obtain ⟨hn, rfl⟩ := List.getElem?_eq_some_iff.mp hx
  obtain ⟨hk, rfl⟩ := List.getElem?_eq_some_iff.mp hy
  have hsorted := List.pairwise_iff_getElem.mp hg.liveRules_sorted
  rcases Nat.lt_trichotomy n k with hlt | rfl | hlt
  · exact iff_of_true hlt (hsorted n k hn hk hlt)
  · exact iff_of_false (Nat.lt_irrefl n) (Nat.lt_irrefl _)
  · exact iff_of_false (Nat.lt_asymm hlt) (Nat.lt_asymm (hsorted k n hk hn hlt))

-- The new index of a rule is its place among the live rules.
theorem Regular.new?_eq_some (hg : g.Regular) {r s : Int} : g.renumbering.new? r = some s ↔
    ∃ (n : Nat) (rule : Rule), s = n ∧ r = rule.index ∧ g.liveRules[n]? = some rule := by
  have hplace {r s : Int} (h : g.renumbering.new? r = some s) :
      ∃ (n : Nat) (rule : Rule), s = n ∧ r = rule.index ∧ g.liveRules[n]? = some rule := by
    obtain ⟨n, hn, he⟩ := List.mem_mapIdx.mp (Renumbering.mem_of_new? h)
    obtain ⟨rfl, rfl⟩ := Prod.mk.inj he
    exact ⟨n, _, rfl, rfl, List.getElem?_eq_getElem hn⟩
  refine ⟨hplace, ?_⟩
  rintro ⟨n, rule, rfl, rfl, hrule⟩
  have hin : ((rule.index : Int), (n : Int)) ∈ g.renumbering := by
    obtain ⟨hn, rfl⟩ := List.getElem?_eq_some_iff.mp hrule
    exact List.mem_mapIdx.mpr ⟨n, hn, rfl⟩
  obtain ⟨s, hs⟩ : ∃ s, g.renumbering.new? rule.index = some s := by
    refine Option.isSome_iff_exists.mp ?_
    unfold Renumbering.new?
    rw [Option.isSome_map, List.find?_isSome]
    exact ⟨_, List.mem_reverse.mpr hin, by simp⟩
  obtain ⟨k, other, rfl, he, hother⟩ := hplace hs
  have := hg.lt_iff_index_lt hrule hother
  have := hg.lt_iff_index_lt hother hrule
  obtain rfl : n = k := by omega
  exact hs

theorem Regular.renumbers (hg : g.Regular) (h : g.compact = .ok (next, m)) : g.Renumbers next m := by
  obtain ⟨rfl, constraints, -, rfl⟩ := compact_eq_ok.mp h
  have hlive {n : Nat} {rule : Rule} (h : g.liveRules[n]? = some rule) :
      g.rule? rule.index = some rule ∧ rule.removed = false := by
    obtain ⟨hin, hremoved⟩ := List.mem_filter.mp (List.mem_of_getElem? h)
    obtain ⟨i, hi⟩ := List.mem_iff_getElem?.mp hin
    refine ⟨?_, by simpa using hremoved⟩
    rw [rule?_natCast, hg.index i rule hi]
    exact hi
  refine ⟨fun r rule hrule hremoved => ?_, fun r s hnew => ?_, fun s rule hrule => ?_,
    fun r s r' s' hnew hnew' => ?_, rfl, fun p hp => ?_⟩
  · obtain ⟨i, rfl, hi⟩ := rule?_eq_some hrule
    obtain ⟨n, hn⟩ := List.mem_iff_getElem?.mp
      (List.mem_filter.mpr ⟨List.mem_of_getElem? hi, by simp [hremoved]⟩ : rule ∈ g.liveRules)
    exact ⟨n, hg.new?_eq_some.mpr ⟨n, rule, rfl, hg.rule?_index hrule, hn⟩⟩
  · obtain ⟨n, rule, rfl, rfl, hn⟩ := hg.new?_eq_some.mp hnew
    obtain ⟨hrule, hremoved⟩ := hlive hn
    refine ⟨rule, n, hrule, hremoved, ?_⟩
    rw [rule?_natCast, List.getElem?_mapIdx, hn]
    rfl
  · obtain ⟨n, rfl, hn⟩ := rule?_eq_some hrule
    rw [List.getElem?_mapIdx] at hn
    obtain ⟨old, hold, -⟩ := Option.map_eq_some_iff.mp hn
    exact ⟨old.index, hg.new?_eq_some.mpr ⟨n, old, rfl, rfl, hold⟩⟩
  · obtain ⟨n, rule, rfl, rfl, hn⟩ := hg.new?_eq_some.mp hnew
    obtain ⟨k, other, rfl, rfl, hk⟩ := hg.new?_eq_some.mp hnew'
    have := hg.lt_iff_index_lt hn hk
    omega
  · obtain ⟨n, -, rfl⟩ := List.mem_mapIdx.mp hp
    exact Int.natCast_nonneg n

end Compaction

namespace Renumbers

theorem inj (h : g.Renumbers next m) {r r' s : Int} (hr : m.new? r = some s) (hr' : m.new? r' = some s) :
    r = r' := by
  have := h.lt r s r' s hr hr'
  have := h.lt r' s r s hr' hr
  omega

theorem new_nonneg (h : g.Renumbers next m) {r s : Int} (hr : m.new? r = some s) : ∃ n : Nat, s = n := by
  obtain ⟨rule, index, -, -, hnext⟩ := h.rule r s hr
  obtain ⟨n, hn, -⟩ := rule?_eq_some hnext
  exact ⟨n, hn⟩

theorem exists_old (h : g.Renumbers next m) : ∃ old : Int → Int, ∀ r s, m.new? r = some s → old s = r :=
  Renumbering.exists_old fun _ _ _ => h.inj

end Renumbers

end Grammar

-- The new index of a rule. One that has none keeps its own.
def Renumbering.rename (m : Renumbering) (rule : Int) : Int := (m.new? rule).getD rule

theorem Renumbering.rename_eq {r s : Int} (h : m.new? r = some s) : m.rename r = s := by
  rw [rename, h, Option.getD_some]

namespace Tree

mutual

-- A complete tree with another index for each rule.
def renamed (f : Int → Int) : Tree → Tree
  | .node r cs => .node (f r) (renamedAll f cs)
  | t => t

def renamedAll (f : Int → Int) : List Tree → List Tree
  | [] => []
  | c :: cs => renamed f c :: renamedAll f cs

end

section Shape

variable {f : Int → Int} {t : Tree}

theorem renamedAll_eq (f : Int → Int) (cs : List Tree) : renamedAll f cs = cs.map (renamed f) := by
  induction cs with
  | nil => rfl
  | cons c cs ih => rw [renamedAll, ih, List.map_cons]

theorem renamed_node (f : Int → Int) (r : Int) (cs : List Tree) :
    (node r cs).renamed f = node (f r) (cs.map (renamed f)) := by
  rw [renamed, renamedAll_eq]

theorem get?_renamed (f : Int → Int) (t : Tree) (path : Path) :
    (t.renamed f).get? path = (t.get? path).map (renamed f) := by
  induction path generalizing t with
  | nil => simp
  | cons i path ih =>
      rw [get?_cons, get?_cons]
      cases t with
      | node r cs =>
          rw [renamed_node]
          unfold child?
          split
          · simp only [children, List.getElem?_map]
            cases cs[i.toNat]? with
            | none => rfl
            | some c => exact ih c
          · rfl
      | hole => simp [renamed]
      | choice => simp [renamed, child?, children]
      | var => simp [renamed, child?, children]

theorem size_renamed (f : Int → Int) (t : Tree) : (t.renamed f).size = t.size := by
  induction t using Tree.induction with
  | node r cs ih =>
      rw [renamed_node, size_node, size_node, List.map_map]
      congr 2
      exact List.map_congr_left fun c hc => ih c hc
  | hole => rfl
  | choice => rfl
  | var => rfl

theorem depth_renamed (f : Int → Int) (t : Tree) : (t.renamed f).depth = t.depth := by
  have hbelow (cs : List Tree) (ih : ∀ c ∈ cs, (c.renamed f).depth = c.depth) :
      depthBelow (cs.map (renamed f)) = depthBelow cs := by
    induction cs with
    | nil => rfl
    | cons c cs ihc =>
        rw [List.map_cons, depthBelow, depthBelow, ih c List.mem_cons_self,
          ihc fun d hd => ih d (List.mem_cons_of_mem c hd)]
  induction t using Tree.induction with
  | node r cs ih => rw [renamed_node, depth, depth, hbelow cs ih]
  | hole => rfl
  | choice => rfl
  | var => rfl

end Shape

-- A complete tree whose rules all have new indices.
inductive Survives (m : Renumbering) : Tree → Prop
  | node {r s : Int} {cs : List Tree} (new : m.new? r = some s) (below : ∀ c ∈ cs, Survives m c) :
      Survives m (.node r cs)

namespace Survives

variable {s t : Tree}

theorem complete (h : t.Survives m) : t.Complete := by
  induction t using Tree.induction with
  | node r cs ih =>
      cases h with
      | node _ below => exact .node fun c hc => ih c hc (below c hc)
  | hole => cases h
  | choice => cases h
  | var => cases h

theorem get? (h : t.Survives m) {path : Path} (hs : t.get? path = some s) : s.Survives m := by
  induction path generalizing t with
  | nil =>
      obtain rfl : t = s := by simpa using hs
      exact h
  | cons i path ih =>
      rw [get?_cons] at hs
      obtain ⟨c, hi, hc⟩ := Option.bind_eq_some_iff.mp hs
      obtain ⟨n, rfl, hn⟩ := child?_eq_some.mp hi
      cases h with
      | node _ below => exact ih (below c (List.mem_of_getElem? hn)) hc

theorem complete_renamed (h : t.Survives m) (f : Int → Int) : (t.renamed f).Complete := by
  induction t using Tree.induction with
  | node r cs ih =>
      cases h with
      | node _ below =>
          rw [renamed_node]
          refine .node fun c hc => ?_
          obtain ⟨d, hd, rfl⟩ := List.mem_map.mp hc
          exact ih d hd (below d hd)
  | hole => cases h
  | choice => cases h
  | var => cases h

-- Old indices can be put back.
theorem renamed_back (h : t.Survives m) {old : Int → Int} (hold : ∀ r s, m.new? r = some s → old s = r) :
    (t.renamed m.rename).renamed old = t := by
  induction t using Tree.induction with
  | node r cs ih =>
      cases h with
      | node new below =>
          rw [renamed_node, renamed_node, m.rename_eq new, hold _ _ new, List.map_map]
          congr 1
          exact (List.map_congr_left fun c hc => ih c hc (below c hc)).trans (List.map_id' cs)
  | hole => cases h
  | choice => cases h
  | var => cases h

theorem map_renamed_back {cs : List Tree} {old : Int → Int} (hold : ∀ r s, m.new? r = some s → old s = r)
    (h : ∀ c ∈ cs, c.Survives m) : (cs.map (renamed m.rename)).map (renamed old) = cs := by
  rw [List.map_map]
  exact (List.map_congr_left fun c hc => (h c hc).renamed_back hold).trans (List.map_id' cs)

theorem renamed_inj (hm : g.Renumbers next m) (hs : s.Survives m) (ht : t.Survives m)
    (he : s.renamed m.rename = t.renamed m.rename) : s = t := by
  obtain ⟨old, hold⟩ := hm.exists_old
  rw [← hs.renamed_back hold, he, ht.renamed_back hold]

theorem before_renamed (hm : g.Renumbers next m) (h : Before s t) (hs : s.Survives m) (ht : t.Survives m) :
    Before (s.renamed m.rename) (t.renamed m.rename) := by
  induction h with
  | root lt =>
      cases hs with
      | node new _ =>
          cases ht with
          | node new' _ =>
              rw [renamed_node, renamed_node, m.rename_eq new, m.rename_eq new']
              exact .root ((hm.lt _ _ _ _ new new').mpr lt)
  | child _ ih =>
      cases hs with
      | node _ below =>
          cases ht with
          | node _ below' =>
              simp only [renamed_node, List.map_append, List.map_cons]
              exact .child (ih (below _ (by simp)) (below' _ (by simp)))

theorem before_of_renamed (hm : g.Renumbers next m) (hs : s.Survives m) (ht : t.Survives m)
    (h : Before (s.renamed m.rename) (t.renamed m.rename)) : Before s t := by
  induction s using Tree.induction generalizing t with
  | node r cs ih =>
      cases hs with
      | node new below =>
          cases ht with
          | @node q _ ds new' below' =>
              rw [renamed_node, renamed_node, m.rename_eq new, m.rename_eq new'] at h
              generalize hcs : cs.map (renamed m.rename) = cs' at h
              generalize hds : ds.map (renamed m.rename) = ds' at h
              cases h with
              | root lt => exact .root ((hm.lt _ _ _ _ new new').mp lt)
              | child lt =>
                  obtain rfl := hm.inj new new'
                  obtain ⟨same, _, rfl, hsame, hcs⟩ := List.map_eq_append_iff.mp hcs
                  obtain ⟨c, cs, rfl, rfl, rfl⟩ := List.map_eq_cons_iff.mp hcs
                  obtain ⟨same', _, rfl, hsame', hds⟩ := List.map_eq_append_iff.mp hds
                  obtain ⟨d, ds, rfl, rfl, rfl⟩ := List.map_eq_cons_iff.mp hds
                  obtain rfl : same = same' := by
                    obtain ⟨old, hold⟩ := hm.exists_old
                    rw [← map_renamed_back hold fun c hc => below c (List.mem_append_left _ hc), hsame, ← hsame',
                      map_renamed_back hold fun d hd => below' d (List.mem_append_left _ hd)]
                  exact .child (ih c (by simp) (below c (by simp)) (below' d (by simp)) lt)
  | hole => cases hs
  | choice => cases hs
  | var => cases hs

end Survives

end Tree

namespace Grammar.Renumbers

open TreeSearch.Tree

variable {expected : Option String} {t u : Tree}

theorem survives (h : g.Renumbers next m) (hw : g.WellFormed expected t) (hc : t.Complete) :
    t.Survives m := by
  induction t using Tree.induction generalizing expected with
  | node r cs ih =>
      obtain ⟨rule, hrule, hlive, -⟩ := wellFormed_node_iff.mp hw
      obtain ⟨s, hs⟩ := h.live r rule hrule hlive
      refine .node hs fun c hin => ?_
      obtain ⟨n, hn⟩ := List.mem_iff_getElem?.mp hin
      obtain ⟨category, hchild⟩ := hw.child hn
      cases hc with
      | node below => exact ih c hin hchild (below c hin)
  | hole => cases hc
  | choice => cases hc
  | var => cases hc

theorem wellFormed_renamed (h : g.Renumbers next m) (ht : t.Survives m) :
    next.WellFormed expected (t.renamed m.rename) ↔ g.WellFormed expected t := by
  induction t using Tree.induction generalizing expected with
  | node r cs ih =>
      cases ht with
      | node new below =>
          obtain ⟨rule, index, hrule, hlive, hnext⟩ := h.rule _ _ new
          rw [renamed_node, m.rename_eq new, wellFormed_node_iff, wellFormed_node_iff]
          simp only [hnext, hrule, Option.some.injEq, exists_eq_left', List.length_map, List.getElem?_map]
          refine and_congr_right fun _ => and_congr_right fun _ => and_congr_right fun _ => ?_
          refine forall₂_congr fun k category => ⟨fun hb c hcat hc => ?_, fun hb c hcat hc => ?_⟩
          · have hin := List.mem_of_getElem? hc
            exact (ih c hin (below c hin)).mp (hb _ hcat (by rw [hc]; rfl))
          · obtain ⟨d, hd, rfl⟩ := Option.map_eq_some_iff.mp hc
            have hin := List.mem_of_getElem? hd
            exact (ih d hin (below d hin)).mpr (hb d hcat hd)
  | hole => cases ht
  | choice => cases ht
  | var => cases ht

-- There are no other trees.
theorem exists_renamed (h : g.Renumbers next m) (hw : next.WellFormed expected u) (hc : u.Complete) :
    ∃ t : Tree, t.Survives m ∧ t.renamed m.rename = u := by
  induction u using Tree.induction generalizing expected with
  | node s ds ih =>
      obtain ⟨rule, hrule, -⟩ := wellFormed_node_iff.mp hw
      obtain ⟨r, hr⟩ := h.onto s rule hrule
      have hbelow : ∀ d ∈ ds, ∃ c : Tree, c.Survives m ∧ c.renamed m.rename = d := by
        intro d hin
        obtain ⟨n, hn⟩ := List.mem_iff_getElem?.mp hin
        obtain ⟨category, hchild⟩ := hw.child hn
        cases hc with
        | node below => exact ih d hin hchild (below d hin)
      choose! old hsurvives hrenamed using hbelow
      refine ⟨node r (ds.map old), .node hr (by simpa using hsurvives), ?_⟩
      rw [renamed_node, m.rename_eq hr, List.map_map]
      congr 1
      exact (List.map_congr_left hrenamed).trans (List.map_id' ds)
  | hole => cases hc
  | choice => cases hc
  | var => cases hc

theorem derives_renamed (h : g.Renumbers next m) {category : String} (ht : t.Survives m) :
    next.Derives category (t.renamed m.rename) ↔ g.Derives category t :=
  and_congr (h.wellFormed_renamed ht) (iff_of_true (ht.complete_renamed _) ht.complete)

end Grammar.Renumbers

end TreeSearch
