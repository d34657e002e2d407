import TreeSearch.Proofs.Constraint.Renumbering
import TreeSearch.Proofs.Search.Prefixes

namespace TreeSearch

open TreeSearch.Tree

variable {g next : Grammar} {m : Renumbering} {t : Tree}

section Solutions

theorem Grammar.holds_renumberConstraints (hm : g.Renumbers next m) {cs new : List Constraint}
    (htame : ∀ c ∈ cs, c.Tame) (hroot : ∀ c ∈ cs, ∀ r, c ≠ .rootOnly r)
    (h : renumberConstraints m cs = .ok new) (ht : t.Survives m) :
    (∀ c ∈ new, c.Holds (t.renamed m.rename)) ↔ ∀ c ∈ cs, c.Holds t := by
  induction cs generalizing new with
  | nil =>
      obtain rfl : [] = new := by simpa [renumberConstraints] using h
      simp
  | cons c cs ih =>
      obtain ⟨found, hfound, h⟩ := Except.bind_eq_ok.mp h
      obtain ⟨rest, hrest, h⟩ := Except.bind_eq_ok.mp h
      obtain rfl : found.toList ++ rest = new := by simpa using h
      have hc := Constraint.holds_renamed hm (htame c List.mem_cons_self)
        (hroot c List.mem_cons_self) hfound ht
      have hcs := ih (fun d hd => htame d (List.mem_cons_of_mem c hd))
        (fun d hd => hroot d (List.mem_cons_of_mem c hd)) hrest
      rw [List.forall_mem_append, List.forall_mem_cons, hcs, hc]
      simp

theorem Bounds.admits_renamed (bounds : Bounds) (f : Int → Int) (t : Tree) :
    bounds.Admits (t.renamed f) ↔ bounds.Admits t := by
  simp only [Admits, depth_renamed, size_renamed]

variable {bounds : Bounds} {start : String}

-- The solutions are the same trees.
theorem Problem.solution_renamed (hg : g.Reachable) (hc : g.compact = .ok (next, m))
    (hroot : ∀ c ∈ g.constraints, ∀ r, c ≠ .rootOnly r) (ht : t.Survives m) :
    (Problem.of next bounds).Solution start (t.renamed m.rename) ↔
      (Problem.of g bounds).Solution start t := by
  have hm := hg.regular.renumbers hc
  obtain ⟨constraints, hconstraints, h⟩ := Except.bind_eq_ok.mp hc
  obtain ⟨rfl, rfl⟩ : { g with
      rules := g.liveRules.mapIdx fun new rule => { rule with index := new }
      constraints, version := g.version + 1 } = next ∧ g.renumbering = m := by
    simpa using h
  exact and_congr (hm.derives_renamed ht) (and_congr (bounds.admits_renamed _ t)
    (Grammar.holds_renumberConstraints hm hg.regular.tame hroot hconstraints ht))

end Solutions

section Order

-- Where two lists differ first.
theorem exists_first_difference {α : Type} {R : α → α → Prop} {l k : List α}
    (h : List.Forall₂ (fun x y => x = y ∨ R x y) l k) :
    l = k ∨ ∃ same x y xs ys, l = same ++ x :: xs ∧ k = same ++ y :: ys ∧ R x y := by
  induction h with
  | nil => exact Or.inl rfl
  | @cons x y xs ys hxy _ ih =>
      rcases hxy with rfl | hxy
      · rcases ih with rfl | ⟨same, x', y', xs', ys', rfl, rfl, h⟩
        · exact Or.inl rfl
        · exact Or.inr ⟨x :: same, x', y', xs', ys', rfl, rfl, h⟩
      · exact Or.inr ⟨[], x, y, xs, ys, rfl, rfl, hxy⟩

-- The canonical order tells complete trees of a grammar apart.
theorem Grammar.WellFormed.eq_or_before {expected : Option String} {s t : Tree}
    (hs : g.WellFormed expected s) (ht : g.WellFormed expected t) (hcs : s.Complete)
    (hct : t.Complete) : s = t ∨ s.Before t ∨ t.Before s := by
  induction hcs generalizing t expected with
  | @node r cs hbelow ih =>
      cases hct with
      | @node q ds hbelow' =>
          rcases lt_trichotomy r q with hlt | rfl | hlt
          · exact Or.inr (Or.inl (.root hlt))
          · obtain ⟨rule, hrule, -, -, hlen, hchild⟩ := wellFormed_node_iff.mp hs
            obtain ⟨rule', hrule', -, -, hlen', hchild'⟩ := wellFormed_node_iff.mp ht
            obtain rfl := Option.some.inj (hrule.symm.trans hrule')
            have hall : List.Forall₂ (fun c d => c = d ∨ c.Before d ∨ d.Before c) cs ds := by
              refine forall₂_iff_getElem?.mpr ⟨hlen.trans hlen'.symm, fun i c d hc hd => ?_⟩
              have hi : i < rule.children.length := hlen ▸ (List.getElem?_eq_some_iff.mp hc).1
              have hcategory := List.getElem?_eq_getElem hi
              exact ih c (List.mem_of_getElem? hc) (hchild i _ c hcategory hc)
                (hchild' i _ d hcategory hd) (hbelow' d (List.mem_of_getElem? hd))
            rcases exists_first_difference hall with rfl | ⟨same, c, d, cs', ds', rfl, rfl, h⟩
            · exact Or.inl rfl
            · exact Or.inr (h.imp .child .child)
          · exact Or.inr (Or.inr (.root hlt))

end Order

namespace Enumerator

section Agreement

-- Two parts of passes have the same trees, but for the choice and the order among trees of the
-- same size where the strategy leaves them open.
structure Agree (strategy : Strategy) (limit : Option Nat) (l k : List Tree) : Prop where
  sequence : strategy = .depthFirst → l = k
  sizes : l.map Tree.size = k.map Tree.size
  smaller : ∀ u ∈ l, ∀ t, t.size < u.size → (t ∈ l ↔ t ∈ k)
  all : limit = none → l.Perm k

variable {e : Enumerator} {limit : Option Nat} {l k : List Tree}

theorem agree_of_foremost (hl : Foremost (e.problem.Solution e.start) e.strategy.Earlier limit l)
    (hk : Foremost (e.problem.Solution e.start) e.strategy.Earlier limit k) :
    Agree e.strategy limit l k := by
  have hperm : limit = none → l.Perm k := by
    rintro rfl
    exact hl.perm hk
  cases hs : e.strategy with
  | depthFirst =>
      rw [hs] at hl hk
      obtain rfl := hl.eq_of_total hk fun s t hs ht => hs.1.1.eq_or_before ht.1.1 hs.1.2 ht.1.2
      exact ⟨fun _ => rfl, rfl, fun _ _ _ _ => Iff.rfl, hperm⟩
  | breadthFirst =>
      rw [hs] at hl hk
      have hsizes : l.map Tree.size = k.map Tree.size := by
        refine List.ext_getElem (by simpa using hl.length_eq hk) fun i hi hi' => ?_
        rw [List.length_map] at hi hi'
        have hs := List.getElem?_eq_getElem hi
        have ht := List.getElem?_eq_getElem hi'
        have hle := hk.not_less hl ht hs
        have hge := hl.not_less hk hs ht
        simp only [Strategy.Earlier] at hle hge
        simp only [List.getElem_map]
        omega
      refine ⟨nofun, hsizes, fun u hu t htu => ⟨fun ht => ?_, fun ht => ?_⟩, hperm⟩
      · obtain ⟨v, hv, hsize⟩ := List.mem_map.mp (hsizes ▸ List.mem_map_of_mem (f := Tree.size) hu)
        exact hk.mem hv (hl.sound t ht) (show t.size < v.size from hsize ▸ htu)
      · exact hl.mem hu (hk.sound t ht) htu

end Agreement

section Compaction

variable {bounds : Bounds} {start : String} {strategy : Strategy} {limit : Option Nat}

-- The trees of a pass, under new indices, are the first ones for the compacted grammar.
theorem foremost_renamed (hg : g.Reachable) (hc : g.compact = .ok (next, m))
    (hroot : ∀ c ∈ g.constraints, ∀ r, c ≠ .rootOnly r) {trees : List Tree}
    (h : Foremost ((Problem.of g bounds).Solution start) strategy.Earlier limit trees) :
    Foremost ((Problem.of next bounds).Solution start) strategy.Earlier limit
      (trees.map (Tree.renamed m.rename)) := by
  have hm := hg.regular.renumbers hc
  have hsurvives (t : Tree) (ht : (Problem.of g bounds).Solution start t) : t.Survives m :=
    hm.survives ht.1.1 ht.1.2
  refine h.map (fun t ht => (Problem.solution_renamed hg hc hroot (hsurvives t ht)).mpr ht)
    (fun u hu => ?_) (fun s t hs ht => Survives.renamed_inj hm (hsurvives s hs) (hsurvives t ht))
    fun s t hs ht => ?_
  · obtain ⟨t, ht, rfl⟩ := hm.exists_renamed hu.1.1 hu.1.2
    exact ⟨t, (Problem.solution_renamed hg hc hroot ht).mp hu, rfl⟩
  · cases strategy with
    | breadthFirst => simp only [Strategy.Earlier, size_renamed]
    | depthFirst =>
        exact ⟨Survives.before_of_renamed hm (hsurvives s hs) (hsurvives t ht),
          fun h => Survives.before_renamed hm h (hsurvives s hs) (hsurvives t ht)⟩

-- Whatever part of a pass is taken before and after a compaction, its trees are the same under
-- the new indices, up to the order among trees of one size in a breadth-first pass. With a depth
-- limit both come to their end, unless a table overflows.
theorem trees_compact (hg : g.Reachable) (hc : g.compact = .ok (next, m))
    (hroot : ∀ c ∈ g.constraints, ∀ r, c ≠ .rootOnly r) (bounds : Bounds) (start : String)
    (strategy : Strategy) (limit : Option Nat) :
    (∀ fuel fuel' before after pass pass',
      (⟨.of g bounds, start, strategy⟩ : Enumerator).trees fuel limit = .ok (before, pass) →
      (⟨.of next bounds, start, strategy⟩ : Enumerator).trees fuel' limit = .ok (after, pass') →
        Agree strategy limit (before.map (Tree.renamed m.rename)) after) ∧
      ∀ depth, bounds.maxDepth = some depth → start ∈ g.categories →
        ((Problem.of g bounds).Finishes fun fuel =>
          (⟨.of g bounds, start, strategy⟩ : Enumerator).trees fuel limit) ∧
        (Problem.of next bounds).Finishes fun fuel =>
          (⟨.of next bounds, start, strategy⟩ : Enumerator).trees fuel limit := by
  have hnext : next.Reachable := .compact hg hc
  constructor
  · intro fuel fuel' before after pass pass' hbefore hafter
    have hfirst : Foremost ((Problem.of g bounds).Solution start) strategy.Earlier limit before :=
      trees_foremost (e := ⟨.of g bounds, start, strategy⟩) hg hbefore
    exact agree_of_foremost (e := ⟨.of next bounds, start, strategy⟩)
      (foremost_renamed hg hc hroot hfirst) (trees_foremost hnext hafter)
  · intro depth hl hstart
    have hstart' : start ∈ next.categories := (hg.regular.renumbers hc).categories ▸ hstart
    exact ⟨trees_finish_within (e := ⟨.of g bounds, start, strategy⟩) hg.regular hl hstart limit,
      trees_finish_within (e := ⟨.of next bounds, start, strategy⟩) hnext.regular hl hstart' limit⟩

-- Two pairs and a term, at the root or one level below it, where two constraints ask for an even
-- pair. They differ only in rules for pairs that are going to be removed.
def evenPair (rules : List Nat) : Constraint :=
  .containsSubtree (.choice (.ofList rules) [.node 4 [.var "x"], .var "x", .var "x"])

def pairConstraints (first second : List Nat) : List Constraint :=
  [.forbidden (.node 0 [.var "p", .var "q", .node 5 []]),
    .forbidden (.node 0 [.var "p", .node 3 [.var "q", .node 7 [], .var "r"], .var "s"]),
    evenPair first,
    .forbidden (.node 0 [.var "p", .node 3 [.var "q", .var "r", .node 6 []], .var "s"]),
    evenPair second,
    .containsSubtree (.choice (.ofList [0, 2])
      [.var "p", .node 3 [.var "y", .var "q", .var "r"], .var "y"]),
    .forbidden (.node 2 [.var "p", .var "q", .node 5 []]),
    .forbidden (.node 2 [.node 3 [.var "q", .node 7 [], .var "r"], .var "p", .var "s"])]

def pairDraft : Draft :=
  ⟨["S", "N", "F", "Q", "X"],
    [⟨"S", ["N", "N", "F"], none, none⟩, ⟨"S", ["Q"], none, none⟩, ⟨"Q", ["N", "N", "F"], none, none⟩,
      ⟨"N", ["F", "X", "X"], none, none⟩, ⟨"F", ["X"], none, none⟩, ⟨"F", [], none, none⟩,
      ⟨"X", [], none, none⟩, ⟨"X", [], none, none⟩, ⟨"N", ["F", "X", "X"], none, none⟩,
      ⟨"N", ["F", "X", "X"], none, none⟩],
    pairConstraints [3, 8] [3, 9]⟩

def pairRules (productions : List Production) (removed : List Nat) : List Rule :=
  productions.mapIdx fun i p => ⟨i, p.category, p.children, p.weight, p.label, i ∈ removed⟩

def pairGrammar (removed : List Nat) (version : Nat) : Grammar :=
  ⟨pairRules pairDraft.productions removed, pairDraft.categories, pairDraft.constraints, version⟩

def pairCompact : Grammar :=
  ⟨pairRules (pairDraft.productions.take 8) [], pairDraft.categories, pairConstraints [3] [3], 26⟩

def pairNumbers : Renumbering :=
  [(0, 0), (1, 1), (2, 2), (3, 3), (4, 4), (5, 5), (6, 6), (7, 7)]

def pairBounds : Bounds := ⟨some 5, none, by decide, Bounds.none.one_le_size⟩

theorem reachable_pairs : (pairGrammar [8, 9] 25).Reachable := by
  have hbuild : pairDraft.build = .ok (pairGrammar [] 23) := by decide +kernel
  have hfirst : (pairGrammar [] 23).remove 8 = .ok (pairGrammar [8] 24) := by decide +kernel
  have hsecond : (pairGrammar [8] 24).remove 9 = .ok (pairGrammar [8, 9] 25) := by decide +kernel
  exact .remove (.remove (.build hbuild) hfirst) hsecond

def pairAtRoot : Tree :=
  .node 0 [.node 3 [.node 4 [.node 6 []], .node 6 [], .node 6 []],
    .node 3 [.node 4 [.node 6 []], .node 6 [], .node 7 []], .node 4 [.node 6 []]]

def pairBelow : Tree :=
  .node 1 [.node 2 [.node 3 [.node 5 [], .node 6 [], .node 6 []],
    .node 3 [.node 4 [.node 6 []], .node 6 [], .node 6 []], .node 4 [.node 6 []]]]

-- Under the new indices the two constraints are one and the same, and it does not get a second
-- turn in front of what stands behind the other one. The passes begin with different trees.
theorem trees_compact_pairs :
    (pairGrammar [8, 9] 25).compact = .ok (pairCompact, pairNumbers) ∧
    (∃ pass, (⟨.of (pairGrammar [8, 9] 25) pairBounds, "S", .breadthFirst⟩ : Enumerator).trees 60 (some 1) =
      .ok ([pairAtRoot], pass)) ∧
    (∃ pass, (⟨.of pairCompact pairBounds, "S", .breadthFirst⟩ : Enumerator).trees 60 (some 1) =
      .ok ([pairBelow], pass)) ∧
    pairAtRoot.renamed pairNumbers.rename ≠ pairBelow ∧
    Agree .breadthFirst (some 1) [pairAtRoot.renamed pairNumbers.rename] [pairBelow] := by
  have hc : (pairGrammar [8, 9] 25).compact = .ok (pairCompact, pairNumbers) := by decide +kernel
  have hbefore : Prod.fst <$> (⟨.of (pairGrammar [8, 9] 25) pairBounds, "S", .breadthFirst⟩ :
      Enumerator).trees 60 (some 1) = .ok [pairAtRoot] := by decide +kernel
  have hafter : Prod.fst <$> (⟨.of pairCompact pairBounds, "S", .breadthFirst⟩ : Enumerator).trees 60
      (some 1) = .ok [pairBelow] := by decide +kernel
  obtain ⟨⟨_, pass⟩, hbefore, rfl⟩ := Except.map_eq_ok.mp hbefore
  obtain ⟨⟨_, pass'⟩, hafter, rfl⟩ := Except.map_eq_ok.mp hafter
  have hroot : ∀ c ∈ (pairGrammar [8, 9] 25).constraints, ∀ r, c ≠ .rootOnly r := by
    simp [pairGrammar, pairDraft, pairConstraints, evenPair]
  obtain ⟨hagree, -⟩ := trees_compact reachable_pairs hc hroot pairBounds "S" .breadthFirst (some 1)
  exact ⟨hc, ⟨pass, hbefore⟩, ⟨pass', hafter⟩, by decide, hagree 60 60 _ _ pass pass' hbefore hafter⟩

end Compaction

end Enumerator

end TreeSearch
