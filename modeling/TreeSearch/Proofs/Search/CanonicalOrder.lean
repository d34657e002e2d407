import TreeSearch.Proofs.Search.Exactness
import TreeSearch.Proofs.Tree.Order

namespace TreeSearch

namespace Tree

-- The hole at a path is the first one: there are none on the left of the path.
inductive Leftmost : Tree → Path → Prop
  | here {category : String} {d : Domain} : Leftmost (.hole category d) []
  | child {r : Int} {cs : List Tree} {n : Nat} {c : Tree} {path : Path} (found : cs[n]? = some c)
      (decided : ∀ (i : Nat) (s : Tree), i < n → cs[i]? = some s →
        ∀ (q : Path) (category : String) (d : Domain), s.get? q ≠ some (.hole category d))
      (rest : Leftmost c path) : Leftmost (.node r cs) ((n : Int) :: path)

theorem no_hole_of_filterMap_eq_nil {t : Tree} {base : Path}
    (h : (t.positions base).filterMap holeAt? = []) (q : Path) (category : String) (d : Domain) :
    t.get? q ≠ some (.hole category d) := by
  intro hq
  have hin := (mem_positions t base (base ++ q) (.hole category d)).mpr ⟨q, rfl, hq⟩
  have hnone := List.filterMap_eq_nil_iff.mp h _ hin
  cases hnone

-- The first hole below a node is the first one of the first child that has any.
theorem leftmost_below (children : List Tree)
    (ih : ∀ c ∈ children, ∀ (base : Path) (first : Path × String × Domain) rest,
      (c.positions base).filterMap holeAt? = first :: rest →
        ∃ path, first.1 = base ++ path ∧ Leftmost c path)
    (base : Path) (index : Nat) (first : Path × String × Domain) (rest)
    (h : (positionsBelow base index children).filterMap holeAt? = first :: rest) :
    ∃ (n : Nat) (c : Tree) (path : Path), children[n]? = some c ∧
      first.1 = base ++ ((index + n : Nat) : Int) :: path ∧ Leftmost c path ∧
        ∀ (i : Nat) (s : Tree), i < n → children[i]? = some s →
          ∀ (q : Path) (category : String) (d : Domain), s.get? q ≠ some (.hole category d) := by
  induction children generalizing index with
  | nil => simp [positionsBelow] at h
  | cons c children ihc =>
      rw [positionsBelow, List.filterMap_append] at h
      cases hc : (c.positions (base ++ [(index : Int)])).filterMap holeAt? with
      | nil =>
          rw [hc, List.nil_append] at h
          obtain ⟨n, d, path, hd, he, hleft, hbefore⟩ :=
            ihc (fun d hd => ih d (List.mem_cons_of_mem c hd)) (index + 1) h
          refine ⟨n + 1, d, path, by simpa using hd, ?_, hleft, fun i s hi hs => ?_⟩
          · rw [he, show index + 1 + n = index + (n + 1) by omega]
          · cases i with
            | zero =>
                obtain rfl : c = s := by simpa using hs
                exact no_hole_of_filterMap_eq_nil hc
            | succ i => exact hbefore i s (by omega) (by simpa using hs)
      | cons hole holes =>
          rw [hc] at h
          obtain ⟨rfl, -⟩ := List.cons.inj h
          obtain ⟨path, he, hleft⟩ := ih c List.mem_cons_self _ hole holes hc
          exact ⟨0, c, path, by simp, by simp [he], hleft, fun i s hi => absurd hi (Nat.not_lt_zero i)⟩

theorem leftmost_of_positions (t : Tree) (base : Path) (first : Path × String × Domain) (rest)
    (h : (t.positions base).filterMap holeAt? = first :: rest) :
    ∃ path, first.1 = base ++ path ∧ Leftmost t path := by
  induction t using Tree.induction generalizing base first rest with
  | node r cs ih =>
      rw [positions, List.filterMap_cons_none rfl] at h
      obtain ⟨n, c, path, hc, he, hleft, hbefore⟩ := leftmost_below cs ih base 0 first rest h
      exact ⟨(n : Int) :: path, by simpa using he, .child hc hbefore hleft⟩
  | hole category d =>
      rw [positions] at h
      cases h
      exact ⟨[], by simp, .here⟩
  | choice =>
      rw [positions] at h
      cases h
  | var =>
      rw [positions] at h
      cases h

theorem leftmost_of_firstHole? {t : Tree} {path : Path} (h : t.firstHole? = some path) :
    t.Leftmost path := by
  unfold firstHole? at h
  obtain ⟨first, hfirst, rfl⟩ := Option.map_eq_some_iff.mp h
  obtain ⟨rest, hholes⟩ := List.head?_eq_some_iff.mp hfirst
  obtain ⟨path, he, hleft⟩ := leftmost_of_positions t [] first rest (t.holes_eq ▸ hholes)
  rw [he]
  exact hleft

-- The rule at the first hole decides the order of the trees that an unfinished one can become.
theorem Leftmost.before {p : Problem} {expected : Option String} {s t u : Tree} {path : Path}
    (h : t.Leftmost path) (hw : p.grammar.WellFormed expected t) (hs : p.Completes s t)
    (hu : p.Completes u t) {r q : Int} (hrq : r < q) {cs ds : List Tree}
    (hr : s.get? path = some (.node r cs)) (hq : u.get? path = some (.node q ds)) : Before s u := by
  induction h generalizing expected s u with
  | here =>
      obtain rfl : s = .node r cs := by simpa using hr
      obtain rfl : u = .node q ds := by simpa using hq
      exact .root hrq
  | @child rule parts n c path found decided _ ih =>
      obtain ⟨es, rfl, hes, hbelow⟩ := hs.node
      obtain ⟨fs, rfl, hfs, hbelow'⟩ := hu.node
      have hn : n < parts.length := (List.getElem?_eq_some_iff.mp found).1
      have he : es[n]? = some es[n] := List.getElem?_eq_getElem (hes ▸ hn)
      have hf : fs[n]? = some fs[n] := List.getElem?_eq_getElem (hfs ▸ hn)
      have hsame : ∀ i < n, es[i]? = fs[i]? := by
        intro i hi
        have hpart : parts[i]? = some parts[i] := List.getElem?_eq_getElem (by omega)
        have hei : es[i]? = some es[i] := List.getElem?_eq_getElem (by omega)
        have hfi : fs[i]? = some fs[i] := List.getElem?_eq_getElem (by omega)
        obtain ⟨category, hchild⟩ := hw.child hpart
        have hcomplete := hchild.complete (decided i _ hi hpart)
        rw [hei, hfi, hcomplete.eq_of_refines (hbelow i _ _ hei hpart).refines,
          hcomplete.eq_of_refines (hbelow' i _ _ hfi hpart).refines]
      obtain ⟨category, hchild⟩ := hw.child found
      refine before_of_child hsame he hf (ih hchild (hbelow n _ c he found) (hbelow' n _ c hf found) ?_ ?_)
      · simpa [get?_cons, he] using hr
      · simpa [get?_cons, hf] using hq

end Tree

namespace Enumerator

variable (e : Enumerator)

-- All trees of the first branch come before those of the second one.
def Precedes (x y : Branch) : Prop :=
  ∀ s u, e.problem.Admissible x s → e.problem.Admissible y u → s.Before u

-- The branches of a frontier wait in the order of their trees.
def Sequential (frontier : Frontier) : Prop :=
  frontier.Pairwise fun x y => e.Precedes x.branch y.branch

variable {e} {fuel : Nat} {frontier : Frontier} {pass next last : Pass} {b : Branch}

section Frontiers

-- Branches in order that share out the trees of the first one take its place.
theorem Sequential.replace {entry : Waiting} {children : List Branch} {entries : Frontier}
    (h : e.Sequential (entry :: frontier)) (hentries : children.mapM e.waiting = .ok entries)
    (hchildren : children.Pairwise e.Precedes)
    (hshare : ∀ t, (∃ c ∈ children, e.problem.Admissible c t) ↔ e.problem.Admissible entry.branch t) :
    e.Sequential (entries ++ frontier) := by
  obtain ⟨hentry, hrest⟩ := List.pairwise_cons.mp h
  refine List.pairwise_append.mpr ⟨?_, hrest, fun x hx y hy s u hs hu => ?_⟩
  · rw [← branches_of_waiting hentries] at hchildren
    exact List.pairwise_map.mp hchildren
  · exact hentry y hy s u ((hshare s).mp ⟨x.branch, mem_of_waiting hentries hx, hs⟩) hu

end Frontiers

section Steps

-- The branches for the rules of the first hole come one after the other.
theorem expand_precedes (hg : e.problem.grammar.Regular) (hs : e.strategy = .depthFirst)
    (hb : b.Settled e.problem) (hc : b.isComplete = false) {outcomes : List (Option Branch)}
    (h : e.expand fuel b = .ok outcomes) : (outcomes.filterMap id).Pairwise e.Precedes := by
  obtain ⟨path, category, d, hhole, hget, hexpand⟩ := e.exists_expand_eq hc
  rw [hexpand] at h
  rw [hs] at hhole
  have hleft := Tree.leftmost_of_firstHole? hhole
  have hwell := hb.ready.sound.wellFormed
  have htried : List.Forall₂ (fun (rule : Nat) found => ∀ c ∈ found, ∀ t, e.problem.Admissible c t →
      e.problem.Completes t b.tree ∧ ∃ cs, t.get? path = some (.node rule cs)) d.rules outcomes := by
    refine (Except.mapM_eq_ok.mp h).imp fun rule found hf c hc t ht => ?_
    obtain ⟨hbt, hnode⟩ := ((tryRule_spec hg hb hget hf).2 t).mp ⟨c, hc, ht⟩
    obtain ⟨hsolves, hcovers⟩ := Problem.admissible_iff.mp hbt
    exact ⟨hsolves.completes hcovers, hnode⟩
  refine pairwise_of_rules d.rules_sorted htried fun rule other c d hlt hc hd s u hcs hdu => ?_
  obtain ⟨hs, cs, hcs⟩ := hc s hcs
  obtain ⟨hu, ds, hds⟩ := hd u hdu
  exact hleft.before hwell hs hu (Int.ofNat_lt.mpr hlt) hcs hds

-- A step keeps the order of the frontier, and it yields the first tree still to come.
theorem step_sequential (hg : e.problem.grammar.Regular) (hs : e.strategy = .depthFirst)
    {progress : Progress} (ho : e.Orderly pass.frontier) (hq : e.Sequential pass.frontier)
    (h : e.step fuel pass = .ok progress) :
    match progress with
    | .finished => True
    | .yielded tree next => e.Sequential next.frontier ∧
        ∀ u, e.Awaits next.frontier u → tree.Before u
    | .expanded next => e.Sequential next.frontier := by
  have hstep := step_eq_ok h
  cases progress with
  | finished => trivial
  | yielded tree next =>
      obtain ⟨entry, hf, hc, rfl⟩ := hstep
      rw [hf] at ho hq
      obtain ⟨hentry, hrest⟩ := List.pairwise_cons.mp hq
      have htree : e.problem.Admissible entry.branch entry.branch.tree :=
        ((ho.settled entry List.mem_cons_self).admissible_iff_eq hc).mpr rfl
      exact ⟨hrest, fun u ⟨other, hin, hu⟩ => hentry other hin _ u htree hu⟩
  | expanded next =>
      obtain ⟨entry, rest, outcomes, entries, hf, hc, hexpand, hentries, hnext⟩ := hstep
      rw [hf] at ho hq
      have hentry := ho.settled entry List.mem_cons_self
      obtain ⟨-, -, hshare⟩ := expand_spec hg hentry hc hexpand
      show e.Sequential next.frontier
      rw [hnext, hs]
      exact hq.replace hentries (expand_precedes hg hs hentry hc hexpand) hshare

end Steps

section Runs

theorem pull_ascends (hg : e.problem.grammar.Regular) (hs : e.strategy = .depthFirst)
    {limit : Option Nat} {trees : List Tree} (ho : e.Orderly pass.frontier)
    (hq : e.Sequential pass.frontier) (h : e.pull fuel limit pass = .ok (trees, last)) :
    trees.Pairwise Tree.Before := by
  induction fuel generalizing limit pass trees with
  | zero =>
      rcases pull_eq_ok h with ⟨-, rfl, -⟩ | ⟨steps, progress, he, -⟩
      · exact .nil
      · cases he
  | succ fuel ih =>
      rcases pull_eq_ok h with ⟨-, rfl, -⟩ | ⟨steps, progress, he, hstep, hrest⟩
      · exact .nil
      · obtain rfl : fuel = steps := by omega
        have hsequential := step_sequential hg hs ho hq hstep
        have hspec := step_spec hg ho hstep
        cases progress with
        | finished =>
            obtain ⟨rfl, -⟩ := hrest
            exact .nil
        | expanded next => exact ih hspec.1 hsequential hrest
        | yielded tree next =>
            obtain ⟨hnext, hbefore⟩ := hsequential
            obtain ⟨rest, rfl, hpull⟩ := hrest
            obtain ⟨-, -, -, hall⟩ := pull_spec hg hspec.1 hpull
            refine List.pairwise_cons.mpr ⟨fun u hu => ?_, ih hspec.1 hnext hpull⟩
            exact hbefore u ((hall u).mpr (Or.inl hu))

theorem firstPass_sequential (h : e.firstPass fuel = .ok pass) : e.Sequential pass.frontier := by
  obtain ⟨found, -, hentries, -⟩ := firstPass_eq_ok h
  exact pairwise_of_waiting _ hentries

-- Whatever part of a depth-first pass is taken, its trees come in the canonical order, each one
-- strictly behind the last, and so none of them comes twice.
theorem trees_ascend (hg : e.problem.grammar.Reachable) (hs : e.strategy = .depthFirst)
    (limit : Option Nat) {trees : List Tree} (h : e.trees fuel limit = .ok (trees, pass)) :
    trees.Pairwise Tree.Before ∧ trees.Nodup := by
  obtain ⟨first, hfirst, hpull⟩ := Except.bind_eq_ok.mp h
  obtain ⟨ho, -⟩ := firstPass_spec hg.regular hfirst
  have hascend := pull_ascends hg.regular hs ho (firstPass_sequential hfirst) hpull
  exact ⟨hascend, hascend.imp Tree.Before.ne⟩

theorem trees_ascend_chains :
    (∃ pass, (chains .depthFirst).trees 8 (some 3) =
      .ok ([.node 0 [], .node 1 [.node 0 []], .node 1 [.node 1 [.node 0 []]]], pass)) ∧
      [Tree.node 0 [], .node 1 [.node 0 []], .node 1 [.node 1 [.node 0 []]]].Pairwise Tree.Before := by
  have hrun : Prod.fst <$> (chains .depthFirst).trees 8 (some 3) =
      .ok [.node 0 [], .node 1 [.node 0 []], .node 1 [.node 1 [.node 0 []]]] := by
    decide +kernel
  obtain ⟨⟨_, pass⟩, hpass, rfl⟩ := Except.map_eq_ok.mp hrun
  obtain ⟨hascend, -⟩ := trees_ascend (.clearConstraints Grammar.reachable_endless) rfl (some 3) hpass
  exact ⟨⟨pass, hpass⟩, hascend⟩

end Runs

end Enumerator

end TreeSearch
