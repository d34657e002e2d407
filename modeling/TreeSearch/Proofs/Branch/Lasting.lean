import TreeSearch.Proofs.Branch.Finality
import TreeSearch.Proofs.Grammar.Categories

namespace TreeSearch

variable {p : Problem} {a b : Branch} {root : Tree}

section Keeping

variable {I : Tree → Prop}

-- A property of trees that lasts as long as every edit keeps it.
def Branch.keeping (p : Problem) (I : Tree → Prop)
    (hedit : ∀ {path : Path} {old new t u : Tree}, Edit p path old new →
      Tree.Replaced old new path t u → I t → I u) : Discipline p Unit where
  sound b := p.grammar.WellFormed none b.tree ∧ I b.tree
  admits _ _ := True
  leads _ b c := c.tree.Refines b.tree
  halts _ _ c := p.grammar.WellFormed none c.tree ∧ I c.tree
  wellFormed h := h.1
  refl _ b := .refl b.tree
  trans h h' := h'.trans h
  halt h := h
  halt_trans _ h := h
  refines h := h
  admitted _ _ := trivial
  change hb h := by
    refine ⟨⟨h.wellFormed hb.1, ?_⟩, h.lasts.refines⟩
    cases h with
    | edit unifying statistics feasible change replaced =>
        rw [Branch.notify_tree]
        exact hedit change replaced hb.2
    | _ => exact hb.2

variable {hedit : ∀ {path : Path} {old new t u : Tree}, Edit p path old new →
  Tree.Replaced old new path t u → I t → I u}

variable (hedit)

theorem Branch.keeping_welcomes : (Branch.keeping p I hedit).Welcomes where
  admits _ _ := trivial
  posted _ _ _ _ hb := ⟨hb, .refl _⟩
  popped _ _ hb := ⟨hb, .refl _⟩

variable (hg : p.grammar.Regular)

include hedit hg

-- What edits keep holds from the start on, if it holds of the first tree.
theorem Branch.start_keeps {fuel : Nat} (start : Branch.start p fuel root = .ok a) (hroot : I root) :
    p.grammar.WellFormed none a.tree ∧ I a.tree := by
  obtain ⟨hcheck, hshown⟩ := Branch.start_eq_ok.mp start
  have hw := (Grammar.check_ofTree hg _).mp hcheck
  exact ((Branch.keeping_welcomes hedit).start (i := ()) hg fuel ⟨hw, hroot⟩).ok hshown |>.1

-- Neither commands nor faults end it.
theorem Branch.Ran.keeps {commands : List Command} (h : a.Ran p commands b)
    (ha : p.grammar.WellFormed none a.tree ∧ I a.tree) : p.grammar.WellFormed none b.tree ∧ I b.tree := by
  have hmade (fuel : Nat) (command : Command) {c : Branch}
      (hc : p.grammar.WellFormed none c.tree ∧ I c.tree) : (command.work p fuel).Meets c
        (fun _ d => p.grammar.WellFormed none d.tree ∧ I d.tree)
        fun _ d => p.grammar.WellFormed none d.tree ∧ I d.tree := by
    by_cases hplain : ∀ w, command ≠ .schedule w
    · exact ((Branch.keeping_welcomes hedit).command (i := ()) hg fuel command hplain hc).mono
        (fun _ _ hd => hd.1) fun _ _ hd => hd
    · obtain ⟨w, rfl⟩ : ∃ w, command = .schedule w := by simpa using hplain
      have hsame : (c.schedule w).tree = c.tree := by
        unfold Branch.schedule
        split <;> rfl
      show p.grammar.WellFormed none (c.schedule w).tree ∧ I (c.schedule w).tree
      rwa [hsame]
  induction h with
  | refl => exact ha
  | fork _ ih => exact ih
  | command command _ done ih => exact (hmade _ command ih).ok done
  | halt command _ halted ih => exact (hmade _ command ih).error halted

end Keeping

namespace Branch

-- Whatever is asked of a branch and of its copies, and however it ends, the tree passes the check for
-- the category of the first tree, a node has the children that its rule asks for, and an open position
-- has rules, all of them live rules of the category that the position requires.
theorem Ran.respects_grammar (hg : p.grammar.Reachable) {fuel : Nat} {commands : List Command}
    (rules : ∀ x ∈ root.holes, x.2.2.isEmpty = false) (start : Branch.start p fuel root = .ok a)
    (h : a.Ran p commands b) :
    ∃ category, p.grammar.categoryOf root = some category ∧
      (∀ steps, p.grammar.check steps (some category) (.ofTree b.tree) = .ok ()) ∧
      (∀ path r cs, b.tree.get? path = some (.node r cs) →
        ∃ rule, p.grammar.rule? r = some rule ∧ rule.removed = false ∧ cs.length = rule.arity) ∧
      ∀ path own d, b.tree.get? path = some (.hole own d) → d.isEmpty = false ∧
        p.grammar.required category b.tree path = some own ∧
        ∃ allowed, p.grammar.domainFor own = .ok allowed ∧ ∀ r ∈ d, r ∈ allowed := by
  let I (t : Tree) : Prop :=
    (∀ path category d, t.get? path = some (.hole category d) → d.isEmpty = false) ∧ t.Refines root
  have hedit {path : Path} {old new t u : Tree} (change : Edit p path old new)
      (replaced : Tree.Replaced old new path t u) (ht : I t) : I u :=
    ⟨fun q category d hs => (change.hole_of_replaced replaced hs).elim (ht.1 q category d) id,
      (replaced.refines change.refines).trans ht.2⟩
  have hroot := (Grammar.check_ofTree hg.regular _).mp (start_eq_ok.mp start).1
  have hfirst : I root := ⟨fun path category d hs => rules _ ((Tree.mem_holes root path category d).mpr hs), .refl root⟩
  obtain ⟨hwell, hopen, hrefines⟩ := h.keeps hedit hg.regular (start_keeps hedit hg.regular start hfirst)
  obtain ⟨category, hcategory⟩ := hroot.categoryOf
  have hw := hwell.of_categoryOf ((hroot.categoryOf_of_refines hrefines).trans hcategory)
  refine ⟨category, hcategory, fun _ => (Grammar.check_ofTree hg.regular _).mpr hw, ?_, ?_⟩
  · intro path r cs hs
    obtain ⟨rule, hrule, hlive, -, harity, -⟩ := Grammar.wellFormed_node_iff.mp (hw.get? hs)
    exact ⟨rule, hrule, hlive, harity⟩
  · intro path own d hs
    obtain ⟨below, hbelow, hd⟩ := hw.required hs
    obtain ⟨known, hfits, hproduces⟩ := Grammar.wellFormed_hole_iff.mp hd
    obtain rfl := hfits below rfl
    obtain ⟨allowed, hallowed⟩ := Grammar.domainFor_eq_ok known
    refine ⟨hopen path own d hs, hbelow, allowed, hallowed, fun r hr => ?_⟩
    exact (hg.regular.mem_domainFor hallowed r).mpr (hproduces r hr)

end Branch

section Twins

-- Two open positions, one of which has lost a rule.
def Tree.twinsStruck : Tree := .node 1 [.hole "S" (.ofList [1]), .hole "S" (.ofList [0, 1])]

def Branch.twinsStruck : Branch :=
  { Branch.twinsOpen with tree := .twinsStruck, statistics := ⟨0, 1, 0, 0, 0⟩ }

-- The second command is refused.
theorem ran_twinsStruck : Branch.twinsOpen.Ran .twins
    [.request (.strike [0] 0), .request (.strike [0] (-1))] .twinsStruck := by
  have hstrike : ((Command.request (.strike [0] 0)).work .twins 2).run .twinsOpen =
      .ok () .twinsStruck := rfl
  have hrefused : ((Command.request (.strike [0] (-1))).work .twins 2).run .twinsStruck =
      .error (.fault .negativeShift) .twinsStruck := rfl
  exact .halt _ (.command _ .refl hstrike) hrefused

theorem respects_grammar_twins :
    Branch.start .twins 2 (.twins (.hole "S" (.ofList [0, 1]))) = .ok .twinsOpen ∧
      Branch.twinsOpen.Ran .twins [.request (.strike [0] 0), .request (.strike [0] (-1))] .twinsStruck ∧
      ∃ category, Grammar.twins.categoryOf (.twins (.hole "S" (.ofList [0, 1]))) = some category ∧
        (∀ steps, Grammar.twins.check steps (some category) (.ofTree Branch.twinsStruck.tree) = .ok ()) ∧
        (∀ path r cs, Branch.twinsStruck.tree.get? path = some (.node r cs) →
          ∃ rule, Grammar.twins.rule? r = some rule ∧ rule.removed = false ∧ cs.length = rule.arity) ∧
        ∀ path own d, Branch.twinsStruck.tree.get? path = some (.hole own d) → d.isEmpty = false ∧
          Grammar.twins.required category Branch.twinsStruck.tree path = some own ∧
          ∃ allowed, Grammar.twins.domainFor own = .ok allowed ∧ ∀ r ∈ d, r ∈ allowed := by
  have hstart : Branch.start .twins 2 (.twins (.hole "S" (.ofList [0, 1]))) = .ok .twinsOpen := rfl
  exact ⟨hstart, ran_twinsStruck,
    Branch.Ran.respects_grammar Grammar.reachable_twins (by decide) hstart ran_twinsStruck⟩

end Twins

end TreeSearch
