import TreeSearch.Proofs.Branch.Core
import TreeSearch.Proofs.Branch.Unified

namespace TreeSearch

variable {p : Problem} {b c : Branch} {first second : Path} {t : Tree}

-- A complete tree that the branch can still become, with the same subtree at all united positions,
-- whatever the limits and the constraints say.
structure Branch.Permits (p : Problem) (b : Branch) (t : Tree) : Prop where
  wellFormed : p.grammar.WellFormed none t
  complete : t.Complete
  covered : b.Covers t
  respected : b.classes.Respected t

namespace Branch

theorem Permits.completes (h : b.Permits p t) : p.Completes t b.tree :=
  ⟨h.wellFormed, h.complete, h.covered.2⟩

-- What is permitted has been permitted before.
theorem Permits.of_grows (h : c.Permits p t) (hb : b.Intact p) (hg : b.Grows c) : b.Permits p t := by
  refine ⟨h.wellFormed, h.complete, ⟨hg.feasible h.covered.1, h.covered.2.trans hg.refines⟩, ?_⟩
  intro k hk x hx y hy
  have hmember : y ∈ b.classes.members x := by rwa [hb.classes.members_eq hk hx]
  exact h.respected.members (hg.members x y hmember)

-- Without constraints there is nothing to be assumed of them.
theorem Intact.ready_core {T : Tree → Prop} (hb : b.Intact p) (hT : ∀ t, T t → b.classes.Respected t) :
    b.core.Ready p T where
  sound := {
    wellFormed := hb.wellFormed
    classes := hb.classes
    united := hb.united
    watched := by rintro w (hw | hw) <;> cases hw
    apart := nofun
    queue := Worklist.proper_empty
    pending := nofun }
  loyal := fun t ht _ => hT t ht

end Branch

-- The limits without the one on the size, which filling does not look at.
def Problem.unsized (p : Problem) : Problem :=
  { p with bounds := { p.bounds with maxSize := none, one_le_size := Bounds.none.one_le_size } }

namespace BranchM

theorem fillMembers_unsized (unifying : Bool) (rule : Nat) (members : List Path) :
    fillMembers p.unsized unifying rule members = fillMembers p unifying rule members := by
  induction members with
  | nil => rfl
  | cons member rest ih =>
      rw [fillMembers, fillMembers, ih]
      rfl

theorem fillClass_unsized (hnone : p.grammar.constraints = []) (steps : Nat) :
    fillClass p.unsized steps = fillClass p steps := by
  induction steps with
  | zero => rfl
  | succ steps ih =>
      have hnone' : p.unsized.grammar.constraints = [] := hnone
      funext unifying path rule
      simp only [fillClass, announce_of_constraints_eq_nil hnone,
        announce_of_constraints_eq_nil hnone', fillMembers_unsized, ih]
      rfl

end BranchM

namespace Branch

-- Two positions are united at no loss of trees in which they are alike.
theorem Intact.equate_spec (hg : p.grammar.Regular) (hnone : p.grammar.constraints = [])
    (hb : b.Intact p) (hfirst : ∃ s, b.tree.get? first = some s)
    (hsecond : ∃ s, b.tree.get? second = some s) {steps : Nat}
    (done : (BranchM.equate (BranchM.fillClass p steps) first second).run b = .ok () c)
    (ht : b.Permits p t) (hdepth : ∀ n ∈ p.bounds.maxDepth, t.depth ≤ n)
    (hsame : t.get? first = t.get? second) : c.Permits p t := by
  let T (t : Tree) : Prop :=
    b.Permits p t ∧ (∀ n ∈ p.bounds.maxDepth, t.depth ≤ n) ∧ t.get? first = t.get? second
  have hT (t : Tree) (ht : T t) : p.unsized.Solves t := by
    refine ⟨ht.1.wellFormed, ht.1.complete, ⟨ht.2.1, nofun⟩, ?_⟩
    show ∀ k ∈ p.grammar.constraints, k.Holds t
    simp [hnone]
  have hintact : b.Intact p.unsized := ⟨hb.wellFormed, hb.rules, hb.classes, hb.united⟩
  have hready : b.core.Ready p.unsized T := hintact.ready_core fun t ht => ht.1.respected
  have hfills := BranchM.fills_fillClass (p := p.unsized) hg hT steps
  have hdoes := BranchM.does_equate hfills hT hready hfirst hsecond fun t ht _ => ht.2.2
  obtain ⟨d, hrun, hcd⟩ := (BranchM.oblivious_equate hnone steps first second b b.core rfl).ok done
  obtain ⟨htree, hclasses, hfeasible⟩ := core_eq_iff.mp hcd
  rw [BranchM.fillClass_unsized hnone] at hdoes
  have hproceeds := (hdoes.ok hrun).1.moves.proceeds
  have hcovers := hproceeds.covers ⟨ht, hdepth, hsame⟩ ht.covered
  have hloyal := hproceeds.loyal hready.sound hready.loyal t ⟨ht, hdepth, hsame⟩ hcovers
  exact ⟨ht.wellFormed, ht.complete, ⟨hfeasible.trans hcovers.1, htree ▸ hcovers.2⟩, hclasses ▸ hloyal⟩

-- Uniting two positions keeps exactly the trees in which they are alike, of those that are not too
-- deep. A branch that fails in the course of it has had none.
theorem Intact.equate_exact (hg : p.grammar.Reachable) (hnone : p.grammar.constraints = [])
    (hb : b.Intact p) (hfirst : ∃ s, b.tree.get? first = some s)
    (hsecond : ∃ s, b.tree.get? second = some s) {steps : Nat}
    (done : (BranchM.equate (BranchM.fillClass p steps) first second).run b = .ok () c) (t : Tree) :
    (c.Permits p t ∧ ∀ n ∈ p.bounds.maxDepth, t.depth ≤ n) ↔
      (b.Permits p t ∧ ∀ n ∈ p.bounds.maxDepth, t.depth ≤ n) ∧ t.get? first = t.get? second := by
  have hkeeps : BranchM.Keeps p (fun _ => False) Set.univ (BranchM.equate (BranchM.fillClass p steps) first second) b
      fun _ c => c.feasible = true → second ∈ c.classes.members first :=
    BranchM.keeps_equate (BranchM.levels_fillClass hg.regular steps) hb.balanced (Or.inr hfirst)
      (Or.inr hsecond)
  obtain ⟨hgrows, -, hunited⟩ := hkeeps.ok done
  constructor
  · rintro ⟨ht, hdepth⟩
    exact ⟨⟨ht.of_grows hb hgrows, hdepth⟩, ht.respected.members (hunited ht.covered.1)⟩
  · rintro ⟨⟨ht, hdepth⟩, hsame⟩
    exact ⟨hb.equate_spec hg.regular hnone hfirst hsecond done ht hdepth hsame, hdepth⟩

section Twins

-- An open position next to a leaf, and what becomes of it when the two are united.
def twinsHalf : Branch := .of (.node 1 [.hole "S" (.ofList [0, 1]), .node 0 []])

def twinsPaired : Branch :=
  { Branch.of (.node 1 [.node 0 [], .node 0 []]) with
    classes := ⟨[[[0], [1]]]⟩
    statistics := ⟨1, 1, 0, 0, 0⟩ }

theorem intact_twinsHalf : twinsHalf.Intact .twins := by
  have hw : Grammar.twins.WellFormed none twinsHalf.tree :=
    (Grammar.check_ofTree Grammar.reachable_twins.regular 0).mp rfl
  have hb : twinsHalf.Balanced .twins ∅ := balanced_of hw (by decide)
  exact hb.intact

theorem equate_exact_twins :
    (BranchM.equate (BranchM.fillClass .twins 1) [0] [1]).run twinsHalf = .ok () twinsPaired ∧
      ∀ t, (twinsPaired.Permits .twins t ∧ ∀ n ∈ Problem.twins.bounds.maxDepth, t.depth ≤ n) ↔
        (twinsHalf.Permits .twins t ∧ ∀ n ∈ Problem.twins.bounds.maxDepth, t.depth ≤ n) ∧
          t.get? [0] = t.get? [1] := by
  have hrun : (BranchM.equate (BranchM.fillClass .twins 1) [0] [1]).run twinsHalf = .ok () twinsPaired := rfl
  exact ⟨hrun, intact_twinsHalf.equate_exact Grammar.reachable_twins rfl ⟨_, rfl⟩ ⟨_, rfl⟩ hrun⟩

end Twins

end Branch

end TreeSearch
