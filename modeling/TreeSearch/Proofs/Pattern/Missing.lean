import TreeSearch.Pattern.Template
import TreeSearch.Proofs.Pattern.Relocation

namespace TreeSearch

-- A tree that stands at a path meets the conditions that are reported for it there.
def Findings.MetFrom (base : Path) (found : Findings) (u : Tree) : Prop :=
  (∀ r ∈ found.requirements, ∃ path, r.path = base ++ path ∧ u.RootIn path (.only r.rules)) ∧
    ∀ e ∈ found.equalities, ∃ first second s, e = (base ++ first, base ++ second) ∧
      u.get? first = some s ∧ u.get? second = some s

namespace Findings

variable {p : Problem} {t u : Tree} {base : Path} {found : Findings}

theorem settled_under : (found.under base).Settled ↔ found.Settled := by
  simp [Settled, under, Requirement.under]

theorem metFrom_under (hplaced : found.Placed t) (hu : p.Completes u t) :
    (found.under base).MetFrom base u ↔ found.Met u := by
  constructor
  · rintro ⟨hr, he⟩
    constructor
    · intro r hm
      obtain ⟨path, hpath, hin⟩ := hr _ (List.mem_map_of_mem hm)
      obtain rfl : r.path = path := List.append_cancel_left hpath
      exact hin
    · intro e hm
      obtain ⟨first, second, s, heq, hfirst, hsecond⟩ := he _ (List.mem_map_of_mem hm)
      obtain ⟨hone, htwo⟩ := Prod.mk.inj heq
      rw [List.append_cancel_left hone, List.append_cancel_left htwo, hfirst, hsecond]
  · rintro ⟨hr, he⟩
    constructor
    · intro r hm
      obtain ⟨q, hq, rfl⟩ := List.mem_map.mp hm
      exact ⟨q.path, rfl, hr q hq⟩
    · intro e hm
      obtain ⟨q, hq, rfl⟩ := List.mem_map.mp hm
      obtain ⟨⟨s, hs⟩, -⟩ := hplaced.equalities q hq
      obtain ⟨v, hv, -⟩ := hu.get? hs
      exact ⟨q.1, q.2, v, rfl, hv, (he q hq) ▸ hv⟩

end Findings

namespace Tree

variable {p : Problem} {template t : Tree} {base : Path}

theorem matches_iff {u : Tree} : template.Matches u ↔ ∃ value, Pattern.MatchesAt template [] value u := by
  simp [Matches, Pattern.MatchesAt]

-- A template can be matched against any tree that respects the grammar, and the verdict tells
-- about its completions.
theorem match?_judged (hp : template.isTemplate p.grammar = true) (hw : p.grammar.WellFormed none t)
    (base : Path) : ∃ verdict : Verdict,
      template.match? t (some p.grammar) base = .ok (verdict.under base) ∧
        template.match? t (some p.grammar) [] = .ok verdict ∧
        Pattern.Judged p t [] template t.Complete verdict := by
  obtain ⟨verdict, hverdict, hjudged⟩ :=
    Pattern.match?_spec hw (isPattern_of_isTemplate _ hp) (get?_nil t)
  refine ⟨verdict, ?_, hverdict, hjudged⟩
  rw [match?_under, hverdict]
  rfl

-- A completion in which the template matches meets all that is reported as missing. When all of
-- it is settled, a completion that meets it matches. A sole requirement decides the match.
theorem match?_missing {found : Findings} (hp : template.isTemplate p.grammar = true)
    (hw : p.grammar.WellFormed none t)
    (h : template.match? t (some p.grammar) base = .ok (.undecided found)) :
    (∀ u, p.Completes u t → template.Matches u → found.MetFrom base u) ∧
      (found.Settled → ∀ u, p.Completes u t → found.MetFrom base u → template.Matches u) ∧
      ∀ r, (Verdict.undecided found).soleRequirement? = some r → ∀ u, p.Completes u t →
        (template.Matches u ↔ ∃ path, r.path = base ++ path ∧ u.RootIn path (.only r.rules)) := by
  obtain ⟨verdict, hbase, -, hjudged⟩ := match?_judged hp hw base
  obtain ⟨inner, rfl, rfl⟩ : ∃ inner, verdict = .undecided inner ∧ found = inner.under base := by
    have hverdict := Except.ok.inj (hbase.symm.trans h)
    cases verdict with
    | refuted => cases hverdict
    | matched bindings => cases hverdict
    | undecided inner => exact ⟨inner, rfl, (Verdict.undecided.inj hverdict).symm⟩
  obtain ⟨hneeded, henough, hplaced, -⟩ := hjudged
  have needed (u : Tree) (hu : p.Completes u t) (hm : template.Matches u) :
      (inner.under base).MetFrom base u := by
    obtain ⟨value, hvalue⟩ := matches_iff.mp hm
    exact (Findings.metFrom_under hplaced hu).mpr (hneeded u value hu hvalue)
  have enough (hs : (inner.under base).Settled) (u : Tree) (hu : p.Completes u t)
      (hm : (inner.under base).MetFrom base u) : template.Matches u :=
    matches_iff.mpr (henough (Findings.settled_under.mp hs) u hu
      ((Findings.metFrom_under hplaced hu).mp hm))
  refine ⟨needed, enough, fun r hr u hu => ?_⟩
  obtain ⟨hsole, hfree, hsettled⟩ := Verdict.soleRequirement?_eq_some hr
  constructor
  · intro hm
    exact (needed u hu hm).1 r (by simp [hsole])
  · intro hin
    apply enough _ u hu
    · constructor
      · simpa [hsole] using hin
      · simp [hfree]
    · intro q hq
      rw [hsole, List.mem_singleton] at hq
      rw [hq, hsettled]

end Tree

section Terms

-- Three terms below a root. A term is one of two leaves, or has a term below it.
def Grammar.terms : Grammar :=
  ⟨[⟨0, "E", ["E"], none, none, false⟩, ⟨1, "E", [], none, none, false⟩,
    ⟨2, "E", [], none, none, false⟩, ⟨3, "S", ["E", "E", "E"], none, none, false⟩], ["E", "S"], [], 4⟩

def Problem.terms : Problem := .of .terms .none

def Tree.anyLeaf : Tree := .hole "E" (.ofList [1, 2])

theorem Grammar.reachable_terms : Grammar.terms.Reachable := by
  let inner : Rule := ⟨0, "E", ["E"], none, none, false⟩
  let leaf : Rule := ⟨1, "E", [], none, none, false⟩
  let other : Rule := ⟨2, "E", [], none, none, false⟩
  have hinner : empty.add "E" ["E"] none none = .ok (⟨[inner], ["E"], [], 1⟩, 0) := rfl
  have hleaf : (⟨[inner], ["E"], [], 1⟩ : Grammar).add "E" [] none none =
      .ok (⟨[inner, leaf], ["E"], [], 2⟩, 1) := rfl
  have hother : (⟨[inner, leaf], ["E"], [], 2⟩ : Grammar).add "E" [] none none =
      .ok (⟨[inner, leaf, other], ["E"], [], 3⟩, 2) := rfl
  have hroot : (⟨[inner, leaf, other], ["E"], [], 3⟩ : Grammar).add "S" ["E", "E", "E"] none none =
      .ok (terms, 3) := rfl
  exact .add (.add (.add (.add .empty hinner) hleaf) hother) hroot

-- The second of three terms is to be the first leaf.
def Tree.leafSecond : Tree := .node 3 [.var "x", .node 1 [], .var "y"]

def Tree.openTerms : Tree := .node 3 [.node 0 [.anyLeaf], .anyLeaf, .anyLeaf]

-- What that asks of three open terms, when their root stands at a path.
def Findings.leafMissing : Findings :=
  ⟨[⟨[5, 1], .ofList [1], true⟩], [], [⟨"x", [5, 0], .node 0 [.anyLeaf]⟩, ⟨"y", [5, 2], .anyLeaf⟩]⟩

theorem match?_missing_terms : Tree.leafSecond.isTemplate Grammar.terms = true ∧
    Grammar.terms.WellFormed none Tree.openTerms ∧
    Tree.leafSecond.match? .openTerms (some Grammar.terms) [5] = .ok (.undecided .leafMissing) ∧
    (∀ u, Problem.terms.Completes u .openTerms → Tree.leafSecond.Matches u →
      Findings.leafMissing.MetFrom [5] u) ∧
    (Findings.leafMissing.Settled → ∀ u, Problem.terms.Completes u .openTerms →
      Findings.leafMissing.MetFrom [5] u → Tree.leafSecond.Matches u) ∧
    ∀ r, (Verdict.undecided .leafMissing).soleRequirement? = some r →
      ∀ u, Problem.terms.Completes u .openTerms →
        (Tree.leafSecond.Matches u ↔ ∃ path, r.path = [5] ++ path ∧ u.RootIn path (.only r.rules)) := by
  have htemplate : Tree.leafSecond.isTemplate Problem.terms.grammar = true := by decide
  have hw : Problem.terms.grammar.WellFormed none .openTerms :=
    (Grammar.check_ofTree Grammar.reachable_terms.regular 0).mp rfl
  exact ⟨htemplate, hw, rfl, Tree.match?_missing htemplate hw rfl⟩

end Terms

end TreeSearch
