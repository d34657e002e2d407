import TreeSearch.Branch.Basic
import TreeSearch.Branch.Action
import TreeSearch.Constraint.Holds
import TreeSearch.Proofs.Pattern.Match

namespace TreeSearch

-- What a constraint says about a complete tree at one position. Constraints on the whole
-- tree say it at the root.
def Constraint.HoldsAt (u : Tree) (path : Path) : Constraint → Prop
  | forbidden template => ∀ value, ¬ Pattern.MatchesAt template path value u
  | contains rule => path = [] → ∃ other cs, u.get? other = some (.node rule cs)
  | containsSubtree template => path = [] → ∃ other value, Pattern.MatchesAt template other value u
  | ordered template names => ∀ value, Pattern.MatchesAt template path value u →
      names.Pairwise fun a b => (value a).UpTo (value b)
  | forbiddenSequence sequence ignore => ∀ rules, u.RulesTo path rules →
      ¬ SequenceEnds ignore sequence rules
  | unique rule => path = [] → ∀ first second cs ds, u.get? first = some (.node rule cs) →
      u.get? second = some (.node rule ds) → first = second
  | rootOnly rule => ∀ cs, u.get? path = some (.node rule cs) → path = []

theorem Constraint.holds_iff (u : Tree) (c : Constraint) :
    c.Holds u ↔ ∀ path, c.HoldsAt u path := by
  cases c with
  | forbidden template =>
      constructor
      · rintro h path value ⟨s, hs, hm⟩
        exact h path s hs ⟨value, hm⟩
      · rintro h path s hs ⟨value, hm⟩
        exact h path value ⟨s, hs, hm⟩
  | contains rule => exact ⟨fun h _ _ => h, fun h => h [] rfl⟩
  | containsSubtree template =>
      constructor
      · rintro ⟨path, s, hs, value, hm⟩ - -
        exact ⟨path, value, s, hs, hm⟩
      · intro h
        obtain ⟨path, value, s, hs, hm⟩ := h [] rfl
        exact ⟨path, s, hs, value, hm⟩
  | ordered template names =>
      constructor
      · rintro h path value ⟨s, hs, hm⟩
        exact h path s value hs hm
      · intro h path s value hs hm
        exact h path value ⟨s, hs, hm⟩
  | forbiddenSequence sequence ignore => exact Iff.rfl
  | unique rule => exact ⟨fun h _ _ => h, fun h => h [] rfl⟩
  | rootOnly rule => exact Iff.rfl

-- Where a constraint can be watched: those on the whole tree at the root, and the rule
-- for the root anywhere else.
def Watch.Fits (w : Watch) : Prop :=
  match w.constraint with
  | .contains _ | .containsSubtree _ | .unique _ => w.path = []
  | .rootOnly _ => w.path ≠ []
  | .forbidden _ | .ordered .. | .forbiddenSequence .. => True

-- A watched constraint that minds all changes at and below its path.
def Watch.Sensitive (w : Watch) : Prop :=
  match w.constraint with
  | .forbiddenSequence .. | .rootOnly _ => False
  | _ => True

namespace Action

-- What an action asks of a complete tree.
def Met (u : Tree) : Action → Prop
  | retire => True
  | fail => False
  | keep path mask => u.RootIn path mask
  | strike path rule => ∃ (n : Nat) (cs : List Tree), u.get? path = some (.node n cs) ∧ (n : Int) ≠ rule
  | equate first second => u.get? first = u.get? second
  | order bindings names => names.Pairwise fun a b => ∀ first second s t,
      Findings.binding? ⟨[], [], bindings⟩ a = some first →
      Findings.binding? ⟨[], [], bindings⟩ b = some second →
      u.get? first.path = some s → u.get? second.path = some t → s.UpTo t

-- All that an action names is there.
def Placed (t : Tree) : Action → Prop
  | retire | fail => True
  | keep path _ => ∃ s, t.get? path = some s
  | strike path rule => (∃ s, t.get? path = some s) ∧ 0 ≤ rule
  | equate first second => (∃ s, t.get? first = some s) ∧ ∃ s, t.get? second = some s
  | order bindings names => Findings.Placed t ⟨[], [], bindings⟩ ∧
      ∀ name ∈ names, ∃ b, Findings.binding? ⟨[], [], bindings⟩ name = some b

-- Actions at single positions.
def Narrows : Action → Prop
  | fail | keep .. | strike .. => True
  | retire | equate .. | order .. => False

-- Actions that leave a constraint in service.
def Plain : Action → Prop
  | keep .. | strike .. | equate .. => True
  | retire | fail | order .. => False

end Action

-- The kinds of answers that watched constraints give. The first three leave nothing open
-- in a complete subtree.
inductive Answer (p : Problem) (t : Tree) (w : Watch) : List Action → Prop
  | settled {rest : List Action} (narrows : ∀ a ∈ rest, a.Narrows)
      (enough : ∀ u, p.Completes u t → (∀ a ∈ rest, a.Met u) → w.constraint.HoldsAt u w.path) :
      Answer p t w (.retire :: rest)
  | failed : Answer p t w [.fail]
  | ordered {bindings : List Binding} {names : List String} (sensitive : w.Sensitive)
      (enough : ∀ u, p.Completes u t → (Action.order bindings names).Met u →
        w.constraint.HoldsAt u w.path)
      (decided : ∀ s, t.get? w.path = some s → s.Complete → ∀ b ∈ bindings, b.tree.Complete) :
      Answer p t w [.order bindings names]
  | unsettled {acts : List Action} (plain : ∀ a ∈ acts, a.Plain) (sensitive : w.Sensitive)
      (quiet : ∀ s, t.get? w.path = some s → s.Complete → w.constraint.HoldsAt t w.path) :
      Answer p t w acts

-- Actions that are well-formed, of a known kind, and necessary.
structure Answers (p : Problem) (t : Tree) (w : Watch) (acts : List Action) : Prop where
  placed : ∀ a ∈ acts, a.Placed t
  necessary : ∀ u, p.Completes u t → p.bounds.Admits u → w.constraint.HoldsAt u w.path →
    ∀ a ∈ acts, a.Met u
  kind : Answer p t w acts

-- Nothing needs to be done yet.
theorem Answers.idle {p : Problem} {t : Tree} {w : Watch} (sensitive : w.Sensitive)
    (quiet : ∀ s, t.get? w.path = some s → s.Complete → w.constraint.HoldsAt t w.path) :
    Answers p t w [] :=
  ⟨nofun, nofun, .unsettled nofun sensitive quiet⟩

-- There is nothing to check below an open position.
theorem Answers.waiting {p : Problem} {t : Tree} {w : Watch} (sensitive : w.Sensitive)
    (hopen : ∀ s, t.get? w.path = some s → ¬ s.Complete) : Answers p t w [] :=
  .idle sensitive fun s hs hc => absurd hc (hopen s hs)

-- The constraint holds whatever becomes of the tree.
theorem Answers.retired {p : Problem} {t : Tree} {w : Watch}
    (h : ∀ u, p.Completes u t → w.constraint.HoldsAt u w.path) : Answers p t w [.retire] :=
  ⟨by simp [Action.Placed], fun u _ _ _ => by simp [Action.Met], .settled nofun fun u hu _ => h u hu⟩

-- It fails whatever becomes of the tree.
theorem Answers.failed {p : Problem} {t : Tree} {w : Watch}
    (h : ∀ u, p.Completes u t → p.bounds.Admits u → ¬ w.constraint.HoldsAt u w.path) :
    Answers p t w [.fail] :=
  ⟨by simp [Action.Placed], fun u hu hb hh => absurd hh (h u hu hb), .failed⟩

section Completions

variable {p : Problem} {u whole : Tree}

-- A completion has a rule wherever the unfinished tree has a position.
theorem Problem.Completes.root_nat (hu : p.Completes u whole) {path : Path} {s : Tree}
    (h : whole.get? path = some s) :
    ∃ (n : Nat) (cs : List Tree), u.get? path = some (.node n cs) := by
  obtain ⟨v, hv, hc⟩ := hu.get? h
  obtain ⟨r, cs, rfl, -⟩ := Tree.complete_iff.mp hc.complete
  obtain ⟨n, rfl⟩ := Int.eq_ofNat_of_zero_le hc.wellFormed.root_nonneg
  exact ⟨n, cs, hv⟩

theorem Problem.Completes.refl {t : Tree} (hw : p.grammar.WellFormed none t) (hc : t.Complete) :
    p.Completes t t :=
  ⟨hw, hc, .refl t⟩

end Completions

end TreeSearch
