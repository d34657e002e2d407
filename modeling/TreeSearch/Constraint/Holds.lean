import TreeSearch.Constraint.Basic
import TreeSearch.Pattern.Matches
import TreeSearch.Tree.Canonical

namespace TreeSearch

-- The rules from some ancestor down to a node have the elements of a sequence in turn,
-- the last one at the node, and no rule to ignore in between.
inductive Woven (ignore : List Int) : List Int → List Int → Prop
  | last (r : Int) : Woven ignore [r] [r]
  | step {r : Int} {gap sequence rules : List Int} (free : ∀ x ∈ gap, x ∉ ignore)
      (rest : Woven ignore sequence rules) : Woven ignore (r :: sequence) (r :: gap ++ rules)

-- A sequence ends at the last of the rules on a way down from the root.
def SequenceEnds (ignore sequence rules : List Int) : Prop :=
  ∃ above woven, rules = above ++ woven ∧ Woven ignore sequence woven

-- The rules on the way to a node, its own included.
def Tree.RulesTo : Tree → Path → List Int → Prop
  | .node r _, [], rules => rules = [r]
  | .node r cs, i :: path, rules =>
      ∃ c below, (Tree.node r cs).child? i = some c ∧ c.RulesTo path below ∧ rules = r :: below
  | _, _, _ => False

def Constraint.Holds (t : Tree) : Constraint → Prop
  | forbidden template => ∀ path s, t.get? path = some s → ¬ template.Matches s
  | contains rule => ∃ path children, t.get? path = some (.node rule children)
  | containsSubtree template => ∃ path s, t.get? path = some s ∧ template.Matches s
  | ordered template names => ∀ path s value, t.get? path = some s →
      template.MatchesUnder value s → names.Pairwise fun a b => (value a).UpTo (value b)
  | forbiddenSequence sequence ignore => ∀ path rules, t.RulesTo path rules →
      ¬ SequenceEnds ignore sequence rules
  | unique rule => ∀ path other cs ds, t.get? path = some (.node rule cs) →
      t.get? other = some (.node rule ds) → path = other
  | rootOnly rule => ∀ path children, t.get? path = some (.node rule children) → path = []

end TreeSearch
