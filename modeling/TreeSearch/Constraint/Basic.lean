import TreeSearch.Tree.Basic

namespace TreeSearch

-- Conditions on complete trees.
inductive Constraint where
  -- no subtree matches the template
  | forbidden (template : Tree)
  -- the rule occurs
  | contains (rule : Int)
  -- some subtree matches the template
  | containsSubtree (template : Tree)
  -- where the template matches, the subtrees of the named variables do not decrease
  | ordered (template : Tree) (names : List String)
  -- no path downwards has these rules in turn, unless a rule to ignore comes in between
  | forbiddenSequence (sequence ignore : List Int)
  -- the rule occurs at most once
  | unique (rule : Int)
  -- the rule occurs at most at the root
  | rootOnly (rule : Int)
  deriving DecidableEq

-- A constraint that is watched at one position of a tree.
structure Watch where
  path : Path
  constraint : Constraint
  deriving DecidableEq

-- The kind of a constraint, and its parts in parentheses.
def Constraint.words : Constraint → List String
  | forbidden template => ["Forbidden(", template.text, ")"]
  | contains rule => ["Contains(", toString rule, ")"]
  | containsSubtree template => ["ContainsSubtree(", template.text, ")"]
  | ordered template names => ["Ordered(", template.text, ", ", Text.strings names, ")"]
  | forbiddenSequence sequence ignore =>
      ["ForbiddenSequence(", Text.integers sequence, ", ignore_if=", Text.integers ignore, ")"]
  | unique rule => ["Unique(", toString rule, ")"]
  | rootOnly rule => ["RootOnly(", toString rule, ")"]

def Constraint.text (c : Constraint) : String := Text.joined c.words

end TreeSearch
