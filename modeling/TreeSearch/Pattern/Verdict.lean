import TreeSearch.Tree.Position

namespace TreeSearch

-- An open position that must take one of some rules. It is settled when nothing of
-- the template is left to check below it.
structure Requirement where
  path : Path
  rules : Domain
  settled : Bool
  deriving DecidableEq

-- The subtree a variable stands for, with its path.
structure Binding where
  name : String
  path : Path
  tree : Tree
  deriving DecidableEq

-- Conditions on open positions, in the order in which they were met, and the
-- variables, each bound where it was met first.
structure Findings where
  requirements : List Requirement
  equalities : List (Path × Path)
  bindings : List Binding
  deriving DecidableEq

inductive Verdict where
  -- no completion of the tree matches
  | refuted
  -- every completion matches
  | matched (bindings : List Binding)
  -- it depends on the open positions
  | undecided (findings : Findings)
  deriving DecidableEq

namespace Findings

def none : Findings := ⟨[], [], []⟩

def require (found : Findings) (path : Path) (rules : Domain) (settled : Bool) : Findings :=
  { found with requirements := found.requirements ++ [⟨path, rules, settled⟩] }

def equate (found : Findings) (first second : Path) : Findings :=
  { found with equalities := found.equalities ++ [(first, second)] }

def bind (found : Findings) (name : String) (path : Path) (tree : Tree) : Findings :=
  { found with bindings := found.bindings ++ [⟨name, path, tree⟩] }

def binding? (found : Findings) (name : String) : Option Binding :=
  found.bindings.find? (·.name = name)

def verdict (found : Findings) : Verdict :=
  if found.requirements.isEmpty && found.equalities.isEmpty then .matched found.bindings
  else .undecided found

end Findings

-- The only requirement of an undecided match, when meeting it decides the match.
def Verdict.soleRequirement? : Verdict → Option Requirement
  | .undecided ⟨[requirement], [], _⟩ => if requirement.settled then some requirement else none
  | _ => none

end TreeSearch
