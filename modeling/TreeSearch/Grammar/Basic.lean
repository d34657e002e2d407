import TreeSearch.Domain.Checked
import TreeSearch.Tree.Basic

namespace TreeSearch

-- Grammars: rules in the order of their indices, the categories known so far, and
-- the constraints attached. A removed rule keeps its index. The version counts the
-- edits.
structure Grammar where
  rules : List Rule
  categories : List String
  constraints : List Constraint
  version : Nat
  deriving DecidableEq

namespace Grammar

def empty : Grammar := ⟨[], [], [], 0⟩

def rule? (g : Grammar) (index : Int) : Option Rule :=
  if 0 ≤ index then g.rules[index.toNat]? else none

-- Removed rules can still be read.
def rule (g : Grammar) (index : Int) : Except Fault Rule :=
  match g.rule? index with
  | some r => .ok r
  | none => .error (.noSuchRule index)

def liveRules (g : Grammar) : List Rule := g.rules.filter (!·.removed)

def isLive (g : Grammar) (index : Int) : Bool :=
  match g.rule? index with
  | some r => !r.removed
  | none => false

-- The rules that produce a category, live or not.
def producers (g : Grammar) (category : String) : List Rule :=
  g.rules.filter (·.category = category)

-- Categories that at least one live rule produces.
def nonterminals (g : Grammar) : List String :=
  g.categories.filter fun category => (g.producers category).any (!·.removed)

def indicesFor (g : Grammar) (category : String) : List Nat :=
  ((g.producers category).filter (!·.removed)).map (·.index)

def rulesFor (g : Grammar) (category : String) : Except Fault (List Nat) :=
  if category ∈ g.categories then .ok (g.indicesFor category)
  else .error (.unknownCategory category)

-- The live rules of a category. An unknown one has none.
def domainOf (g : Grammar) (category : String) : Domain :=
  Domain.ofList (g.indicesFor category)

def domainFor (g : Grammar) (category : String) : Except Fault Domain :=
  return Domain.ofList (← g.rulesFor category)

def liveDomain (g : Grammar) : Domain :=
  Domain.ofList (g.liveRules.map (·.index))

def findRule (g : Grammar) (label : String) : Except Fault Nat :=
  match g.liveRules.find? (·.label = some label) with
  | some r => .ok r.index
  | none => .error (.unknownLabel label)

def arity (g : Grammar) (index : Int) : Except Fault Nat :=
  return (← g.rule index).arity

def isTerminal (g : Grammar) (index : Int) : Except Fault Bool :=
  return (← g.rule index).isTerminal

-- A heading, then a line for each live rule.
def text (g : Grammar) : String :=
  let live := g.liveRules
  let heading := s!"Grammar({live.length} rules, {g.constraints.length} constraints)"
  let line (r : Rule) := s!"  {r.index}: " ++ r.category ++ " = " ++ r.text
  "\n".intercalate (heading :: live.map line)

mutual

-- A tree with rules shown by their own text, and open positions as they are.
def render (g : Grammar) : Tree → Except Fault String
  | .node r cs => do
      let head := (← g.rule r).text
      match ← g.renderAll cs with
      | [] => return head
      | items => return head ++ "(" ++ ", ".intercalate items ++ ")"
  | t => .ok t.text

def renderAll (g : Grammar) : List Tree → Except Fault (List String)
  | [] => .ok []
  | t :: ts => return (← g.render t) :: (← g.renderAll ts)

end

end Grammar

end TreeSearch
