import TreeSearch.Grammar.Basic
import TreeSearch.Pattern.Verdict

namespace TreeSearch.Pattern

-- The rules that take so many children. Without a grammar any rule may. Every rule
-- must be known to the grammar.
def withArity (grammar : Option Grammar) (rules : Domain) (arity : Nat) : Except Fault Domain :=
  match grammar with
  | none => .ok rules
  | some g => match rules.rules.find? fun r : Nat => (g.rule? r).isNone with
      | some r => .error (.noSuchRule r)
      | none => .ok (rules.filter fun r : Nat => (g.rule? r).any (·.arity = arity))

-- Two open positions that may take one and the same terminal rule are equal already.
def sameTerminal (grammar : Option Grammar) (d e : Domain) : Except Fault Bool :=
  match grammar, d.sole? with
  | some g, some r => if d = e then g.isTerminal r else .ok false
  | _, _ => .ok false

-- A filled position against an open one. The rule must be possible there, and the
-- children, if there are any, must become equal.
def compareOpen (rule : Int) (children : List Tree) (openPath : Path) (rules : Domain)
    (first second : Path) (found : Findings) : Except Fault (Option Findings) := do
  if !(← rules.has rule) then return none
  if !children.isEmpty then return some (found.equate first second)
  let only ← Domain.single rule
  return some (if rules = only then found else found.require openPath only true)

mutual

-- What it takes for two subtrees to be equal, or nothing when they cannot be.
def compare (grammar : Option Grammar) (first second : Path) :
    Tree → Tree → Findings → Except Fault (Option Findings)
  | .node r cs, .node q ds, found =>
      if r = q ∧ cs.length = ds.length then compareAll grammar first second 0 cs ds found
      else .ok none
  | .node r cs, t, found => match t.domain? with
      | some d => compareOpen r cs second d first second found
      | none => .ok none
  | s, .node q ds, found => match s.domain? with
      | some d => compareOpen q ds first d first second found
      | none => .ok none
  | s, t, found => match s.domain?, t.domain? with
      | some d, some e => do
          if (d ∩ e).isEmpty then return none
          if ← sameTerminal grammar d e then return some found
          return some (found.equate first second)
      | _, _ => .ok none

def compareAll (grammar : Option Grammar) (first second : Path) (index : Nat) :
    List Tree → List Tree → Findings → Except Fault (Option Findings)
  | s :: ss, t :: ts, found => do
      let step : Path := [(index : Int)]
      match ← compare grammar (first ++ step) (second ++ step) s t found with
      | some found => compareAll grammar first second (index + 1) ss ts found
      | none => return none
  | _, _, found => .ok (some found)

end

-- An open position under a part of the template that allows some rules and has so
-- many children.
def matchOpen (grammar : Option Grammar) (allowed : Domain) (arity : Nat) (path : Path)
    (rules : Domain) (found : Findings) : Except Fault (Option Findings) := do
  let kept ← withArity grammar (rules ∩ allowed) arity
  if kept.isEmpty then return none
  if arity ≠ 0 then return some (found.require path kept false)
  return some (if (rules \ kept).isEmpty then found else found.require path kept true)

-- One position under such a part. The subtrees that the parts below it go on with
-- come back too: the children of a filled position, and none below an open one.
def matchRoot (grammar : Option Grammar) (allowed : Domain) (arity : Nat) (path : Path)
    (t : Tree) (found : Findings) : Except Fault (Option (Findings × List Tree)) :=
  match t with
  | .node r cs => do
      if (← allowed.has r) ∧ cs.length = arity then return some (found, cs) else return none
  | t => match t.domain? with
      | some rules => return (← matchOpen grammar allowed arity path rules found).map (·, [])
      | none => .ok none

mutual

-- Findings grow along the template. A variable met again compares its subtree with
-- the one it is bound to.
def matchAt (grammar : Option Grammar) (path : Path) :
    Tree → Tree → Findings → Except Fault (Option Findings)
  | .var name, t, found => match found.binding? name with
      | some bound => compare grammar bound.path path bound.tree t found
      | none => .ok (some (found.bind name path t))
  | .node r parts, t, found => do
      match ← matchRoot grammar (← Domain.single r) parts.length path t found with
      | some (found, cs) => matchAll grammar path 0 parts cs found
      | none => return none
  | .choice allowed parts, t, found => do
      match ← matchRoot grammar allowed parts.length path t found with
      | some (found, cs) => matchAll grammar path 0 parts cs found
      | none => return none
  | .hole _ allowed, t, found =>
      return (← matchRoot grammar allowed 0 path t found).map (·.1)

def matchAll (grammar : Option Grammar) (path : Path) (index : Nat) :
    List Tree → List Tree → Findings → Except Fault (Option Findings)
  | part :: parts, t :: ts, found => do
      match ← matchAt grammar (path ++ [(index : Int)]) part t found with
      | some found => matchAll grammar path (index + 1) parts ts found
      | none => return none
  | _, _, found => .ok (some found)

end

end Pattern

-- Paths in the verdict start with the path of the tree.
def Tree.match? (template t : Tree) (grammar : Option Grammar) (path : Path) :
    Except Fault Verdict := do
  match ← Pattern.matchAt grammar path template t Findings.none with
  | some found => return found.verdict
  | none => return .refuted

end TreeSearch
