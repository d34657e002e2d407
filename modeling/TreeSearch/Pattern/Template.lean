import TreeSearch.Grammar.Basic

namespace TreeSearch

-- Old and new indices of rules. Where an old index has several pairs, the last one
-- counts.
abbrev Renumbering := List (Int × Int)

def Renumbering.new? (renumbering : Renumbering) (old : Int) : Option Int :=
  (renumbering.reverse.find? (·.1 = old)).map (·.2)

-- The rules that survive, under their new indices.
def Domain.renumber (d : Domain) (renumbering : Renumbering) : Except Fault Domain :=
  Domain.ofBits (d.rules.filterMap fun r : Nat => renumbering.new? r)

namespace Tree

-- The rules that may stand at the root of what a template matches. A bare variable
-- leaves them open.
def rootRules? : Tree → Except Fault (Option Domain)
  | .var _ => .ok none
  | .node r _ => return some (← Domain.single r)
  | .choice d _ | .hole _ d => .ok (some d)

mutual

-- Every node of a template has a live rule with as many children, and every choice
-- has live rules only, one of which takes its children.
def isTemplate (g : Grammar) : Tree → Bool
  | .var _ => true
  | .node r cs => g.isLive r && (g.rule? r).any (·.arity = cs.length) && areTemplates g cs
  | .choice d cs =>
      !d.isEmpty && d.rules.all (fun r : Nat => g.isLive r) &&
        d.rules.any (fun r : Nat => (g.rule? r).any (·.arity = cs.length)) && areTemplates g cs
  | .hole .. => false

def areTemplates (g : Grammar) : List Tree → Bool
  | [] => true
  | c :: cs => isTemplate g c && areTemplates g cs

end

mutual

-- A template whose rule, or all of whose rules, are gone at some node matches
-- nothing any more. Holes have no place in templates.
def renumber (renumbering : Renumbering) : Tree → Except Fault (Option Tree)
  | .var name => .ok (some (.var name))
  | .node r cs => do
      match ← renumberAll renumbering cs with
      | some cs => return (renumbering.new? r).map (.node · cs)
      | none => return none
  | .choice d cs => do
      match ← renumberAll renumbering cs with
      | some cs =>
          let kept ← d.renumber renumbering
          return if kept.isEmpty then none else some (.choice kept cs)
      | none => return none
  | .hole .. => .ok none

def renumberAll (renumbering : Renumbering) : List Tree → Except Fault (Option (List Tree))
  | [] => .ok (some [])
  | c :: cs => do
      match ← renumber renumbering c with
      | some c => return (← renumberAll renumbering cs).map (c :: ·)
      | none => return none

end

end Tree

end TreeSearch
