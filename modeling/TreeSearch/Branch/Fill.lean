import TreeSearch.Branch.Post

namespace TreeSearch

-- Open children for a rule, or nothing when no rule of some category fits.
def Grammar.openChildren (g : Grammar) (fitting : Domain) :
    List String → Except Fault (Option (List Tree))
  | [] => .ok (some [])
  | category :: rest => do
      let rules := (← g.domainFor category) ∩ fitting
      if rules.isEmpty then return none
      return (← g.openChildren fitting rest).map (.hole category rules :: ·)

namespace BranchM

variable (p : Problem)

-- Puts a rule with open children into the place of a hole. The new positions come
-- back.
def fillOne (unifying : Bool) (rule : Nat) (path : Path) : BranchM (List Path) := do
  let fitting ← reckon (p.shallow (path ++ [0]))
  let production ← attempt (p.grammar.rule rule)
  match ← attempt (p.grammar.openChildren fitting production.children) with
  | none =>
      fail
      return []
  | some holes =>
      edit unifying path (.node rule holes) fun s => { s with fills := s.fills + 1 }
      return (List.range holes.length).map fun (index : Nat) => path ++ [(index : Int)]

def fillMember (unifying : Bool) (rule : Nat) (path : Path) : BranchM (List Path) := do
  match ← nodeAt path with
  | .node r _ =>
      if r ≠ rule then fail
      return []
  | t =>
      if rule ∈ t.domain?.getD ∅ then fillOne p unifying rule path
      else
        fail
        return []

-- Fills the members of a class in turn, as long as the branch is feasible.
def fillMembers (unifying : Bool) (rule : Nat) : List Path → BranchM (List Path)
  | [] => return []
  | member :: rest => do
      let opened ← fillMember p unifying rule member
      if ← isFeasible then return opened ++ (← fillMembers unifying rule rest)
      return []

-- Fills a class, unifies the children of its members, and shows the new positions to
-- the constraints of the grammar. These may unify paths and fill again, without end unless
-- the trees are limited, so the work is given a number of steps.
def fillClass : Nat → Filler
  | 0 => fun _ _ _ => throw .outOfFuel
  | fuel + 1 => fun unifying path rule => do
      let members := (← get).classes.members path
      let opened ← fillMembers p unifying rule members
      whenFeasible do
        if 1 < members.length then
          let arity ← attempt (p.grammar.arity rule)
          joinChildren (fillClass fuel) unifying members arity
        opened.forM fun path => whenFeasible (announce p (fillClass fuel) unifying path)

end BranchM

end TreeSearch
