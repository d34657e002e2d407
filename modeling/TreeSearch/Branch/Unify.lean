import TreeSearch.Branch.Narrow

namespace TreeSearch

-- Work that fills the hole at a path, and its whole class, with a rule. It is told
-- whether paths are being unified.
abbrev Filler := Bool → Path → Nat → BranchM Unit

-- The rules of the members of a class that are filled, each once.
def filledRules (members : List Tree) : List Int :=
  (members.filterMap fun t => match t with
    | .node r _ => some r
    | _ => none).eraseDups

-- The rules that all of some open positions may take.
def commonRules (members : List Tree) : Mask :=
  match members.filterMap Tree.domain? with
  | rules :: others => .only (others.foldl (· ∩ ·) rules)
  | [] => .except ∅

namespace BranchM

variable (fill : Filler)

-- Brings all members of a path's class into the same state.
def sync (unifying : Bool) (path : Path) : BranchM Unit := do
  let b ← get
  let members := b.classes.members path
  if members.length < 2 then return
  let trees ← attempt (members.mapM b.tree.get)
  match filledRules trees with
  | [] => narrow unifying path (commonRules trees)
  | [r] =>
      let rule ← attempt (bitOf r)
      narrow unifying path (.only {rule})
      whenFeasible (fill unifying path rule)
  | _ => fail

-- No subtree can be equal to a part of itself.
def equate (first second : Path) : BranchM Unit := do
  let _ ← nodeAt first
  let _ ← nodeAt second
  if !(← isFeasible) ∨ first = second then return
  if first.isPrefixOf second ∨ second.isPrefixOf first then fail
  else
    modify fun b => { b with classes := b.classes.unite first second }
    sync fill true first

-- Equal subtrees have equal children.
def joinChildren (unifying : Bool) (members : List Path) (arity : Nat) : BranchM Unit :=
  match members with
  | [] => return
  | anchor :: others => (List.range arity).forM fun index => whenFeasible do
      let step : Path := [(index : Int)]
      modify fun b => { b with
        classes := others.foldl (fun classes member =>
          classes.unite (anchor ++ step) (member ++ step)) b.classes }
      sync fill unifying (anchor ++ step)

end BranchM

end TreeSearch
