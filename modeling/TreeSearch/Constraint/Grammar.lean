import TreeSearch.Pattern.Template

namespace TreeSearch.Constraint

-- The rules a constraint names are live, and so are those of its templates.
def isValid (g : Grammar) : Constraint → Bool
  | forbidden template | containsSubtree template => template.isTemplate g
  | contains rule | unique rule | rootOnly rule => g.isLive rule
  | ordered template names =>
      2 ≤ names.length && names.all (· ∈ template.variableNames) && template.isTemplate g
  | forbiddenSequence sequence ignore =>
      !sequence.isEmpty && (sequence ++ ignore).all g.isLive

-- Whether a constraint makes another one superfluous. Constraints on the root are
-- never taken for duplicates.
def isSame : Constraint → Constraint → Bool
  | rootOnly _, _ => false
  | c, d => c = d

-- The constraint under new indices, or nothing when it cannot restrict any tree any
-- more. One that cannot be met any more is refused.
def renumber (renumbering : Renumbering) : Constraint → Except Fault (Option Constraint)
  | forbidden template => return (← template.renumber renumbering).map forbidden
  | contains rule => match renumbering.new? rule with
      | some new => .ok (some (contains new))
      | none => .error (.needsRemovedRule (contains rule))
  | containsSubtree template => do
      match ← template.renumber renumbering with
      | some new => return some (containsSubtree new)
      | none => throw (.needsRemovedRule (containsSubtree template))
  | ordered template names => return (← template.renumber renumbering).map (ordered · names)
  | forbiddenSequence sequence ignore =>
      .ok ((sequence.mapM renumbering.new?).map
        (forbiddenSequence · (ignore.filterMap renumbering.new?)))
  | unique rule => .ok ((renumbering.new? rule).map unique)
  | rootOnly rule => .ok (some (rootOnly rule))

-- The rules of which one has to occur for the constraint to hold, where it is about that.
def targets? : Constraint → Option Domain
  | contains rule => (Domain.single rule).toOption
  | containsSubtree template => (template.rootRules?).toOption.bind id
  | _ => none

end TreeSearch.Constraint
