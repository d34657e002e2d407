import TreeSearch.Branch.Basic

namespace TreeSearch.BranchM

-- A rule that is decided must be kept, and a hole must keep a rule. Otherwise the
-- branch fails and its tree stays as it is.
def narrowOne (unifying : Bool) (mask : Mask) (path : Path) : BranchM Unit := do
  match ← nodeAt path with
  | .node r _ => if !(← attempt (mask.has r)) then fail
  | .hole category rules =>
      let kept := rules.restrict mask
      if kept = rules then return
      else if kept.isEmpty then fail
      else edit unifying path (.hole category kept) fun s =>
        { s with narrowings := s.narrowings + 1 }
  | _ => return

def narrow (unifying : Bool) (path : Path) (mask : Mask) : BranchM Unit := do
  let _ ← nodeAt path
  ((← get).classes.members path).forM fun member => whenFeasible (narrowOne unifying mask member)

-- Strikes one rule.
def strike (unifying : Bool) (path : Path) (rule : Int) : BranchM Unit := do
  narrow unifying path (.except (← attempt (Domain.single rule)))

-- Strikes several rules.
def strikeAll (path : Path) (rules : List Int) : BranchM Unit := do
  narrow false path (.except (← attempt (Domain.ofRules rules)))

-- Keeps no rules but these.
def keepAll (path : Path) (rules : List Int) : BranchM Unit := do
  narrow false path (.only (← attempt (Domain.ofRules rules)))

-- Strikes the rules with larger indices.
def strikeAbove (unifying : Bool) (path : Path) (rule : Int) : BranchM Unit := do
  narrow unifying path (← attempt (Mask.upTo rule))

-- Strikes the rules with smaller indices.
def strikeBelow (unifying : Bool) (path : Path) (rule : Int) : BranchM Unit := do
  narrow unifying path (← attempt (Mask.onwards rule))

end TreeSearch.BranchM
