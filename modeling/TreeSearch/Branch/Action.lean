import TreeSearch.Pattern.Match
import TreeSearch.Pattern.Template
import TreeSearch.Problem

namespace TreeSearch

-- What a watched constraint asks for in view of a tree. Each answer strikes only
-- rules that no tree can have which satisfies the constraint.
inductive Action where
  -- nothing is left to prune
  | retire
  -- no completion satisfies the constraint
  | fail
  -- keep the rules of a mask at a path
  | keep (path : Path) (mask : Mask)
  -- strike one rule at a path
  | strike (path : Path) (rule : Int)
  -- make two subtrees equal
  | equate (first second : Path)
  -- put the subtrees of these variables in order, and retire when that is settled
  | order (bindings : List Binding) (names : List String)
  deriving DecidableEq

-- A hole with the rules below which a target can still occur.
structure Host where
  path : Path
  rules : Domain
  viable : Domain
  deriving DecidableEq

-- The only host has to take one of its viable rules.
def Host.settle (host : Host) : List Action :=
  if host.viable = host.rules then [] else [.keep host.path (.only host.viable)]

-- A position that certainly has a rule.
def Tree.isCertain (rule : Int) (target : Domain) : Tree → Bool
  | .node r _ => r = rule
  | s => s.domain? = some target

namespace Problem

-- A hole as far as it can host a target rule.
def host? (p : Problem) (targets : Domain) (total : Cost) (path : Path) : Tree →
    Except Halt (Option Host)
  | .hole _ rules => do
      let viable ← p.hosts targets path rules total
      return if viable.isEmpty then none else some ⟨path, rules, viable⟩
  | _ => .ok none

-- The hosts among some positions, or nothing once a position certainly has the rule.
def hostsBefore (p : Problem) (rule : Int) (target : Domain) (total : Cost) :
    List (Path × Tree) → Except Halt (Option (List Host))
  | [] => .ok (some [])
  | (path, s) :: rest => do
      if s.isCertain rule target then return none
      let host ← p.host? target total path s
      return (← p.hostsBefore rule target total rest).map (host.toList ++ ·)

-- Satisfied when a position certainly has the rule. With one host left the rule must
-- occur there.
def containsActions (p : Problem) (t : Tree) (rule : Int) : Except Halt (List Action) := do
  let target ← (Domain.single rule).mapError .fault
  let total ← p.measure t
  match ← p.hostsBefore rule target total (t.positions []) with
  | none => return [.retire]
  | some [] => return [.fail]
  | some [host] => return host.settle
  | some _ => return []

-- The undecided matches at filled positions and the holes that can host a match, or
-- nothing once there is a match.
def candidates (p : Problem) (template : Tree) (targets : Domain) (total : Cost) :
    List (Path × Tree) → Except Halt (Option (List Findings × List Host))
  | [] => .ok (some ([], []))
  | (path, s) :: rest => do
      match ← (template.match? s (some p.grammar) path).mapError .fault with
      | .matched _ => return none
      | verdict =>
          let host ← p.host? targets total path s
          let found ← p.candidates template targets total rest
          return found.map fun (partials, hosts) => match s, verdict with
            | .hole .., _ => (partials, host.toList ++ hosts)
            | _, .undecided findings => (findings :: partials, hosts)
            | _, _ => (partials, hosts)

-- What it takes for an undecided match to come true.
def enforce (found : Findings) : List Action :=
  found.requirements.map (fun r => .keep r.path (.only r.rules)) ++
    found.equalities.map fun (first, second) => .equate first second

-- Satisfied by a match. With one undecided match or one host left, the match must
-- come about there.
def containsSubtreeActions (p : Problem) (t template : Tree) : Except Halt (List Action) := do
  let targets := (← (template.rootRules?).mapError .fault).getD ∅
  let total ← p.measure t
  match ← p.candidates template targets total (t.positions []) with
  | none => return [.retire]
  | some ([], []) => return [.fail]
  | some ([found], []) => return enforce found
  | some ([], [host]) => return host.settle
  | some _ => return []

-- A requirement that alone decides the match must not be met. Striking it settles
-- the constraint.
def forbiddenActions (p : Problem) (t : Tree) (path : Path) (template : Tree) :
    Except Fault (List Action) := do
  match ← template.match? (← t.get path) (some p.grammar) path with
  | .refuted => return [.retire]
  | .matched _ => return [.fail]
  | verdict => match verdict.soleRequirement? with
      | some r => return [.retire, .keep r.path (.except r.rules)]
      | none => return []

def orderedActions (p : Problem) (t : Tree) (path : Path) (template : Tree)
    (names : List String) : Except Fault (List Action) := do
  match ← template.match? (← t.get path) (some p.grammar) path with
  | .refuted => return [.retire]
  | .matched bindings => return [.order bindings names]
  | .undecided _ => return []

end Problem

-- The rules on the way down a path.
def Tree.rulesAlong : Tree → Path → List Int
  | .node r cs, i :: path => r :: match (Tree.node r cs).child? i with
      | some c => c.rulesAlong path
      | none => []
  | _, _ => []

-- Whether the rules upwards hold a sequence, last element first, before a rule to
-- ignore comes. Taking the nearest place of each element leaves the least room in
-- between.
def climbs (ignore : List Int) : List Int → List Int → Bool
  | [], _ => true
  | _ :: _, [] => false
  | r :: sequence, rule :: above =>
      if rule = r then climbs ignore sequence above
      else if rule ∈ ignore then false
      else climbs ignore (r :: sequence) above

-- Everything above a position is decided, so one look settles the constraint there.
def forbiddenSequenceActions (t : Tree) (path : Path) (sequence ignore : List Int) :
    Except Fault (List Action) := do
  let s ← t.get path
  let some last := sequence.getLast? | throw .emptySequence
  let possible ← match s with
    | .node r _ => .ok (decide (r = last))
    | s => (s.domain?.getD ∅).has last
  let above := (t.rulesAlong path).reverse
  if possible && climbs ignore sequence.dropLast.reverse above then
    if s.decided? = some last then return [.fail]
    return [.retire, .strike path last]
  return [.retire]

-- Once the rule is certain somewhere, it is struck everywhere else.
def uniqueActions (t : Tree) (rule : Int) : Except Fault (List Action) := do
  let target ← Domain.single rule
  match ((t.positions []).filter (·.2.isCertain rule target)).length with
  | 0 => return []
  | 1 =>
      let others := t.holes.filter fun (_, _, rules) => rules ≠ target ∧ rule.toNat ∈ rules
      return others.map fun (path, _, _) => .strike path rule
  | _ => return [.fail]

-- One look settles the constraint at a position. A rule that cannot stand there, as no
-- negative one can, need not be struck.
def rootOnlyActions (t : Tree) (path : Path) (rule : Int) : Except Fault (List Action) := do
  match ← t.get path with
  | .node r _ => return if r = rule then [.retire, .fail] else [.retire]
  | s =>
      let possible := 0 ≤ rule ∧ rule.toNat ∈ s.domain?.getD ∅
      return if possible then [.retire, .strike path rule] else [.retire]

-- The actions of a watched constraint.
def Watch.actions (p : Problem) (t : Tree) (w : Watch) : Except Halt (List Action) :=
  match w.constraint with
  | .forbidden template => (p.forbiddenActions t w.path template).mapError .fault
  | .contains rule => p.containsActions t rule
  | .containsSubtree template => p.containsSubtreeActions t template
  | .ordered template names => (p.orderedActions t w.path template names).mapError .fault
  | .forbiddenSequence sequence ignore =>
      (forbiddenSequenceActions t w.path sequence ignore).mapError .fault
  | .unique rule => (uniqueActions t rule).mapError .fault
  | .rootOnly rule => (rootOnlyActions t w.path rule).mapError .fault

-- What a constraint of the grammar has to watch at a new position: templates where
-- they can match, sequences everywhere, the root rule below the root, and the other
-- constraints at the root. A bare variable occurs in every tree.
def Constraint.watchAt (p : Problem) (t : Tree) (path : Path) (c : Constraint) :
    Except Fault (Option Watch) := do
  match c with
  | .forbidden template | .ordered template _ =>
      let verdict ← template.match? (← t.get path) (some p.grammar) path
      return if verdict = .refuted then none else some ⟨path, c⟩
  | .containsSubtree template =>
      if !path.isEmpty then return none
      return (← template.rootRules?).map fun _ => ⟨path, c⟩
  | .contains _ | .unique _ => return if path.isEmpty then some ⟨path, c⟩ else none
  | .forbiddenSequence .. => return some ⟨path, c⟩
  | .rootOnly _ => return if path.isEmpty then none else some ⟨path, c⟩

end TreeSearch
