import TreeSearch.Grammar.Draft
import TreeSearch.Table

namespace TreeSearch

-- Grammars as they are kept. For each category the indices of the rules that produce it are listed,
-- removed ones too. An edit changes the parts of a store one after the other, and what it has changed
-- before a fault stays changed.
structure Store where
  rules : List Rule
  categories : Table String (List Nat)
  constraints : List Constraint
  version : Nat
  deriving DecidableEq

abbrev StoreM := EStateM Fault Store

def StoreM.attempt (result : Except Fault α) : StoreM α :=
  match result with
  | .ok a => pure a
  | .error fault => throw fault

namespace Store

def empty : Store := ⟨[], .empty, [], 0⟩

-- The grammar without its lists.
def grammar (s : Store) : Grammar := ⟨s.rules, s.categories.keys, s.constraints, s.version⟩

section Queries

variable (s : Store)

-- Those of some indices whose rules are live.
def liveAmong : List Nat → Except Fault (List Nat)
  | [] => .ok []
  | i :: indices => do
      let rule ← s.grammar.rule i
      let live ← liveAmong indices
      return if rule.removed then live else i :: live

def rulesFor (category : String) : Except Fault (List Nat) :=
  match s.categories.get? category with
  | some indices => s.liveAmong indices
  | none => .error (.unknownCategory category)

def domainFor (category : String) : Except Fault Domain :=
  return Domain.ofList (← s.rulesFor category)

def liveDomain : Domain := s.grammar.liveDomain

end Queries

def touch : StoreM Unit := modify fun s => { s with version := s.version + 1 }

def declare (category : String) : StoreM Unit := do
  if category ∉ (← get).categories.keys then
    modify fun s => { s with categories := s.categories.set category [] }
    touch

-- Puts a rule at the end of the list of its category.
def list (category : String) (index : Nat) : StoreM Unit :=
  modify fun s =>
    let indices := (s.categories.get? category).getD []
    { s with categories := s.categories.set category (indices ++ [index]) }

def add (p : Production) : StoreM Nat := do
  let known := (← get).categories.keys
  if let some child := p.children.find? fun child => child ≠ p.category && child ∉ known then
    throw (.unknownChild p.label p.category child)
  let index := (← get).rules.length
  let rule : Rule := ⟨index, p.category, p.children, p.weight, p.label, false⟩
  modify fun s => { s with rules := s.rules ++ [rule] }
  list p.category index
  touch
  return index

def remove (index : Int) : StoreM Unit := do
  let rule ← StoreM.attempt ((← get).grammar.rule index)
  if rule.removed then throw (.alreadyRemoved index)
  modify fun s => { s with rules := s.rules.set index.toNat { rule with removed := true } }
  touch

-- Live rules get consecutive indices, by their old ones.
def numbering (rules : List Rule) : Table Nat Nat :=
  rules.foldl (fun mapping rule => if rule.removed then mapping else mapping.set rule.index mapping.size)
    .empty

def renumbering (mapping : Table Nat Nat) : Renumbering :=
  mapping.entries.map fun (old, new) => ((old : Int), (new : Int))

def renumbered (mapping : Table Nat Nat) (rule : Rule) : Except Fault Rule :=
  match mapping.get? rule.index with
  | some index => .ok { rule with index }
  | none => .error (.noSuchRule rule.index)

-- The constraints and the rules are all rewritten before the first part of the store changes.
def compact : StoreM (Table Nat Nat) := do
  let s ← get
  let mapping := numbering s.rules
  let constraints ← StoreM.attempt (Grammar.renumberConstraints (renumbering mapping) s.constraints)
  let rules ← StoreM.attempt ((s.rules.filter (!·.removed)).mapM (renumbered mapping))
  modify fun s => { s with rules }
  modify fun s => { s with
    categories := s.categories.mapValues fun _ indices => indices.filterMap mapping.get? }
  modify fun s => { s with constraints }
  touch
  return mapping

def attach (c : Constraint) : StoreM Bool := do
  let g := (← get).grammar
  if !c.isValid g then throw (.invalidConstraint c)
  if g.constraints.any (·.isSame c) then return false
  modify fun s => { s with constraints := s.constraints ++ [c] }
  touch
  return true

def clearConstraints : StoreM Unit := do
  modify fun s => { s with constraints := [] }
  touch

-- What a draft becomes, in a store of its own.
def fill (draft : Draft) : StoreM Unit := do
  draft.categories.forM declare
  draft.productions.forM fun p => discard (add p)
  draft.constraints.forM fun c => discard (attach c)

def build (draft : Draft) : Except Fault Store :=
  match (fill draft).run empty with
  | .ok () s => .ok s
  | .error fault _ => .error fault

end Store

end TreeSearch
