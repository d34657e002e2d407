import TreeSearch.Constraint.Grammar

namespace TreeSearch.Grammar

-- Makes a category known before any rule produces it.
def declare (g : Grammar) (category : String) : Grammar :=
  if category ∈ g.categories then g
  else { g with categories := g.categories ++ [category], version := g.version + 1 }

-- The new rule's index is the number of rules before it. Its children must be of
-- known categories or of its own.
def add (g : Grammar) (category : String) (children : List String)
    (weight : Option Weight) (label : Option String) : Except Fault (Grammar × Nat) :=
  match children.find? fun child => child ≠ category && child ∉ g.categories with
  | some child => .error (.unknownChild label category child)
  | none =>
      let index := g.rules.length
      let rule : Rule := ⟨index, category, children, weight, label, false⟩
      let categories :=
        if category ∈ g.categories then g.categories else g.categories ++ [category]
      .ok ({ g with rules := g.rules ++ [rule], categories, version := g.version + 1 }, index)

-- The other rules keep their indices.
def remove (g : Grammar) (index : Int) : Except Fault Grammar := do
  let rule ← g.rule index
  if rule.removed then throw (.alreadyRemoved index)
  return { g with
    rules := g.rules.set index.toNat { rule with removed := true }, version := g.version + 1 }

-- Live rules get consecutive indices and stay in order.
def renumbering (g : Grammar) : Renumbering :=
  g.liveRules.mapIdx fun new rule => ((rule.index : Int), (new : Int))

def renumberConstraints (renumbering : Renumbering) :
    List Constraint → Except Fault (List Constraint)
  | [] => .ok []
  | c :: cs => do
      let new ← c.renumber renumbering
      return new.toList ++ (← renumberConstraints renumbering cs)

-- Drops removed rules, and the constraints that restrict nothing without them.
def compact (g : Grammar) : Except Fault (Grammar × Renumbering) := do
  let constraints ← renumberConstraints g.renumbering g.constraints
  let rules := g.liveRules.mapIdx fun new rule => { rule with index := new }
  return ({ g with rules, constraints, version := g.version + 1 }, g.renumbering)

-- Whether the constraint is new to the grammar.
def attach (g : Grammar) (c : Constraint) : Except Fault (Grammar × Bool) :=
  if !c.isValid g then .error (.invalidConstraint c)
  else if g.constraints.any (·.isSame c) then .ok (g, false)
  else .ok ({ g with constraints := g.constraints ++ [c], version := g.version + 1 }, true)

def clearConstraints (g : Grammar) : Grammar :=
  { g with constraints := [], version := g.version + 1 }

end TreeSearch.Grammar
