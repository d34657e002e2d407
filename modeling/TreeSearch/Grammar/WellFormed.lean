import TreeSearch.Domain.Mask
import TreeSearch.Grammar.Basic
import TreeSearch.Tree.Node
import TreeSearch.Tree.Refines

namespace TreeSearch.Grammar

-- A live rule of a category.
def Produces (g : Grammar) (rule : Int) (category : String) : Prop :=
  ∃ r, g.rule? rule = some r ∧ r.removed = false ∧ r.category = category

-- Trees that respect a grammar. Where a category is expected the root has to produce
-- it, and below a rule each child has to produce its own.
inductive WellFormed (g : Grammar) : Option String → Tree → Prop
  | hole {expected : Option String} {category : String} {rules : Domain}
      (known : category ∈ g.categories) (fits : ∀ c ∈ expected, category = c)
      (live : ∀ r : Nat, r ∈ rules → g.Produces r category) :
      WellFormed g expected (.hole category rules)
  | node {expected : Option String} {index : Int} {rule : Rule} {children : List Tree}
      (found : g.rule? index = some rule) (live : rule.removed = false)
      (fits : ∀ c ∈ expected, rule.category = c) (arity : children.length = rule.children.length)
      (below : ∀ (i : Nat) (category : String) (c : Tree),
        rule.children[i]? = some category → children[i]? = some c →
          WellFormed g (some category) c) :
      WellFormed g expected (.node index children)

-- The same of what is handed in. Rules that are finitely many are never all there are, so the
-- rules of an open position come from a number that is not negative.
inductive Respects (g : Grammar) : Option String → Node → Prop
  | hole {expected : Option String} {category : String} {domain : Int}
      (known : category ∈ g.categories) (fits : ∀ c ∈ expected, category = c)
      (live : ∀ r : Nat, r ∈ Mask.ofInt domain → g.Produces r category) :
      Respects g expected (.hole category domain)
  | node {expected : Option String} {index : Int} {rule : Rule} {children : List Node}
      (found : g.rule? index = some rule) (live : rule.removed = false)
      (fits : ∀ c ∈ expected, rule.category = c) (arity : children.length = rule.children.length)
      (below : ∀ (i : Nat) (category : String) (c : Node),
        rule.children[i]? = some category → children[i]? = some c →
          Respects g (some category) c) :
      Respects g expected (.node index children)

-- The complete trees of a category.
def Derives (g : Grammar) (category : String) (t : Tree) : Prop :=
  g.WellFormed (some category) t ∧ t.Complete

end TreeSearch.Grammar
