import TreeSearch.Tree.Position

namespace TreeSearch.Tree

-- How an unfinished tree becomes more definite: holes lose rules or take one of those
-- they have, and what is decided stays.
inductive Refines : Tree → Tree → Prop
  | narrowed {category : String} {finer coarser : Domain} (sub : ∀ r ∈ finer, r ∈ coarser) :
      Refines (.hole category finer) (.hole category coarser)
  | filled {category : String} {rules : Domain} {rule : Nat} {children : List Tree}
      (mem : rule ∈ rules) : Refines (.node rule children) (.hole category rules)
  | node {rule : Int} {finer coarser : List Tree} (length : finer.length = coarser.length)
      (below : ∀ (i : Nat) (s t : Tree), finer[i]? = some s → coarser[i]? = some t → Refines s t) :
      Refines (.node rule finer) (.node rule coarser)
  | choice (rules : Domain) (parts : List Tree) : Refines (.choice rules parts) (.choice rules parts)
  | var (name : String) : Refines (.var name) (.var name)

-- Every position has a rule.
inductive Complete : Tree → Prop
  | node {rule : Int} {children : List Tree} (below : ∀ c ∈ children, Complete c) :
      Complete (.node rule children)

end TreeSearch.Tree
