namespace TreeSearch

-- A weight is an integer, or a decimal number: its digits times a power of ten. A decimal
-- zero has a sign too.
inductive Weight where
  | whole (n : Int)
  | decimal (negative : Bool) (digits : Nat) (exponent : Int)
  deriving DecidableEq

structure Rule where
  index : Nat
  category : String
  children : List String
  weight : Option Weight
  label : Option String
  removed : Bool
  deriving DecidableEq

namespace Rule

def arity (rule : Rule) : Nat := rule.children.length

def isTerminal (rule : Rule) : Bool := rule.children.isEmpty

-- The label where there is one. Otherwise the category and the index stand for
-- the rule, with the child categories in parentheses.
def text (rule : Rule) : String :=
  match rule.label with
  | some label => label
  | none =>
      let head := rule.category ++ "#" ++ toString rule.index
      if rule.isTerminal then head
      else head ++ "(" ++ ", ".intercalate rule.children ++ ")"

end Rule

end TreeSearch
