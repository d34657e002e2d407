import TreeSearch.Text.Quoted

namespace TreeSearch.Text

-- One text made of several. It stays folded, as no proof has a use for the characters.
@[irreducible]
def joined (parts : List String) : String := String.join parts

-- The least number with more digits than are written.
def digitLimit : Nat := Nat.pow (Nat.pow 10 215) 20

def isWritable (number : Int) : Bool := number.natAbs < digitLimit

def bracketed (items : List String) : String :=
  "[" ++ ", ".intercalate items ++ "]"

def integers (items : List Int) : String := bracketed (items.map toString)

def rules (items : List Nat) : String := bracketed (items.map toString)

def strings (items : List String) : String := bracketed (items.map quoted)

def parenthesized : List String → String
  | [item] => "(" ++ item ++ ",)"
  | items => "(" ++ ", ".intercalate items ++ ")"

def path (steps : List Int) : String := parenthesized (steps.map toString)

end TreeSearch.Text
