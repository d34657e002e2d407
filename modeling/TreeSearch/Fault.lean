import TreeSearch.Constraint.Basic
import TreeSearch.Domain.Mask
import TreeSearch.Grammar.Rule

namespace TreeSearch

-- What can be wrong with a request. A branch without any tree left is no fault.
inductive Fault where
  -- malformed rules, grammars and trees
  | unknownChild (label : Option String) (category child : String)
  | alreadyRemoved (index : Int)
  | noSuchRule (index : Int)
  | unknownCategory (category : String)
  | wrongHole (category required : String)
  | strayRules (rules : List Nat) (category : String)
  | notATree (part : String)
  | deadRule (rule : Int)
  | wrongCategory (rule : Rule) (required : String)
  | wrongArity (rule : Rule) (children : Nat)
  | undecided (part : Tree)
  | unknownStart (category : String)
  | needsRemovedRule (constraint : Constraint)
  -- constraints that name what the grammar does not have
  | invalidConstraint (constraint : Constraint)
  -- paths to nothing, or to the wrong kind of node
  | invalidPath (path : Path) (depth : Nat)
  | noNode (path : Path)
  | notUndecided (path : Path)
  | notAHole (path : Path)
  | alreadyFilled (path : Path)
  -- values out of range
  | depthBound (bound : Int)
  | sizeBound (bound : Int)
  | negativeRule (rule : Int)
  | negativeShift
  | emptyDomain
  | emptySequence
  | tooManyDigits
  | infiniteInteger
  | undefinedInteger
  -- names that are looked up and not found
  | unknownLabel (label : String)
  | unknownStrategy (name : String)
  | unboundVariable (name : String)
  deriving DecidableEq

namespace Fault

inductive Kind where
  | structural
  | constraint
  | path
  | value
  | key
  | index
  | overflow
  deriving DecidableEq

def kind : Fault → Kind
  | unknownChild .. | alreadyRemoved _ | noSuchRule _ | unknownCategory _ | wrongHole ..
  | strayRules .. | notATree _ | deadRule _ | wrongCategory .. | wrongArity .. | undecided _
  | unknownStart _ | needsRemovedRule _ => .structural
  | invalidConstraint _ => .constraint
  | invalidPath .. | noNode _ | notUndecided _ | notAHole _ | alreadyFilled _ => .path
  | depthBound _ | sizeBound _ | negativeRule _ | negativeShift | emptyDomain | tooManyDigits
  | undefinedInteger => .value
  | unknownLabel _ | unknownStrategy _ | unboundVariable _ => .key
  | emptySequence => .index
  | infiniteInteger => .overflow

-- The label of a rule in quotes, or its category where the label is missing or empty.
def ruleName (label : Option String) (category : String) : String :=
  Text.quoted (match label with
    | some text => if text.isEmpty then category else text
    | none => category)

def words : Fault → List String
  | unknownChild label category child =>
      ["rule ", ruleName label category, " refers to unknown category ", Text.quoted child]
  | alreadyRemoved index => ["rule ", toString index, " is already removed"]
  | noSuchRule index => ["rule index ", toString index, " out of range"]
  | unknownCategory category => ["unknown category ", Text.quoted category]
  | wrongHole category required =>
      ["hole of category ", Text.quoted category, " where ", Text.quoted required, " is required"]
  | strayRules rules category =>
      ["hole domain ", Text.rules rules, " has rules outside ", Text.quoted category]
  | notATree part => [part, " is not a tree node"]
  | deadRule rule => ["rule ", toString rule, " is not a live rule"]
  | wrongCategory rule required =>
      ["rule ", rule.text, " produces ", Text.quoted rule.category, " where ",
        Text.quoted required, " is required"]
  | wrongArity rule children =>
      ["rule ", rule.text, " expects ", toString rule.arity, " children, got ", toString children]
  | undecided part => [part.text, " has no single rule"]
  | unknownStart category => ["unknown start category ", Text.quoted category]
  | needsRemovedRule constraint => [constraint.text, " needs a removed rule"]
  | invalidConstraint constraint => [constraint.text, " is not valid for this grammar"]
  | invalidPath path depth =>
      ["path ", Text.path path, " is invalid at depth ", toString depth]
  | noNode path => ["no node at path ", Text.path path]
  | notUndecided path => ["node at ", Text.path path, " is not an undecided hole"]
  | notAHole path => ["node at ", Text.path path, " is not a hole"]
  | alreadyFilled path => ["node at ", Text.path path, " is already filled"]
  | depthBound bound => ["max_depth must be >= 1, got ", toString bound]
  | sizeBound bound => ["max_size must be >= 1, got ", toString bound]
  | negativeRule rule => ["rule index must be non-negative, got ", toString rule]
  | negativeShift => ["negative shift count"]
  | emptyDomain => ["empty domain has no rules"]
  | emptySequence => ["tuple index out of range"]
  | tooManyDigits => ["Exceeds the limit (4300 digits) for integer string conversion; ",
      "use sys.set_int_max_str_digits() to increase the limit"]
  | infiniteInteger => ["cannot convert float infinity to integer"]
  | undefinedInteger => ["cannot convert float NaN to integer"]
  | unknownLabel label => [Text.quoted label]
  | unknownStrategy name => [Text.quoted name]
  | unboundVariable name => [Text.quoted name]

def message (fault : Fault) : String := Text.joined fault.words

-- A complaint that names numbers can only be made when they can be written.
def naming (fault : Fault) (numbers : List Int) : Fault :=
  if numbers.all Text.isWritable then fault else tooManyDigits

end Fault

-- A run that ends early: by a fault, because a number is too large to be set against infinity,
-- or because it has used up the steps it was given.
inductive Halt where
  | fault (fault : Fault)
  | overflow
  | outOfFuel
  deriving DecidableEq

end TreeSearch
