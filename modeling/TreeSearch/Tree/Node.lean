import TreeSearch.Tree.Basic

namespace TreeSearch

-- Trees and templates as they are handed in. Any integer may stand where rules are expected,
-- and nothing else is known of the parts before they are checked.
inductive Node where
  | node (rule : Int) (children : List Node)
  | hole (category : String) (domain : Int)
  | choice (domain : Int) (children : List Node)
  | var (name : String)

namespace Node

-- Induction over a node, with the statement known of every child.
theorem induction {motive : Node → Prop}
    (node : ∀ rule children, (∀ child ∈ children, motive child) → motive (.node rule children))
    (hole : ∀ category domain, motive (.hole category domain))
    (choice : ∀ domain children, (∀ child ∈ children, motive child) →
      motive (.choice domain children))
    (var : ∀ name, motive (.var name)) (n : Node) : motive n :=
  @Node.rec motive (fun children => ∀ child ∈ children, motive child) node hole choice var
    (fun _ h => nomatch h)
    (fun _ _ first rest child h => match h with
      | .head _ => first
      | .tail _ h => rest child h)
    n

mutual

def ofTree : Tree → Node
  | .node r cs => .node r (ofTrees cs)
  | .hole category d => .hole category d.bits
  | .choice d cs => .choice d.bits (ofTrees cs)
  | .var name => .var name

def ofTrees : List Tree → List Node
  | [] => []
  | t :: ts => ofTree t :: ofTrees ts

end

mutual

-- Every part by name, with rule sets as the numbers that store them.
def fullText : Node → String
  | .node r cs => Text.joined
      ["RuleNode(rule=", toString r, ", children=", Text.parenthesized (fullTexts cs), ")"]
  | .hole category d => Text.joined
      ["Hole(category=", Text.quoted category, ", domain=", toString d, ")"]
  | .choice d cs => Text.joined
      ["DomainRuleNode(domain=", toString d, ", children=", Text.parenthesized (fullTexts cs), ")"]
  | .var name => Text.joined ["VarNode(name=", Text.quoted name, ")"]

def fullTexts : List Node → List String
  | [] => []
  | n :: ns => fullText n :: fullTexts ns

end

mutual

-- The numbers in the full text.
def numbers : Node → List Int
  | .node r cs => r :: numbersIn cs
  | .hole _ d => [d]
  | .choice d cs => d :: numbersIn cs
  | .var _ => []

def numbersIn : List Node → List Int
  | [] => []
  | n :: ns => numbers n ++ numbersIn ns

end

mutual

-- The rule sets of the open positions.
def openDomains : Node → List Int
  | .node _ cs => openDomainsIn cs
  | .hole _ d => [d]
  | _ => []

def openDomainsIn : List Node → List Int
  | [] => []
  | n :: ns => openDomains n ++ openDomainsIn ns

end

theorem ofTrees_eq (ts : List Tree) : ofTrees ts = ts.map ofTree := by
  induction ts with
  | nil => rfl
  | cons t ts ih => rw [ofTrees, ih, List.map_cons]

end Node

end TreeSearch
