import TreeSearch.Tree.Position

namespace TreeSearch.Tree

-- What it means for a template to match a complete tree: variables stand for subtrees,
-- the same name for the same one everywhere.
inductive MatchesUnder (value : String → Tree) : Tree → Tree → Prop
  | var {name : String} {t : Tree} (eq : value name = t) : MatchesUnder value (.var name) t
  | node {rule : Int} {parts children : List Tree} (length : parts.length = children.length)
      (below : ∀ (i : Nat) (part c : Tree),
        parts[i]? = some part → children[i]? = some c → MatchesUnder value part c) :
      MatchesUnder value (.node rule parts) (.node rule children)
  | choice {rules : Domain} {rule : Nat} {parts children : List Tree} (mem : rule ∈ rules)
      (length : parts.length = children.length)
      (below : ∀ (i : Nat) (part c : Tree),
        parts[i]? = some part → children[i]? = some c → MatchesUnder value part c) :
      MatchesUnder value (.choice rules parts) (.node rule children)

def Matches (template t : Tree) : Prop := ∃ value, MatchesUnder value template t

end TreeSearch.Tree
