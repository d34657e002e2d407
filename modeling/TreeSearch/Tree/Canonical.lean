import TreeSearch.Tree.Position

namespace TreeSearch.Tree

-- The canonical order of complete trees: by the rules at the roots, and then by the
-- first children that differ.
inductive Before : Tree → Tree → Prop
  | root {r q : Int} {cs ds : List Tree} (lt : r < q) : Before (.node r cs) (.node q ds)
  | child {r : Int} {same cs ds : List Tree} {c d : Tree} (lt : Before c d) :
      Before (.node r (same ++ c :: cs)) (.node r (same ++ d :: ds))

def UpTo (s t : Tree) : Prop := s = t ∨ Before s t

end TreeSearch.Tree
