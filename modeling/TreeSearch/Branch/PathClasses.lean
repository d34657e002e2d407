import TreeSearch.Tree.Basic

namespace TreeSearch

-- Classes of paths whose subtrees have to be equal. A class lists its members in the
-- order of merging and has at least two. Every other path is a class of its own.
structure PathClasses where
  classes : List (List Path)
  deriving DecidableEq

namespace PathClasses

def empty : PathClasses := ⟨[]⟩

def members (c : PathClasses) (path : Path) : List Path :=
  (c.classes.find? (path ∈ ·)).getD [path]

-- The first member stands for the class.
def representative (c : PathClasses) (path : Path) : Path :=
  (c.members path).head?.getD path

def same (c : PathClasses) (first second : Path) : Bool :=
  c.representative first = c.representative second

-- The larger class comes first, and the first path's class when they are equally large.
def unite (c : PathClasses) (first second : Path) : PathClasses :=
  if c.same first second then c
  else
    let ours := c.members first
    let theirs := c.members second
    let merged := if ours.length < theirs.length then theirs ++ ours else ours ++ theirs
    ⟨merged :: c.classes.filter fun k => first ∉ k ∧ second ∉ k⟩

def size (c : PathClasses) : Nat := c.classes.length

end PathClasses

end TreeSearch
