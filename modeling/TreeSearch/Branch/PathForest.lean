import TreeSearch.Table
import TreeSearch.Tree.Basic

namespace TreeSearch

-- Classes of paths, kept as a forest. A path that was united points towards the one that stands
-- for its class, and that one has the list of the members. A request has no result when the
-- way up from a path does not end.
structure PathForest where
  parents : Table Path Path
  members : Table Path (List Path)
  deriving DecidableEq

namespace PathForest

def empty : PathForest := ⟨.empty, .empty⟩

-- What a path points to. One that was never united points to itself.
def parent (parents : Table Path Path) (path : Path) : Path := (parents.get? path).getD path

-- Goes up as long as a path points to another one, and gives up when the steps are used up.
def climb (parents : Table Path Path) : Nat → Path → Option Path
  | 0, _ => none
  | steps + 1, path =>
      if parent parents path = path then some path else climb parents steps (parent parents path)

-- A way with more steps than there are entries comes by some path twice, and so has no end.
def top (parents : Table Path Path) (path : Path) : Option Path := climb parents (parents.size + 1) path

-- Makes the paths on the way up to the root point there directly, with a limit to the steps.
def shorten (root : Path) : Nat → Table Path Path → Path → Option (Table Path Path)
  | 0, _, _ => none
  | steps + 1, parents, path =>
      if path = root then some parents
      else do
        let next ← parents.get? path
        shorten root steps (parents.set path root) next

def compress (root : Path) (parents : Table Path Path) (path : Path) : Option (Table Path Path) :=
  shorten root (parents.size + 1) parents path

-- The path that stands for a class. The way there is short from then on.
def find (f : PathForest) (path : Path) : Option (Path × PathForest) := do
  let root ← top f.parents path
  let parents ← compress root f.parents path
  return (root, { f with parents })

def same (f : PathForest) (first second : Path) : Option (Bool × PathForest) := do
  let (a, f) ← f.find first
  let (b, f) ← f.find second
  return (decide (a = b), f)

-- The members of a root. One without a list is alone.
def membersAt (f : PathForest) (root : Path) : List Path := (f.members.get? root).getD [root]

-- The class of a path in the order of merging.
def listed (f : PathForest) (path : Path) : Option (List Path × PathForest) := do
  let (root, f) ← f.find path
  return ((f.members.get? root).getD [path], f)

-- Puts one root below another one, which gets the list of both classes.
def hang (f : PathForest) (root child : Path) (merged : List Path) : PathForest :=
  let members := (f.members.erase root).erase child
  ⟨(f.parents.setDefault root root).set child root, members.set root merged⟩

-- The larger class takes up the other one, and the first path's class when they are equally
-- large. Tells whether there were two.
def unite (f : PathForest) (first second : Path) : Option (Bool × PathForest) := do
  let (a, f) ← f.find first
  let (b, f) ← f.find second
  if a = b then return (false, f)
  let ours := f.membersAt a
  let theirs := f.membersAt b
  if ours.length < theirs.length then return (true, f.hang b a (theirs ++ ours))
  else return (true, f.hang a b (ours ++ theirs))

-- A copy has tables of its own.
def copy (f : PathForest) : PathForest := ⟨f.parents, f.members⟩

-- How many classes have several members.
def size (f : PathForest) : Nat := f.members.size

end PathForest

end TreeSearch
