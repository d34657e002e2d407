import TreeSearch.Domain.Checked

namespace TreeSearch

namespace Tree

def get? : Tree → Path → Option Tree
  | t, [] => some t
  | t, i :: path => match t.child? i with
      | some c => c.get? path
      | none => none

-- The number of steps that lead to a node before one does not.
def reach : Tree → Path → Nat
  | _, [] => 0
  | t, i :: path => match t.child? i with
      | some c => c.reach path + 1
      | none => 0

def get (t : Tree) (path : Path) : Except Fault Tree :=
  match t.get? path with
  | some s => .ok s
  | none => .error (.invalidPath path (t.reach path))

-- A hole with more than one rule left.
def openHole (t : Tree) (path : Path) : Except Fault Tree := do
  match ← t.get path with
  | .hole category d =>
      if 2 ≤ d.size then return .hole category d else .error (.notUndecided path)
  | _ => .error (.notUndecided path)

-- Only the nodes above the path are built anew. A fault names what is left of the
-- path where it cannot be followed.
def replace : Tree → Path → Tree → Except Fault Tree
  | _, [], s => .ok s
  | .node r cs, i :: path, s => match (Tree.node r cs).child? i with
      | some c => return .node r (cs.set i.toNat (← c.replace path s))
      | none => .error (.noNode (i :: path))
  | _, i :: path, _ => .error (.noNode (i :: path))

mutual

-- The positions of a tree that itself stands at the given path, each with its
-- subtree: parents before children, and children from left to right.
def positions (path : Path) : Tree → List (Path × Tree)
  | .node r cs => (path, .node r cs) :: positionsBelow path 0 cs
  | .hole category d => [(path, .hole category d)]
  | .choice d cs => [(path, .choice d cs)]
  | .var name => [(path, .var name)]

def positionsBelow (path : Path) (index : Nat) : List Tree → List (Path × Tree)
  | [] => []
  | c :: cs => positions (path ++ [(index : Int)]) c ++ positionsBelow path (index + 1) cs

end

-- The category and the rules of each hole, with its path.
def holes (t : Tree) : List (Path × String × Domain) :=
  (t.positions []).filterMap fun (path, s) => match s with
    | .hole category d => some (path, category, d)
    | _ => none

def firstHole? (t : Tree) : Option Path := t.holes.head?.map (·.1)

def isComplete (t : Tree) : Bool := t.holes.isEmpty

-- The leftmost of the holes nearest to the root. A hole further on replaces the one
-- at hand only when it is strictly nearer.
def nearestHole? (t : Tree) : Option Path :=
  (t.holes.map (·.1)).foldl (fun best path => match best with
    | some found => if path.length < found.length then some path else some found
    | none => some path) none

-- A hole counts as one node.
def size (t : Tree) : Nat := (t.positions []).length

mutual

-- The number of levels. A tree without children has one.
def depth : Tree → Nat
  | .node _ cs => depthBelow cs + 1
  | _ => 1

def depthBelow : List Tree → Nat
  | [] => 0
  | c :: cs => max c.depth (depthBelow cs)

end

def decidedRule (t : Tree) : Except Fault Int :=
  match t.decided? with
  | some r => .ok r
  | none => .error (.undecided t)

-- A hole and a choice given by their rules.
def holeOf (category : String) (rules : List Int) : Except Fault Tree :=
  return .hole category (← Domain.ofRules rules)

def choiceOf (rules : List Int) (children : List Tree) : Except Fault Tree :=
  return .choice (← Domain.ofBits rules) children

end Tree

end TreeSearch
