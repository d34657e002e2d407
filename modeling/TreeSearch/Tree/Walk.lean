import TreeSearch.Tree.Position

namespace TreeSearch.Tree

-- Puts children in front of what waits. The last one is put there first, so the first one
-- comes next.
def push (path : Path) (index : Nat) (pending : List (Path × Tree)) :
    List Tree → List (Path × Tree)
  | [] => pending
  | c :: cs => (path ++ [(index : Int)], c) :: push path (index + 1) pending cs

-- How much is left to visit.
noncomputable def unvisited : List (Path × Tree) → Nat
  | [] => 0
  | (_, t) :: pending => sizeOf t + unvisited pending

theorem unvisited_push_lt (path : Path) (index : Nat) (pending : List (Path × Tree))
    (cs : List Tree) : unvisited (push path index pending cs) < sizeOf cs + unvisited pending := by
  induction cs generalizing index with
  | nil => simp [push]
  | cons c cs ih =>
      have := ih (index + 1)
      simp only [unvisited, push, List.cons.sizeOf_spec]
      omega

theorem sizeOf_children_le (t : Tree) : sizeOf t.children ≤ sizeOf t := by
  cases t <;> simp only [children, node.sizeOf_spec, hole.sizeOf_spec, choice.sizeOf_spec,
    var.sizeOf_spec, List.nil.sizeOf_spec] <;> omega

-- The position that was put there last is visited first, so all below it is done before what
-- waits behind it.
def walkPending : List (Path × Tree) → List (Path × Tree)
  | [] => []
  | (path, t) :: pending => (path, t) :: walkPending (push path 0 pending t.children)
termination_by pending => unvisited pending
decreasing_by
  have := unvisited_push_lt path 0 pending t.children
  have := t.sizeOf_children_le
  rw [unvisited]
  omega

-- The positions of a tree that itself stands at the given path.
def walk (t : Tree) (path : Path) : List (Path × Tree) := walkPending [(path, t)]

end TreeSearch.Tree
