namespace TreeSearch

-- A queue without duplicates, first in and first out. Taking an item back leaves its
-- place in the line behind, where it is passed over, or used again when the item
-- comes back before its turn.
structure Worklist (α : Type) where
  line : List α
  pending : List α
  deriving DecidableEq

namespace Worklist

variable {α : Type} [DecidableEq α]

def empty : Worklist α := ⟨[], []⟩

def contains (w : Worklist α) (a : α) : Bool := a ∈ w.pending

def add (w : Worklist α) (a : α) : Worklist α :=
  if a ∈ w.pending then w else ⟨w.line ++ [a], w.pending ++ [a]⟩

def addAll (w : Worklist α) (items : List α) : Worklist α := items.foldl add w

def remove (w : Worklist α) (a : α) : Worklist α := { w with pending := w.pending.erase a }

-- Adds an item, and tells whether it was new.
def offer (w : Worklist α) (a : α) : Bool × Worklist α :=
  if a ∈ w.pending then (false, w) else (true, w.add a)

-- Takes an item back, and tells whether it was there.
def withdraw (w : Worklist α) (a : α) : Bool × Worklist α :=
  if a ∈ w.pending then (true, w.remove a) else (false, w)

-- The first pending item of a line, and the line behind it.
def next? (pending : List α) : List α → Option (α × List α)
  | [] => none
  | a :: line => if a ∈ pending then some (a, line) else next? pending line

-- When nothing is pending, the places that were left behind go too.
def pop (w : Worklist α) : Option α × Worklist α :=
  match next? w.pending w.line with
  | some (a, line) => (some a, ⟨line, w.pending.erase a⟩)
  | none => (none, ⟨[], w.pending⟩)

-- A copy has no places of items that are gone.
def copy (w : Worklist α) : Worklist α := { w with line := w.line.filter (· ∈ w.pending) }

def size (w : Worklist α) : Nat := w.pending.length

def isEmpty (w : Worklist α) : Bool := w.pending.isEmpty

end Worklist

end TreeSearch
