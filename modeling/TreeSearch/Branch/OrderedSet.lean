namespace TreeSearch

-- Sets that list their members in the order of arrival. A member that is inserted
-- again keeps its place, and one that was erased comes last when it returns.
structure OrderedSet (α : Type) where
  toList : List α
  deriving DecidableEq

namespace OrderedSet

variable {α : Type} [DecidableEq α]

instance : Membership α (OrderedSet α) := ⟨fun s a => a ∈ s.toList⟩

instance (a : α) (s : OrderedSet α) : Decidable (a ∈ s) :=
  inferInstanceAs (Decidable (a ∈ s.toList))

def empty : OrderedSet α := ⟨[]⟩

def insert (s : OrderedSet α) (a : α) : OrderedSet α :=
  if a ∈ s.toList then s else ⟨s.toList ++ [a]⟩

def insertAll (s : OrderedSet α) (items : List α) : OrderedSet α := items.foldl insert s

def erase (s : OrderedSet α) (a : α) : OrderedSet α := ⟨s.toList.filter (· ≠ a)⟩

def size (s : OrderedSet α) : Nat := s.toList.length

theorem mem_insert (s : OrderedSet α) (a b : α) : b ∈ s.insert a ↔ b ∈ s ∨ b = a := by
  show b ∈ (s.insert a).toList ↔ b ∈ s.toList ∨ b = a
  unfold insert
  split
  · next h => exact ⟨Or.inl, fun hb => hb.elim id (· ▸ h)⟩
  · simp

theorem mem_erase (s : OrderedSet α) (a b : α) : b ∈ s.erase a ↔ b ∈ s ∧ b ≠ a := by
  show b ∈ (s.erase a).toList ↔ b ∈ s.toList ∧ b ≠ a
  simp [erase]

end OrderedSet

end TreeSearch
