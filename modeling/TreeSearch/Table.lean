namespace TreeSearch

-- Finite maps. Each key has one entry, and entries stand in the order in which their keys
-- came in.
structure Table (κ α : Type) where
  entries : List (κ × α)
  nodup : (entries.map (·.1)).Nodup
  deriving DecidableEq

namespace Table

variable {κ α : Type} [DecidableEq κ]

def empty : Table κ α := ⟨[], .nil⟩

def keys (t : Table κ α) : List κ := t.entries.map (·.1)

def values (t : Table κ α) : List α := t.entries.map (·.2)

def size (t : Table κ α) : Nat := t.entries.length

def get? (t : Table κ α) (key : κ) : Option α := (t.entries.find? (·.1 = key)).map (·.2)

-- Changes all values, and leaves the keys as they are.
def mapValues (f : κ → α → α) (t : Table κ α) : Table κ α where
  entries := t.entries.map fun (key, a) => (key, f key a)
  nodup := by
    rw [List.map_map]
    exact t.nodup

-- A key that is there keeps its place, and a new one comes last.
def set (t : Table κ α) (key : κ) (a : α) : Table κ α :=
  if h : key ∈ t.keys then t.mapValues fun other old => if other = key then a else old
  else
    { entries := t.entries ++ [(key, a)]
      nodup := by
        rw [List.map_append]
        refine List.nodup_append.mpr ⟨t.nodup, by simp, fun other hold new hnew he => h ?_⟩
        obtain rfl : other = key := he.trans (List.mem_singleton.mp hnew)
        exact hold }

-- A key that is there keeps its value.
def setDefault (t : Table κ α) (key : κ) (a : α) : Table κ α :=
  if key ∈ t.keys then t else t.set key a

def erase (t : Table κ α) (key : κ) : Table κ α where
  entries := t.entries.filter (·.1 ≠ key)
  nodup := t.nodup.sublist (List.filter_sublist.map _)

variable {t : Table κ α} {key other : κ} {a : α}

theorem get?_eq_some : t.get? key = some a ↔ (key, a) ∈ t.entries := by
  have hlookup (entries : List (κ × α)) (hn : (entries.map (·.1)).Nodup) :
      (entries.find? (·.1 = key)).map (·.2) = some a ↔ (key, a) ∈ entries := by
    induction entries with
    | nil => simp
    | cons e entries ih =>
        obtain ⟨hnew, hn⟩ := List.nodup_cons.mp hn
        by_cases he : e.1 = key
        · subst he
          have hrest : (e.1, a) ∉ entries := fun h => hnew (List.mem_map.mpr ⟨_, h, rfl⟩)
          simp [hrest, Prod.ext_iff, eq_comm]
        · have hne : (key, a) ≠ e := fun h => he (h ▸ rfl)
          simp [he, hne, ih hn]
  exact hlookup t.entries t.nodup

theorem mem_keys : key ∈ t.keys ↔ ∃ a, t.get? key = some a := by
  simp [keys, get?_eq_some]

theorem get?_eq_none : t.get? key = none ↔ key ∉ t.keys := by
  rw [mem_keys, ← Option.isSome_iff_exists, Option.not_isSome_iff_eq_none]

theorem get?_mapValues (f : κ → α → α) : (t.mapValues f).get? key = (t.get? key).map (f key) := by
  apply Option.ext
  intro b
  simp only [get?_eq_some, Option.map_eq_some_iff, mapValues, List.mem_map, Prod.mk.injEq]
  constructor
  · rintro ⟨⟨_, old⟩, hold, rfl, hb⟩
    exact ⟨old, hold, hb⟩
  · rintro ⟨old, hold, hb⟩
    exact ⟨(key, old), hold, rfl, hb⟩

omit [DecidableEq κ] in
theorem keys_mapValues (f : κ → α → α) : (t.mapValues f).keys = t.keys := by
  simp [keys, mapValues]

theorem entries_set_of_not_mem (h : key ∉ t.keys) : (t.set key a).entries = t.entries ++ [(key, a)] := by
  rw [set, dif_neg h]

theorem size_set_of_not_mem (h : key ∉ t.keys) : (t.set key a).size = t.size + 1 := by
  rw [size, entries_set_of_not_mem h, List.length_append, List.length_singleton, size]

theorem keys_set : (t.set key a).keys = if key ∈ t.keys then t.keys else t.keys ++ [key] := by
  split
  · next h => rw [set, dif_pos h, keys_mapValues]
  · next h => rw [keys, entries_set_of_not_mem h, List.map_append, List.map_singleton, keys]

theorem get?_set : (t.set key a).get? other = if other = key then some a else t.get? other := by
  by_cases h : key ∈ t.keys
  · rw [set, dif_pos h, get?_mapValues]
    split
    · next he =>
        obtain ⟨b, hb⟩ := mem_keys.mp h
        rw [he, hb, Option.map_some]
    · rw [Option.map_id']
  · apply Option.ext
    intro b
    rw [get?_eq_some, entries_set_of_not_mem h, List.mem_append, ← get?_eq_some, List.mem_singleton,
      Prod.ext_iff]
    split
    · next he =>
        subst he
        simp [get?_eq_none.mpr h, eq_comm]
    · next he => simp [he]

theorem get?_setDefault :
    (t.setDefault key a).get? other = if other = key then some ((t.get? key).getD a) else t.get? other := by
  unfold setDefault
  by_cases h : key ∈ t.keys
  · rw [if_pos h]
    split
    · next he =>
        obtain ⟨b, hb⟩ := mem_keys.mp h
        rw [he, hb, Option.getD_some]
    · rfl
  · rw [if_neg h, get?_set, get?_eq_none.mpr h, Option.getD_none]

theorem get?_erase : (t.erase key).get? other = if other = key then none else t.get? other := by
  apply Option.ext
  intro b
  rw [get?_eq_some]
  split
  · next he => simp [erase, he]
  · next he => simp [erase, he, get?_eq_some]

end Table

end TreeSearch
