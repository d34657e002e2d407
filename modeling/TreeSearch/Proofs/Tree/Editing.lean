import TreeSearch.Proofs.Result
import TreeSearch.Proofs.Tree.Refinement

namespace TreeSearch.Tree

section Missing

-- An index below zero is no position.
theorem get?_eq_none_of_neg {t : Tree} {path : Path} {i : Int} (hi : i ∈ path) (hneg : i < 0) :
    t.get? path = none := by
  apply Option.eq_none_iff_forall_ne_some.mpr
  intro s h
  induction path generalizing t with
  | nil => simp at hi
  | cons j path ih =>
      rw [get?_cons] at h
      obtain ⟨c, hj, hc⟩ := Option.bind_eq_some_iff.mp h
      obtain ⟨n, rfl, -⟩ := child?_eq_some.mp hj
      apply ih _ hc
      apply (List.mem_cons.mp hi).resolve_left
      omega

-- Nothing is below a hole.
theorem get?_below_hole {t : Tree} {path rest : Path} {category : String} {d : Domain}
    (h : t.get? path = some (hole category d)) (hr : rest ≠ []) : t.get? (path ++ rest) = none := by
  rw [get?_append_of_get? h]
  apply Option.eq_none_iff_forall_ne_some.mpr
  intro s hs
  exact hr (get?_hole_eq_some hs).1

theorem get_eq_error {t : Tree} {path : Path} (h : t.get? path = none) :
    t.get path = .error (.invalidPath path (t.reach path)) := by
  simp [get, h]

end Missing

section Replace

@[simp]
theorem replace_nil (t s : Tree) : t.replace [] s = .ok s := by
  cases t <;> rfl

theorem replace_node {r : Int} {cs : List Tree} {n : Nat} {c : Tree} (h : cs[n]? = some c)
    (path : Path) (s : Tree) :
    (node r cs).replace ((n : Int) :: path) s =
      (do return node r (cs.set n (← c.replace path s))) := by
  rw [replace, child?_node, h]
  rfl

theorem replace_of_child? {t : Tree} {i : Int} (h : t.child? i = none) (path : Path) (s : Tree) :
    t.replace (i :: path) s = .error (.noNode (i :: path)) := by
  cases t with
  | node => rw [replace, h]
  | hole => rfl
  | choice => rfl
  | var => rfl

@[simp]
theorem reach_nil (t : Tree) : t.reach [] = 0 := by
  cases t <;> rfl

theorem reach_of_child? {t : Tree} {i : Int} (h : t.child? i = none) (path : Path) :
    t.reach (i :: path) = 0 := by
  rw [reach, h]

theorem reach_node {r : Int} {cs : List Tree} {n : Nat} {c : Tree} (h : cs[n]? = some c)
    (path : Path) : (node r cs).reach ((n : Int) :: path) = c.reach path + 1 := by
  rw [reach, child?_node, h]

-- A fault names what is left of the path where a step leads nowhere.
theorem replace_eq_error {t : Tree} {path : Path} (h : t.get? path = none) (s : Tree) :
    t.replace path s = .error (.noNode (path.drop (t.reach path))) := by
  induction path generalizing t with
  | nil => simp at h
  | cons i path ih =>
      rw [get?_cons] at h
      cases hi : t.child? i with
      | none => simp [replace_of_child? hi, reach_of_child? hi]
      | some c =>
          obtain ⟨n, rfl, hn⟩ := child?_eq_some.mp hi
          cases t with
          | node r cs =>
              rw [hi, Option.bind_some] at h
              simp only [children] at hn
              rw [replace_node hn, ih h, reach_node hn, List.drop_succ_cons]
              rfl
          | hole => simp [children] at hn
          | choice => simp [children] at hn
          | var => simp [children] at hn

end Replace

section Replaced

variable {old new first second t u v : Tree} {path : Path}

theorem Replaced.replace_eq_ok (h : Replaced old new path t u) : t.replace path new = .ok u := by
  induction h with
  | here => simp
  | inside found _ ih =>
      rw [replace_node found, ih]
      rfl

theorem replace_eq_ok_iff : t.replace path new = .ok u ↔ ∃ old, Replaced old new path t u := by
  constructor
  · intro h
    cases hp : t.get? path with
    | none =>
        rw [replace_eq_error hp] at h
        cases h
    | some old =>
        obtain ⟨w, hw, hr⟩ := replace_of_get? hp new
        obtain rfl : w = u := Except.ok.inj (hw.symm.trans h)
        exact ⟨old, hr⟩
  · rintro ⟨old, h⟩
    exact h.replace_eq_ok

theorem Replaced.cons_iff {i : Int} : Replaced old new (i :: path) t u ↔
    ∃ (r : Int) (cs : List Tree) (n : Nat) (c d : Tree), i = n ∧ cs[n]? = some c ∧
      t = node r cs ∧ u = node r (cs.set n d) ∧ Replaced old new path c d := by
  constructor
  · intro h
    cases h with
    | inside found rest => exact ⟨_, _, _, _, _, rfl, found, rfl, rfl, rest⟩
  · rintro ⟨r, cs, n, c, d, rfl, found, rfl, rfl, rest⟩
    exact .inside found rest

-- A subtree in its own place changes nothing.
theorem Replaced.eq_of_same (h : Replaced old old path t u) : u = t := by
  induction h with
  | here => rfl
  | @inside r cs n c d path found _ ih =>
      obtain ⟨hn, hc⟩ := List.getElem?_eq_some_iff.mp found
      rw [ih, ← hc, List.set_getElem_self]

-- Of two replacements at one position the later is left.
theorem Replaced.replace_again (h : Replaced old first path t u) (s : Tree) :
    u.replace path s = t.replace path s := by
  induction h with
  | here => simp
  | @inside r cs n c d path found _ ih =>
      have hn : n < cs.length := (List.getElem?_eq_some_iff.mp found).1
      rw [replace_node found, replace_node (List.getElem?_set_self hn), ih]
      simp only [List.set_set]

end Replaced

section Apart

-- Neither position is at or below the other.
def Apart (p q : Path) : Prop := ¬ p <+: q ∧ ¬ q <+: p

theorem Apart.symm {p q : Path} (h : Apart p q) : Apart q p := ⟨h.2, h.1⟩

theorem not_apart_nil {p : Path} : ¬ Apart p [] := fun h => h.2 List.nil_prefix

theorem not_nil_apart {q : Path} : ¬ Apart [] q := fun h => h.1 List.nil_prefix

theorem apart_cons_self {i : Int} {p q : Path} : Apart (i :: p) (i :: q) ↔ Apart p q := by
  simp [Apart]

variable {old new t u : Tree} {p q : Path}

theorem Replaced.reach_other (h : Replaced old new p t u) (hpq : Apart p q) :
    u.reach q = t.reach q := by
  induction h generalizing q with
  | here => exact absurd hpq not_nil_apart
  | @inside r cs n c d p found _ ih =>
      cases q with
      | nil => exact absurd hpq not_apart_nil
      | cons i q =>
          have hn : n < cs.length := (List.getElem?_eq_some_iff.mp found).1
          by_cases hi : i = n
          · subst hi
            rw [reach_node found, reach_node (List.getElem?_set_self hn), ih (apart_cons_self.mp hpq)]
          · rw [reach, reach, child?_set_ne hi]

-- What is read apart from an edit is the same, and so is the fault where there is nothing.
theorem Replaced.get_other (h : Replaced old new p t u) (hpq : Apart p q) : u.get q = t.get q := by
  unfold get
  rw [h.get?_other hpq.1 hpq.2, h.reach_other hpq]

-- Either edit finds after the other the same position as before, and both orders end in the
-- same tree. The paths part at some node: above it the edits go the same way, and there they
-- set different children.
theorem Replaced.comm {old' new' v : Tree} (hp : Replaced old new p t u)
    (hq : Replaced old' new' q t v) (hpq : Apart p q) : u.replace q new' = v.replace p new := by
  induction hp generalizing q v with
  | here => exact absurd hpq not_nil_apart
  | @inside r cs n c d p found rest ih =>
      cases q with
      | nil => exact absurd hpq not_apart_nil
      | cons i q =>
          obtain ⟨r', cs', m, c', d', rfl, found', ht, rfl, rest'⟩ := Replaced.cons_iff.mp hq
          obtain ⟨rfl, rfl⟩ := node.inj ht
          have hn : n < cs.length := (List.getElem?_eq_some_iff.mp found).1
          have hm : m < cs.length := (List.getElem?_eq_some_iff.mp found').1
          by_cases hnm : n = m
          · subst hnm
            obtain rfl : c = c' := Option.some.inj (found.symm.trans found')
            rw [replace_node (List.getElem?_set_self hn), replace_node (List.getElem?_set_self hm),
              ih rest' (apart_cons_self.mp hpq)]
            simp only [List.set_set]
          · have hfound : (cs.set m d')[n]? = some c := by
              rw [List.getElem?_set_ne (Ne.symm hnm), found]
            have hfound' : (cs.set n d)[m]? = some c' := by
              rw [List.getElem?_set_ne hnm, found']
            rw [replace_node hfound', replace_node hfound, rest.replace_eq_ok, rest'.replace_eq_ok]
            simp only [Except.ok_bind]
            rw [List.set_comm _ _ hnm]

end Apart

section Orders

variable {t : Tree} {p q : Path}

-- Both orders of two edits apart from each other, each up to its first fault.
theorem replace_comm_of_get? {s : Tree} (hpq : Apart p q) (hp : t.get? p = some s) (m n : Tree) :
    (do (← t.replace p n).replace q m) = (do (← t.replace q m).replace p n) := by
  obtain ⟨u, hu, hr⟩ := replace_of_get? hp n
  cases hq : t.get? q with
  | some s' =>
      obtain ⟨v, hv, hr'⟩ := replace_of_get? hq m
      rw [hu, hv]
      exact hr.comm hr' hpq
  | none =>
      have hq' : u.get? q = none := by rw [hr.get?_other hpq.1 hpq.2, hq]
      rw [hu, replace_eq_error hq, Except.ok_bind, replace_eq_error hq', hr.reach_other hpq]
      rfl

-- Where neither edit has its position, the fault is about the one that comes first.
theorem replace_comm (hpq : Apart p q) (m n : Tree) :
    (do (← t.replace p n).replace q m).mapError Fault.kind =
      (do (← t.replace q m).replace p n).mapError Fault.kind := by
  cases hp : t.get? p with
  | some s => rw [replace_comm_of_get? hpq hp]
  | none =>
      cases hq : t.get? q with
      | some s => rw [replace_comm_of_get? hpq.symm hq]
      | none =>
          rw [replace_eq_error hp, replace_eq_error hq]
          rfl

theorem replace_replace (path : Path) (m n : Tree) :
    (do (← t.replace path m).replace path n) = t.replace path n := by
  cases h : t.get? path with
  | none =>
      rw [replace_eq_error h, replace_eq_error h]
      rfl
  | some s =>
      obtain ⟨u, hu, hr⟩ := replace_of_get? h m
      rw [hu]
      exact hr.replace_again n

end Orders

section Laws

-- There is something to replace exactly where there is something to read.
theorem replace_succeeds_iff {t : Tree} {path : Path} (s : Tree) :
    (∃ u, t.replace path s = .ok u) ↔ ∃ old, t.get path = .ok old := by
  simp only [get_eq_ok_iff]
  constructor
  · rintro ⟨u, hu⟩
    obtain ⟨old, h⟩ := replace_eq_ok_iff.mp hu
    exact ⟨old, h.get?_old⟩
  · rintro ⟨old, h⟩
    obtain ⟨u, hu, -⟩ := replace_of_get? h s
    exact ⟨u, hu⟩

theorem kind_of_get_eq_error {t : Tree} {path : Path} {fault : Fault}
    (h : t.get path = .error fault) : fault.kind = .path := by
  cases hp : t.get? path with
  | some s =>
      rw [get_eq_ok hp] at h
      cases h
  | none =>
      rw [get_eq_error hp] at h
      cases h
      rfl

theorem kind_of_replace_eq_error {t s : Tree} {path : Path} {fault : Fault}
    (h : t.replace path s = .error fault) : fault.kind = .path := by
  cases hp : t.get? path with
  | some old =>
      obtain ⟨u, hu, -⟩ := replace_of_get? hp s
      rw [hu] at h
      cases h
  | none =>
      rw [replace_eq_error hp] at h
      cases h
      rfl

-- The paths that lead nowhere for one of the two simple reasons.
def Astray (t : Tree) (path : Path) : Prop :=
  (∃ i ∈ path, i < 0) ∨ ∃ (above below : Path) (category : String) (d : Domain),
    path = above ++ below ∧ below ≠ [] ∧ t.get above = .ok (hole category d)

theorem Astray.get?_eq_none {t : Tree} {path : Path} (h : t.Astray path) : t.get? path = none := by
  obtain ⟨i, hi, hneg⟩ | ⟨above, below, category, d, rfl, hbelow, ha⟩ := h
  · exact get?_eq_none_of_neg hi hneg
  · exact get?_below_hole (get_eq_ok_iff.mp ha) hbelow

-- Reading and replacing obey the laws of a lens on each position, and two positions apart
-- from each other are independent. Two edits in either order come to the same tree, or to a
-- fault of the same kind, and to the very same fault unless both positions are missing.
theorem get_replace_laws (t : Tree) (p : Path) (n : Tree) :
    ((∃ u, t.replace p n = .ok u) ↔ ∃ old, t.get p = .ok old) ∧
    (∀ fault, t.replace p n = .error fault ∨ t.get p = .error fault → fault.kind = .path) ∧
    (t.Astray p → (∃ fault, t.replace p n = .error fault) ∧ ∃ fault, t.get p = .error fault) ∧
    (∀ u, t.replace p n = .ok u → u.get p = .ok n) ∧
    (∀ old, t.get p = .ok old → t.replace p old = .ok t) ∧
    (∀ m, (do (← t.replace p m).replace p n) = t.replace p n) ∧
    ∀ q, Apart p q →
      (∀ u, t.replace p n = .ok u → u.get q = t.get q) ∧
      (∀ m, (do (← t.replace p n).replace q m).mapError Fault.kind =
        (do (← t.replace q m).replace p n).mapError Fault.kind) ∧
      ((∃ old, t.get p = .ok old ∨ t.get q = .ok old) → ∀ m,
        (do (← t.replace p n).replace q m) = (do (← t.replace q m).replace p n)) := by
  refine ⟨replace_succeeds_iff n, ?_, ?_, ?_, ?_, ?_, fun q hpq => ⟨?_, ?_, ?_⟩⟩
  · rintro fault (h | h)
    · exact kind_of_replace_eq_error h
    · exact kind_of_get_eq_error h
  · intro h
    exact ⟨⟨_, replace_eq_error h.get?_eq_none n⟩, ⟨_, get_eq_error h.get?_eq_none⟩⟩
  · intro u hu
    obtain ⟨old, h⟩ := replace_eq_ok_iff.mp hu
    exact get_eq_ok h.get?_new
  · intro old hold
    obtain ⟨u, hu, h⟩ := replace_of_get? (get_eq_ok_iff.mp hold) old
    rw [hu, h.eq_of_same]
  · intro m
    exact replace_replace p m n
  · intro u hu
    obtain ⟨old, h⟩ := replace_eq_ok_iff.mp hu
    exact h.get_other hpq
  · intro m
    exact replace_comm hpq m n
  · rintro ⟨old, hold⟩ m
    cases hold with
    | inl hp => exact replace_comm_of_get? hpq (get_eq_ok_iff.mp hp) m n
    | inr hq => exact (replace_comm_of_get? hpq.symm (get_eq_ok_iff.mp hq) n m).symm

-- A node whose children are a hole and a node.
def halfOpen : Tree := .node 0 [.hole "E" (.ofList [1, 2]), .node 1 []]

theorem get_replace_laws_halfOpen :
    Apart [0] [1] ∧ halfOpen.Astray [0, 0] ∧ halfOpen.Astray [-1] ∧
    (∃ fault, halfOpen.replace [0, 0] (node 2 []) = .error fault ∧ fault.kind = .path) ∧
    halfOpen.replace [0] (.hole "E" (.ofList [1, 2])) = .ok halfOpen ∧
    (node 0 [node 2 [], node 1 []]).get [1] = halfOpen.get [1] ∧
    (do (← halfOpen.replace [0] (node 2 [])).replace [1] (node 3 [])) =
      (do (← halfOpen.replace [1] (node 3 [])).replace [0] (node 2 [])) := by
  have hpq : Apart [0] [1] := by simp [Apart]
  have hpast : halfOpen.Astray [0, 0] := Or.inr ⟨[0], [0], "E", .ofList [1, 2], rfl, by simp, rfl⟩
  have hneg : halfOpen.Astray [-1] := Or.inl ⟨-1, by simp, by decide⟩
  obtain ⟨-, hkind, hastray, -⟩ := get_replace_laws halfOpen [0, 0] (node 2 [])
  obtain ⟨-, -, -, -, hsame, -, hapart⟩ := get_replace_laws halfOpen [0] (node 2 [])
  obtain ⟨hget, -, hcomm⟩ := hapart [1] hpq
  obtain ⟨⟨fault, hfault⟩, -⟩ := hastray hpast
  refine ⟨hpq, hpast, hneg, ⟨fault, hfault, hkind fault (Or.inl hfault)⟩, hsame _ rfl, ?_, ?_⟩
  · exact hget _ rfl
  · exact hcomm ⟨.hole "E" (.ofList [1, 2]), Or.inl rfl⟩ (node 3 [])

end Laws

end TreeSearch.Tree
