import TreeSearch.Proofs.Branch.Move

namespace TreeSearch

namespace Problem

variable (p : Problem)

-- The largest number of children of a rule.
def widest : Nat := (p.grammar.rules.map Rule.arity).foldr max 0

-- Room below a hole, by the number of levels there are for it.
def capacity : Nat → Nat
  | 0 => 0
  | levels + 1 => p.widest * (capacity levels + p.grammar.rules.length + 1) + 1

mutual

-- A tree for which there are so many levels.
def weight : Nat → Tree → Nat
  | levels, .node _ cs => weights (levels - 1) cs + 1
  | levels, .hole _ d => p.capacity levels + d.size + 1
  | _, .choice .. => 1
  | _, .var _ => 1

def weights : Nat → List Tree → Nat
  | _, [] => 0
  | levels, c :: cs => weight levels c + weights levels cs

end

variable {p}

theorem weights_eq (levels : Nat) (cs : List Tree) :
    p.weights levels cs = (cs.map (p.weight levels)).sum := by
  induction cs with
  | nil => simp [weights]
  | cons c cs ih => simp [weights, ih]

theorem arity_le_widest {n : Nat} {r : Rule} (h : p.grammar.rule? n = some r) :
    r.children.length ≤ p.widest := by
  have hmax (l : List Nat) (k : Nat) (hk : k ∈ l) : k ≤ l.foldr max 0 := by
    induction l with
    | nil => cases hk
    | cons j l ih =>
        rw [List.foldr_cons]
        rcases List.mem_cons.mp hk with rfl | hk
        · exact Nat.le_max_left _ _
        · exact Nat.le_trans (ih hk) (Nat.le_max_right _ _)
  rw [Grammar.rule?_natCast] at h
  exact hmax _ _ (List.mem_map_of_mem (f := Rule.arity) (List.mem_of_getElem? h))

theorem size_le_weight (levels : Nat) (t : Tree) : t.size ≤ p.weight levels t := by
  induction t using Tree.induction generalizing levels with
  | node r cs ih =>
      rw [weight, Tree.size_node, weights_eq]
      have hsum : (cs.map Tree.size).sum ≤ (cs.map (p.weight (levels - 1))).sum :=
        List.sum_le_sum fun c hc => ih c hc (levels - 1)
      omega
  | hole category d =>
      rw [weight, Tree.size_hole]
      omega
  | choice => simp [weight, Tree.size, Tree.positions]
  | var => simp [weight, Tree.size, Tree.positions]

-- An open child has room for any tree with one level less.
theorem weight_openChild {levels : Nat} {category : String} {d : Domain}
    (hd : ∀ r : Nat, r ∈ d → p.grammar.Produces r category) :
    p.weight levels (.hole category d) ≤ p.capacity levels + p.grammar.rules.length + 1 := by
  have := Domain.size_le_of_lt fun r hr => (hd r hr).lt
  rw [weight]
  omega

end Problem

variable {p : Problem}

theorem Edit.weight_lt {path : Path} {old new : Tree} (h : Edit p path old new) {levels : Nat}
    (hl : 0 < levels) : p.weight levels new < p.weight levels old := by
  cases h with
  | narrowed sub ne =>
      have := Domain.size_lt_of_subset sub ne
      rw [Problem.weight, Problem.weight]
      omega
  | @filled category rules n production holes mem found opened _ =>
      obtain ⟨levels, rfl⟩ : ∃ k, levels = k + 1 := ⟨levels - 1, by omega⟩
      have hsum : (holes.map (p.weight levels)).sum ≤
          holes.length * (p.capacity levels + p.grammar.rules.length + 1) := by
        have := List.sum_le_card_nsmul (holes.map (p.weight levels))
          (p.capacity levels + p.grammar.rules.length + 1) fun x hx => by
            obtain ⟨hole, hh, rfl⟩ := List.mem_map.mp hx
            obtain ⟨category, -, -, d, rfl, -, hd⟩ := exists_of_forall₂ opened.flip hh
            exact Problem.weight_openChild fun r hr => (hd r hr).1
        simpa using this
      have hwide : holes.length * (p.capacity levels + p.grammar.rules.length + 1) ≤
          p.widest * (p.capacity levels + p.grammar.rules.length + 1) :=
        Nat.mul_le_mul_right _ (opened.length_eq ▸ Problem.arity_le_widest found)
      rw [Problem.weight, Problem.weight, Problem.weights_eq, Nat.add_sub_cancel, Problem.capacity]
      omega

theorem sum_set_lt {f : Tree → Nat} {cs : List Tree} {n : Nat} {c d : Tree}
    (hc : cs[n]? = some c) (h : f d < f c) : ((cs.set n d).map f).sum < (cs.map f).sum := by
  induction cs generalizing n with
  | nil => cases hc
  | cons e cs ih =>
      cases n with
      | zero =>
          obtain rfl : e = c := by simpa using hc
          simpa using h
      | succ n => simpa using ih (by simpa using hc)

-- A lighter part makes the whole lighter.
theorem Tree.Replaced.weight_lt {old new t u : Tree} {path : Path}
    (h : Tree.Replaced old new path t u) {levels : Nat}
    (hlt : p.weight (levels - path.length) new < p.weight (levels - path.length) old) :
    p.weight levels u < p.weight levels t := by
  induction h generalizing levels with
  | here => simpa using hlt
  | @inside r cs n c d path found _ ih =>
      rw [Problem.weight, Problem.weight, Problem.weights_eq, Problem.weights_eq]
      have hpart : p.weight (levels - 1) d < p.weight (levels - 1) c := by
        refine ih ?_
        rwa [List.length_cons, Nat.add_comm, Nat.sub_add_eq] at hlt
      have := sum_set_lt (f := p.weight (levels - 1)) found hpart
      omega

variable {T : Tree → Prop} {b c : Branch} {D : Nat}

theorem Move.weight_lt (h : Move p T b c) (hd : b.tree.depth ≤ D) :
    c.tree = b.tree ∨ p.weight D c.tree < p.weight D b.tree := by
  cases h with
  | @edit path old new tree unifying statistics change replaced =>
      rw [Branch.notify_tree]
      have hlen := Tree.depth_le_iff.mp hd path old replaced.get?_old
      exact Or.inr (replaced.weight_lt (change.weight_lt (by omega)))
  | _ => exact Or.inl rfl

-- Whatever changes the tree lowers its weight.
theorem Proceeds.weight_lt (h : Proceeds p T b c) (hd : c.tree.depth ≤ D) :
    c.tree = b.tree ∨ p.weight D c.tree < p.weight D b.tree := by
  induction h with
  | refl => exact Or.inl rfl
  | @tail m c hrest hstep ih =>
      rcases hstep with hstep | rfl
      · have hm : m.tree.depth ≤ D := Nat.le_trans hstep.refines.depth_le hd
        rcases ih hm with he | hlt
        · rcases hstep.weight_lt hm with he' | hlt'
          · exact Or.inl (he'.trans he)
          · exact Or.inr (he ▸ hlt')
        · rcases hstep.weight_lt hm with he' | hlt'
          · exact Or.inr (he' ▸ hlt)
          · exact Or.inr (Nat.lt_trans hlt' hlt)
      · exact ih hd

theorem Proceeds.weight_le (h : Proceeds p T b c) (hd : c.tree.depth ≤ D) :
    p.weight D c.tree ≤ p.weight D b.tree := by
  rcases h.weight_lt hd with he | hlt
  · rw [he]
  · exact Nat.le_of_lt hlt

section Rank

-- The length of the longest path of a class.
def Branch.reach (b : Branch) (path : Path) : Nat :=
  ((b.classes.members path).map List.length).foldr max 0

theorem Branch.le_reach (b : Branch) {path other : Path} (h : other ∈ b.classes.members path) :
    other.length ≤ b.reach path := by
  unfold reach
  generalize b.classes.members path = l at h
  induction l with
  | nil => cases h
  | cons q rest ih =>
      rw [List.map_cons, List.foldr_cons]
      rcases List.mem_cons.mp h with rfl | h
      · exact Nat.le_max_left _ _
      · exact Nat.le_trans (ih h) (Nat.le_max_right _ _)

theorem Branch.exists_reach (b : Branch) (path : Path) :
    ∃ other ∈ b.classes.members path, b.reach path = other.length := by
  have hmax (l : List Path) (hl : l ≠ []) :
      ∃ other ∈ l, (l.map List.length).foldr max 0 = other.length := by
    induction l with
    | nil => exact absurd rfl hl
    | cons q rest ih =>
        rw [List.map_cons, List.foldr_cons]
        by_cases hr : rest = []
        · exact ⟨q, List.mem_cons_self, by simp [hr]⟩
        · obtain ⟨other, ho, he⟩ := ih hr
          rcases Nat.le_total q.length other.length with hle | hle
          · exact ⟨other, List.mem_cons_of_mem q ho, by rw [he, Nat.max_eq_right hle]⟩
          · exact ⟨q, List.mem_cons_self, by rw [he, Nat.max_eq_left hle]⟩
  refine hmax _ fun he => ?_
  have := b.classes.mem_members_self path
  rw [he] at this
  cases this

-- A bound on the nested fillings of a class: every edit lowers the weight, and without
-- one the filling goes on one level below.
def Branch.rank (b : Branch) (p : Problem) (D : Nat) (path : Path) : Nat :=
  p.weight D b.tree * (D + 2) + (D + 1 - b.reach path)

-- The largest rank of a path.
def Branch.ceiling (b : Branch) (p : Problem) (D : Nat) : Nat :=
  p.weight D b.tree * (D + 2) + (D + 1)

theorem Branch.rank_le_ceiling (b : Branch) (path : Path) : b.rank p D path ≤ b.ceiling p D := by
  unfold rank ceiling
  omega

theorem Branch.ceiling_lt_rank (hlt : p.weight D c.tree < p.weight D b.tree) (path : Path) :
    c.ceiling p D < b.rank p D path := by
  have hmul : (p.weight D c.tree + 1) * (D + 2) ≤ p.weight D b.tree * (D + 2) :=
    Nat.mul_le_mul_right _ hlt
  rw [Nat.add_mul] at hmul
  unfold rank ceiling
  omega

theorem Proceeds.ceiling_le (h : Proceeds p T b c) (hd : c.tree.depth ≤ D) :
    c.ceiling p D ≤ b.ceiling p D := by
  have hmul := Nat.mul_le_mul_right (D + 2) (h.weight_le hd)
  unfold Branch.ceiling
  omega

theorem Proceeds.reach_le (h : Proceeds p T b c) (hs : b.Sound p) (path : Path) :
    b.reach path ≤ c.reach path := by
  obtain ⟨other, ho, he⟩ := b.exists_reach path
  rw [he]
  exact c.le_reach (h.members hs path other ho)

theorem Proceeds.rank_le (h : Proceeds p T b c) (hs : b.Sound p) (hd : c.tree.depth ≤ D)
    (path : Path) : c.rank p D path ≤ b.rank p D path := by
  have hmul := Nat.mul_le_mul_right (D + 2) (h.weight_le hd)
  have hreach := h.reach_le hs path
  unfold Branch.rank
  omega

-- A class whose paths lead into the tree reaches no further than the tree.
theorem Branch.reach_lt (hd : b.tree.depth ≤ D) {path : Path}
    (hplaced : ∀ other ∈ b.classes.members path, ∃ s, b.tree.get? other = some s) : b.reach path < D := by
  obtain ⟨other, ho, he⟩ := b.exists_reach path
  obtain ⟨s, hs⟩ := hplaced other ho
  rw [he]
  exact Tree.depth_le_iff.mp hd other s hs

-- One level below the rank is lower.
theorem Proceeds.rank_lt (h : Proceeds p T b c) (hs : b.Sound p) (hd : c.tree.depth ≤ D)
    {path other : Path} {s : Tree} (hp : b.tree.get? path = some s)
    (hreach : b.reach path < c.reach other) : c.rank p D other < b.rank p D path := by
  have hmul := Nat.mul_le_mul_right (D + 2) (h.weight_le hd)
  have := Branch.reach_lt (Nat.le_trans h.depth_le hd) fun _ ho => hs.member hp ho
  unfold Branch.rank
  omega

end Rank

end TreeSearch
