import Mathlib.Data.List.Forall2
import TreeSearch.Proofs.Constraint.Sequences

namespace TreeSearch

-- Places from the root downwards that have the elements of a sequence in turn. From the
-- first of them on, no other place has a rule to ignore.
structure Chosen (rule : Nat → Int → Prop) (ignore sequence : List Int) (places : List Nat) :
    Prop where
  increasing : places.Pairwise (· < ·)
  carries : List.Forall₂ rule places sequence
  free : ∀ first ∈ places.head?, ∀ n r, first < n → n ∉ places → rule n r → r ∉ ignore

-- The rule of an ancestor of a position, counted from the root.
def Tree.Above (t : Tree) (path : Path) (n : Nat) (r : Int) : Prop :=
  n < path.length ∧ ∃ children, t.get? (path.take n) = some (.node r children)

section Places

variable {ignore : List Int}

theorem forall₂_concat_iff {α β : Type} {rule : α → β → Prop} {places : List α}
    {sequence : List β} {r : β} : List.Forall₂ rule places (sequence ++ [r]) ↔
      ∃ front n, places = front ++ [n] ∧ List.Forall₂ rule front sequence ∧ rule n r := by
  rw [← List.forall₂_reverse_iff, List.reverse_append, List.reverse_singleton,
    List.singleton_append, List.forall₂_cons_right_iff]
  constructor
  · rintro ⟨n, front, hn, hfront, he⟩
    refine ⟨front.reverse, n, ?_, ?_, hn⟩
    · rw [← List.reverse_reverse places, he, List.reverse_cons]
    · rwa [← List.forall₂_reverse_iff, List.reverse_reverse]
  · rintro ⟨front, n, rfl, hfront, hn⟩
    exact ⟨n, front.reverse, hn, List.forall₂_reverse_iff.mpr hfront, by simp⟩

theorem Chosen.nil (rule : Nat → Int → Prop) : Chosen rule ignore [] [] :=
  ⟨.nil, .nil, nofun⟩

theorem Chosen.head_le {rule : Nat → Int → Prop} {sequence : List Int} {places : List Nat}
    (h : Chosen rule ignore sequence places) {first n : Nat} (hfirst : first ∈ places.head?)
    (hn : n ∈ places) : first ≤ n := by
  cases places with
  | nil => cases hn
  | cons m places =>
      obtain rfl : m = first := by simpa using hfirst
      rcases List.mem_cons.mp hn with rfl | hn
      · exact Nat.le_refl _
      · exact Nat.le_of_lt (List.rel_of_pairwise_cons h.increasing hn)

variable {sequence above before gap : List Int} {front : List Nat} {n : Nat} {r : Int}

theorem Chosen.lt_length (h : Chosen (above[·]? = some ·) ignore sequence front) (hn : n ∈ front) :
    n < above.length := by
  obtain ⟨i, hi, rfl⟩ := List.mem_iff_getElem.mp hn
  have hi' : i < sequence.length := h.carries.length_eq ▸ hi
  exact (List.getElem?_eq_some_iff.mp (h.carries.get hi hi')).1

-- Places that come before n carry the same in two lists that agree up to n.
theorem forall₂_congr_of_lt (hn : ∀ m ∈ front, m < n) (hsame : ∀ m < n, before[m]? = above[m]?)
    (h : List.Forall₂ (above[·]? = some ·) front sequence) :
    List.Forall₂ (before[·]? = some ·) front sequence := by
  refine List.Forall₂.imp ?_ ((List.forall₂_and_left _ _).mpr ⟨hn, h⟩)
  rintro m x ⟨hm, hx⟩
  exact (hsame m hm).trans hx

-- Above the last place of a choice there is one for the rest of the sequence.
theorem Chosen.dropLast (h : Chosen (above[·]? = some ·) ignore (sequence ++ [r]) (front ++ [n]))
    (hfront : List.Forall₂ (above[·]? = some ·) front sequence) :
    Chosen ((above.take n)[·]? = some ·) ignore sequence front := by
  obtain ⟨hincreasing, -, hlast⟩ := List.pairwise_append.mp h.increasing
  have hlt : ∀ m ∈ front, m < n := fun m hm => hlast m hm n (List.mem_singleton_self n)
  have hsame : ∀ m < n, (above.take n)[m]? = above[m]? := fun m hm => by
    rw [List.getElem?_take, if_pos hm]
  refine ⟨hincreasing, forall₂_congr_of_lt hlt hsame hfront, fun first hfirst m x hm hfree hx => ?_⟩
  have hmn : m < n := by
    have := (List.getElem?_eq_some_iff.mp hx).1
    rw [List.length_take] at this
    omega
  have hhead : first ∈ (front ++ [n]).head? := by
    rw [List.head?_append, hfirst, Option.some_or]
    exact rfl
  refine h.free first hhead m x hm (fun hmem => ?_) ((hsame m hmn).symm.trans hx)
  rcases List.mem_append.mp hmem with hmem | hmem
  · exact hfree hmem
  · exact absurd (List.mem_singleton.mp hmem) (Nat.ne_of_lt hmn)

-- Below it nothing is to be ignored.
theorem Chosen.free_drop (h : Chosen (above[·]? = some ·) ignore sequence (front ++ [n])) :
    ∀ x ∈ above.drop (n + 1), x ∉ ignore := by
  intro x hx
  obtain ⟨k, hk⟩ := List.mem_iff_getElem?.mp hx
  rw [List.getElem?_drop] at hk
  obtain ⟨first, hfirst⟩ : ∃ first, first ∈ (front ++ [n]).head? := by
    cases front <;> simp
  have hle := h.head_le hfirst (List.mem_append_right front (List.mem_singleton_self n))
  refine h.free first hfirst (n + 1 + k) x (by omega) (fun hmem => ?_) hk
  have hlast := (List.pairwise_append.mp h.increasing).2.2
  rcases List.mem_append.mp hmem with hmem | hmem
  · have := hlast _ hmem n (List.mem_singleton_self n)
    omega
  · have := List.mem_singleton.mp hmem
    omega

-- A further place, with nothing to ignore below it.
theorem Chosen.concat (h : Chosen (before[·]? = some ·) ignore sequence front)
    (hgap : ∀ x ∈ gap, x ∉ ignore) :
    Chosen ((before ++ r :: gap)[·]? = some ·) ignore (sequence ++ [r]) (front ++ [before.length]) := by
  have hlt : ∀ m ∈ front, m < before.length := fun m hm => h.lt_length hm
  have hsame : ∀ m < before.length, (before ++ r :: gap)[m]? = before[m]? := fun m hm =>
    List.getElem?_append_left hm
  refine ⟨?_, ?_, fun first hfirst n x hn hfree hx => ?_⟩
  · refine List.pairwise_append.mpr ⟨h.increasing, List.pairwise_singleton _ _, ?_⟩
    intro m hm n hn
    rw [List.mem_singleton.mp hn]
    exact hlt m hm
  · have hfront := forall₂_congr_of_lt hlt hsame h.carries
    exact forall₂_concat_iff.mpr ⟨front, before.length, rfl, hfront, by simp⟩
  · rcases Nat.lt_trichotomy n before.length with hlt' | rfl | hgt
    · cases front with
      | nil =>
          obtain rfl : before.length = first := by simpa using hfirst
          omega
      | cons m front =>
          refine h.free first (by simpa using hfirst) n x hn ?_ ((hsame n hlt').symm.trans hx)
          exact fun hm => hfree (List.mem_append_left _ hm)
    · exact absurd (List.mem_append_right front (List.mem_singleton_self _)) hfree
    · rw [List.getElem?_append_right (Nat.le_of_lt hgt)] at hx
      obtain ⟨k, hk⟩ : ∃ k, n - before.length = k + 1 := ⟨n - before.length - 1, by omega⟩
      rw [hk, List.getElem?_cons_succ] at hx
      exact hgap x (List.mem_of_getElem? hx)

-- The last place of a choice can be told from the others: what is below it has no rule to
-- ignore, and what is above it holds a choice for the rest of the sequence.
theorem chosen_concat_iff (sequence above : List Int) (r : Int) :
    (∃ places, Chosen (above[·]? = some ·) ignore (sequence ++ [r]) places) ↔
      ∃ before gap, above = before ++ r :: gap ∧ (∀ x ∈ gap, x ∉ ignore) ∧
        ∃ places, Chosen (before[·]? = some ·) ignore sequence places := by
  constructor
  · rintro ⟨places, h⟩
    obtain ⟨front, n, rfl, hfront, hn⟩ := forall₂_concat_iff.mp h.carries
    obtain ⟨hlt, rfl⟩ := List.getElem?_eq_some_iff.mp hn
    refine ⟨above.take n, above.drop (n + 1), ?_, h.free_drop, front, h.dropLast hfront⟩
    rw [← List.drop_eq_getElem_cons hlt, List.take_append_drop]
  · rintro ⟨before, gap, rfl, hgap, front, h⟩
    exact ⟨front ++ [before.length], h.concat hgap⟩

-- The induction is on the sequence from its end, which is the way the climb goes.
theorem climbs_iff (sequence above : List Int) :
    climbs ignore sequence.reverse above.reverse = true ↔
      ∃ places, Chosen (above[·]? = some ·) ignore sequence places := by
  induction sequence using List.reverseRecOn generalizing above with
  | nil =>
      have h : climbs ignore [] above.reverse = true := by
        cases above.reverse <;> rfl
      exact iff_of_true h ⟨[], .nil _⟩
  | append_singleton sequence r ih =>
      rw [List.reverse_append, List.reverse_singleton, List.singleton_append, climbs_cons_iff,
        chosen_concat_iff]
      constructor
      · rintro ⟨gap, rest, he, hgap, h⟩
        refine ⟨rest.reverse, gap.reverse, ?_, by simpa using hgap, (ih _).mp (by simpa using h)⟩
        rw [← List.reverse_reverse above, he]
        simp
      · rintro ⟨before, gap, rfl, hgap, h⟩
        exact ⟨gap.reverse, before.reverse, by simp, by simpa using hgap, (ih before).mpr h⟩

end Places

namespace Tree

-- What is above a position can be read at the positions on the way to it.
theorem getElem?_rulesAlong {t s : Tree} {path : Path} (hs : t.get? path = some s) (n : Nat)
    (r : Int) : (t.rulesAlong path)[n]? = some r ↔ t.Above path n r := by
  induction path generalizing t n with
  | nil => simp [rulesAlong, Above]
  | cons i path ih =>
      rw [get?_cons] at hs
      obtain ⟨c, hi, hc⟩ := Option.bind_eq_some_iff.mp hs
      cases t with
      | node q cs =>
          rw [rulesAlong, hi]
          cases n with
          | zero => simp [Above]
          | succ n =>
              rw [List.getElem?_cons_succ, ih hc, Above, Above, List.take_succ_cons, get?_cons, hi]
              simp
      | hole => simp [child?, children] at hi
      | choice => simp [child?, children] at hi
      | var => simp [child?, children] at hi

-- The climb from a position finds a sequence above it exactly when ancestors can be chosen
-- for all elements but the last, be it the nearest ones or others.
theorem climbs_ancestors_iff {t s : Tree} {path : Path} (hs : t.get? path = some s)
    (sequence ignore : List Int) :
    climbs ignore sequence.dropLast.reverse (t.rulesAlong path).reverse = true ↔
      sequence.length = 1 ∨
        ∃ places, Chosen (t.Above path) ignore sequence.dropLast places := by
  have habove : ((t.rulesAlong path)[·]? = some ·) = t.Above path := by
    funext n r
    exact propext (getElem?_rulesAlong hs n r)
  rw [climbs_iff, habove]
  constructor
  · exact Or.inr
  · rintro (hone | h)
    · obtain ⟨r, rfl⟩ := List.length_eq_one_iff.mp hone
      exact ⟨[], .nil _⟩
    · exact h

-- Two rules in turn, which stop the climb as well. Only the nearest ones can be chosen.
def alternating : Tree := .node 0 [.node 1 [.node 0 [.node 1 [.node 2 []]]]]

theorem climbs_ancestors_alternating :
    alternating.get? [0, 0, 0, 0] = some (.node 2 []) ∧
      climbs [0, 1] [1, 0] (alternating.rulesAlong [0, 0, 0, 0]).reverse = true ∧
        ∃ places, Chosen (alternating.Above [0, 0, 0, 0]) [0, 1] [0, 1] places := by
  have hget : alternating.get? [0, 0, 0, 0] = some (.node 2 []) := rfl
  have hclimbs : climbs [0, 1] [1, 0] (alternating.rulesAlong [0, 0, 0, 0]).reverse = true := rfl
  refine ⟨hget, hclimbs, ?_⟩
  exact ((climbs_ancestors_iff hget [0, 1, 2] [0, 1]).mp hclimbs).resolve_left (by decide)

end Tree

end TreeSearch
