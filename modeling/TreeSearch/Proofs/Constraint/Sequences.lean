import TreeSearch.Proofs.Constraint.Local

namespace TreeSearch

section Climbing

variable {ignore : List Int}

-- A rule that may come in between does not stand in the way.
theorem climbs_cons {x : Int} (hx : x ∉ ignore) {sequence above : List Int}
    (h : climbs ignore sequence above = true) : climbs ignore sequence (x :: above) = true := by
  induction above generalizing sequence x with
  | nil =>
      cases sequence with
      | nil => simp [climbs]
      | cons r sequence => simp [climbs] at h
  | cons y above ih =>
      cases sequence with
      | nil => simp [climbs]
      | cons r sequence =>
          rw [climbs]
          by_cases hxr : x = r
          · subst hxr
            rw [if_pos rfl]
            rw [climbs] at h
            by_cases hy : y = x
            · rw [if_pos hy] at h
              exact ih (hy ▸ hx) h
            · rw [if_neg hy] at h
              by_cases hyi : y ∈ ignore
              · simp [hyi] at h
              · rw [if_neg hyi] at h
                have := ih hx h
                rw [climbs, if_pos rfl] at this
                exact ih hyi this
          · rw [if_neg hxr, if_neg hx]
            exact h

theorem climbs_append {gap : List Int} (hgap : ∀ x ∈ gap, x ∉ ignore) {sequence above : List Int}
    (h : climbs ignore sequence above = true) : climbs ignore sequence (gap ++ above) = true := by
  induction gap with
  | nil => exact h
  | cons x gap ih =>
      exact climbs_cons (hgap x List.mem_cons_self) (ih fun y hy => hgap y (List.mem_cons_of_mem x hy))

-- The nearest place of the next element is as good as any other.
theorem climbs_cons_iff (r : Int) (sequence above : List Int) :
    climbs ignore (r :: sequence) above = true ↔ ∃ gap rest, above = gap ++ r :: rest ∧
      (∀ x ∈ gap, x ∉ ignore) ∧ climbs ignore sequence rest = true := by
  induction above with
  | nil => simp [climbs]
  | cons x above ih =>
      rw [climbs]
      by_cases hx : x = r
      · subst hx
        rw [if_pos rfl]
        constructor
        · intro h
          exact ⟨[], above, rfl, nofun, h⟩
        · rintro ⟨gap, rest, he, hgap, h⟩
          cases gap with
          | nil =>
              obtain ⟨-, rfl⟩ := List.cons.inj he
              exact h
          | cons y gap =>
              -- A climb that passes this place by could have stopped here as well.
              obtain ⟨rfl, rfl⟩ := List.cons.inj he
              have hy := hgap x List.mem_cons_self
              exact climbs_append (fun z hz => hgap z (List.mem_cons_of_mem x hz)) (climbs_cons hy h)
      · rw [if_neg hx]
        by_cases hi : x ∈ ignore
        · rw [if_pos hi]
          constructor
          · nofun
          · rintro ⟨gap, rest, he, hgap, -⟩
            cases gap with
            | nil => exact absurd (List.cons.inj he).1 hx
            | cons y gap =>
                obtain ⟨rfl, -⟩ := List.cons.inj he
                exact absurd hi (hgap x List.mem_cons_self)
        · rw [if_neg hi, ih]
          constructor
          · rintro ⟨gap, rest, rfl, hgap, h⟩
            exact ⟨x :: gap, rest, rfl, by simpa [hi] using hgap, h⟩
          · rintro ⟨gap, rest, he, hgap, h⟩
            cases gap with
            | nil => exact absurd (List.cons.inj he).1 hx
            | cons y gap =>
                obtain ⟨rfl, rfl⟩ := List.cons.inj he
                exact ⟨gap, rest, rfl, fun z hz => hgap z (List.mem_cons_of_mem x hz), h⟩

end Climbing

section Weaving

variable {ignore : List Int}

theorem Woven.sequence_ne_nil {sequence rules : List Int} (h : Woven ignore sequence rules) :
    sequence ≠ [] := by
  cases h <;> simp

theorem Woven.rules_ne_nil {sequence rules : List Int} (h : Woven ignore sequence rules) :
    rules ≠ [] := by
  cases h <;> simp

theorem woven_cons_iff {r : Int} {sequence rules : List Int} :
    Woven ignore (r :: sequence) rules ↔ (sequence = [] ∧ rules = [r]) ∨
      ∃ gap rest, rules = r :: gap ++ rest ∧ (∀ x ∈ gap, x ∉ ignore) ∧
        Woven ignore sequence rest := by
  constructor
  · intro h
    cases h with
    | last => exact Or.inl ⟨rfl, rfl⟩
    | step free rest => exact Or.inr ⟨_, _, rfl, free, rest⟩
  · rintro (⟨rfl, rfl⟩ | ⟨gap, rest, rfl, free, h⟩)
    · exact .last r
    · exact .step free h

-- A sequence may as well be taken apart from its end.
theorem woven_append_iff (sequence rules : List Int) (r : Int) (hne : sequence ≠ []) :
    Woven ignore (sequence ++ [r]) rules ↔ ∃ before gap, rules = before ++ gap ++ [r] ∧
      (∀ x ∈ gap, x ∉ ignore) ∧ Woven ignore sequence before := by
  induction sequence generalizing rules with
  | nil => exact absurd rfl hne
  | cons q sequence ih =>
      by_cases hs : sequence = []
      · subst hs
        constructor
        · intro h
          cases h with
          | step free rest =>
              cases rest with
              | last => exact ⟨[q], _, rfl, free, .last q⟩
              | step _ rest => exact absurd rfl rest.sequence_ne_nil
        · rintro ⟨before, gap, rfl, hgap, h⟩
          cases h with
          | last => exact .step hgap (.last r)
          | step _ rest => exact absurd rfl rest.sequence_ne_nil
      · rw [List.cons_append]
        constructor
        · intro h
          rcases woven_cons_iff.mp h with ⟨he, -⟩ | ⟨gap, rest, rfl, free, hrest⟩
          · simp at he
          · obtain ⟨before, gap', rfl, hgap', hw⟩ := (ih rest hs).mp hrest
            exact ⟨q :: gap ++ before, gap', by simp, hgap', .step free hw⟩
        · rintro ⟨before, gap, rfl, hgap, h⟩
          rcases woven_cons_iff.mp h with ⟨he, -⟩ | ⟨gap', before, rfl, free, hrest⟩
          · exact absurd he hs
          · have := (ih _ hs).mpr ⟨before, gap, rfl, hgap, hrest⟩
            simpa using Woven.step free this

-- A sequence ends at a node when its last element is there and the others are found on
-- the way up.
theorem sequenceEnds_iff (init above : List Int) (last x : Int) :
    SequenceEnds ignore (init ++ [last]) (above ++ [x]) ↔
      x = last ∧ climbs ignore init.reverse above.reverse = true := by
  -- The way up meets the sequence from its end, so that the induction takes its elements from there.
  induction init using List.reverseRecOn generalizing above last x with
  | nil =>
      have hclimbs : climbs ignore [] above.reverse = true := by
        cases above.reverse <;> rfl
      simp only [List.reverse_nil, hclimbs, and_true]
      constructor
      · rintro ⟨before, woven, he, hw⟩
        cases hw with
        | last => exact (List.append_inj' he rfl).2 |> List.cons.inj |>.1
        | step _ rest => exact absurd rfl rest.sequence_ne_nil
      · rintro rfl
        exact ⟨above, [x], rfl, .last x⟩
  | append_singleton init q ih =>
      rw [List.reverse_append, List.reverse_singleton, List.singleton_append, climbs_cons_iff]
      constructor
      · rintro ⟨before, woven, he, hw⟩
        obtain ⟨first, gap, rfl, hgap, hfirst⟩ := (woven_append_iff _ _ _ (by simp)).mp hw
        have he' : above ++ [x] = before ++ first ++ gap ++ [last] := by simpa using he
        obtain ⟨rfl, hx⟩ := List.append_inj' he' rfl
        refine ⟨(List.cons.inj hx).1, ?_⟩
        rcases List.eq_nil_or_concat' first with rfl | ⟨front, y, rfl⟩
        · exact absurd rfl hfirst.rules_ne_nil
        · obtain ⟨rfl, hc⟩ := (ih (before ++ front) q y).mp ⟨before, front ++ [y], by simp, hfirst⟩
          exact ⟨gap.reverse, (before ++ front).reverse, by simp, by simpa using hgap, hc⟩
      · rintro ⟨rfl, gap, rest, he, hgap, hc⟩
        have hends : SequenceEnds ignore (init ++ [q]) (rest.reverse ++ [q]) :=
          (ih rest.reverse q q).mpr ⟨rfl, by simpa using hc⟩
        obtain ⟨before, woven, hb, hw⟩ := hends
        refine ⟨before, woven ++ gap.reverse ++ [x], ?_, ?_⟩
        · have habove : above = rest.reverse ++ [q] ++ gap.reverse := by
            rw [← List.reverse_reverse above, he]
            simp
          rw [habove, hb]
          simp
        · exact (woven_append_iff _ _ _ (by simp)).mpr
            ⟨woven, gap.reverse, rfl, by simpa using hgap, hw⟩

end Weaving

namespace Tree

-- The rules on the way to a node are those above it and its own.
theorem rulesTo_iff {u : Tree} {path : Path} {r : Int} {cs : List Tree}
    (h : u.get? path = some (node r cs)) (rules : List Int) :
    u.RulesTo path rules ↔ rules = u.rulesAlong path ++ [r] := by
  induction path generalizing u rules with
  | nil =>
      obtain rfl : u = node r cs := by simpa using h
      simp [RulesTo, rulesAlong]
  | cons i path ih =>
      rw [get?_cons] at h
      obtain ⟨c, hi, hc⟩ := Option.bind_eq_some_iff.mp h
      cases u with
      | node q ds =>
          rw [RulesTo, rulesAlong, hi]
          constructor
          · rintro ⟨d, below, hd, hbelow, rfl⟩
            cases hd
            rw [(ih hc below).mp hbelow, List.cons_append]
          · rintro rfl
            exact ⟨c, _, rfl, (ih hc _).mpr rfl, by rw [List.cons_append]⟩
      | hole => simp [child?, children] at hi
      | choice => simp [child?, children] at hi
      | var => simp [child?, children] at hi

theorem rulesTo_node {u : Tree} {path : Path} {rules : List Int} (h : u.RulesTo path rules) :
    ∃ r cs, u.get? path = some (node r cs) := by
  induction path generalizing u rules with
  | nil =>
      cases u with
      | node r cs => exact ⟨r, cs, by simp⟩
      | hole => cases h
      | choice => cases h
      | var => cases h
  | cons i path ih =>
      cases u with
      | node r cs =>
          obtain ⟨c, below, hi, hbelow, -⟩ := h
          obtain ⟨q, ds, hc⟩ := ih hbelow
          exact ⟨q, ds, by rw [get?_cons, hi, Option.bind_some, hc]⟩
      | hole => cases h
      | choice => cases h
      | var => cases h

-- What is above a position is decided.
theorem Refines.rulesAlong {s t v : Tree} {path : Path} (h : s.Refines t)
    (ht : t.get? path = some v) : s.rulesAlong path = t.rulesAlong path := by
  induction path generalizing s t with
  | nil =>
      cases h <;> simp [Tree.rulesAlong]
  | cons i path ih =>
      rw [get?_cons] at ht
      obtain ⟨c, hi, hc⟩ := Option.bind_eq_some_iff.mp ht
      obtain ⟨n, rfl, hn⟩ := child?_eq_some.mp hi
      cases t with
      | node r cs =>
          obtain ⟨ds, rfl, hlen, hds⟩ := refines_node_iff.mp h
          rw [children] at hn
          obtain ⟨d, hd⟩ : ∃ d, ds[n]? = some d := by
            have hlt : n < cs.length := (List.getElem?_eq_some_iff.mp hn).1
            exact ⟨_, List.getElem?_eq_getElem (hlen ▸ hlt)⟩
          simp only [Tree.rulesAlong, child?_node, hd, hn]
          rw [ih (hds n d c hd hn) hc]
      | hole => simp [children] at hn
      | choice => simp [children] at hn
      | var => simp [children] at hn

end Tree

end TreeSearch
