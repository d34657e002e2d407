import TreeSearch.Proofs.Budget

namespace TreeSearch

section Sweep

variable {α : Type} {visit : α → Shape → Except Halt (α × Bool)} {shapes : List Shape}
  {known : α → Prop} {onward : α → α → Prop}

-- Visits that keep what is known and lead onward, and that change nothing when they say so.
structure Advances (visit : α → Shape → Except Halt (α × Bool)) (shapes : List Shape)
    (known : α → Prop) (onward : α → α → Prop) : Prop where
  refl (a : α) : onward a a
  trans {a b c : α} (h : onward a b) (h' : onward b c) : onward a c
  leads {a b : α} {s : Shape} {changed : Bool} (hs : s ∈ shapes) (ha : known a)
    (h : visit a s = .ok (b, changed)) : known b ∧ onward a b
  still {a b : α} {s : Shape} (h : visit a s = .ok (b, false)) : b = a

-- What a pass comes to that does not halt.
structure Swept (visit : α → Shape → Except Halt (α × Bool)) (shapes : List Shape)
    (known : α → Prop) (onward : α → α → Prop) (a b : α) (changed : Bool) : Prop where
  kept : known b
  leads : onward a b
  still : changed = false → b = a ∧ ∀ s ∈ shapes, visit a s = .ok (a, false)
  stirred : changed = true → ∃ s ∈ shapes, ∃ c d, known c ∧ onward a c ∧ visit c s = .ok (d, true)
  visited : ∀ s ∈ shapes, ∃ c d more, known c ∧ onward a c ∧ visit c s = .ok (d, more) ∧ onward d b

namespace Advances

variable (h : Advances visit shapes known onward)

include h

theorem sweep {a b : α} {changed : Bool} (ha : known a) (hr : sweep visit shapes a = .ok (b, changed)) :
    Swept visit shapes known onward a b changed := by
  suffices hpart : ∀ part : List Shape, (∀ s ∈ part, s ∈ shapes) → ∀ a b changed, known a →
      TreeSearch.sweep visit part a = .ok (b, changed) → Swept visit part known onward a b changed from
    hpart shapes (fun _ hs => hs) a b changed ha hr
  clear * - h
  intro part
  induction part with
  | nil =>
      rintro - a b changed ha hr
      obtain ⟨rfl, rfl⟩ := Prod.mk.inj (Except.ok.inj hr)
      exact ⟨ha, h.refl a, fun _ => ⟨rfl, nofun⟩, nofun, nofun⟩
  | cons s part ih =>
      intro hpart a b changed ha hr
      obtain ⟨⟨c, here⟩, hvisit, hr⟩ := Except.bind_eq_ok.mp hr
      obtain ⟨⟨d, later⟩, hrest, hr⟩ := Except.bind_eq_ok.mp hr
      obtain ⟨rfl, rfl⟩ := Prod.mk.inj (Except.ok.inj hr)
      obtain ⟨hc, hac⟩ := h.leads (hpart s List.mem_cons_self) ha hvisit
      obtain ⟨hd, hcd, hstill, hstirred, hvisited⟩ :=
        ih (fun s hs => hpart s (List.mem_cons_of_mem _ hs)) c d later hc hrest
      refine ⟨hd, h.trans hac hcd, fun hno => ?_, fun hyes => ?_, fun q hq => ?_⟩
      · obtain ⟨hhere, hlater⟩ := Bool.or_eq_false_iff.mp hno
        obtain rfl : here = false := hhere
        obtain rfl : c = a := h.still hvisit
        obtain ⟨rfl, hsame⟩ := hstill hlater
        refine ⟨rfl, fun q hq => ?_⟩
        rcases List.mem_cons.mp hq with rfl | hq
        · exact hvisit
        · exact hsame q hq
      · rcases Bool.or_eq_true_iff.mp hyes with hhere | hlater
        · obtain rfl : here = true := hhere
          exact ⟨s, List.mem_cons_self, a, c, ha, h.refl a, hvisit⟩
        · obtain ⟨q, hq, x, y, hx, hcx, hy⟩ := hstirred hlater
          exact ⟨q, List.mem_cons_of_mem s hq, x, y, hx, h.trans hac hcx, hy⟩
      · rcases List.mem_cons.mp hq with rfl | hq
        · exact ⟨a, c, here, ha, h.refl a, hvisit, hcd⟩
        · obtain ⟨x, y, more, hx, hcx, hy, hyd⟩ := hvisited q hq
          exact ⟨x, y, more, hx, h.trans hac hcx, hy, hyd⟩

-- A pass halts the way one of its visits does.
theorem sweep_error {P : Halt → Prop} (hvisit : ∀ a, known a → ∀ s ∈ shapes, ∀ halt,
    visit a s = .error halt → P halt) {a : α} {halt : Halt} (ha : known a)
    (hr : TreeSearch.sweep visit shapes a = .error halt) : P halt := by
  suffices hpart : ∀ part : List Shape, (∀ s ∈ part, s ∈ shapes) → ∀ a, known a →
      TreeSearch.sweep visit part a = .error halt → P halt from hpart shapes (fun _ hs => hs) a ha hr
  clear * - h hvisit
  intro part
  induction part with
  | nil => exact fun _ _ _ hr => nomatch hr
  | cons s part ih =>
      intro hpart a ha hr
      have hs := hpart s List.mem_cons_self
      rcases Except.bind_eq_error.mp hr with herror | ⟨⟨c, here⟩, hok, hr⟩
      · exact hvisit a ha s hs halt herror
      · rcases Except.bind_eq_error.mp hr with herror | ⟨_, _, hr⟩
        · exact ih (fun s hs => hpart s (List.mem_cons_of_mem _ hs)) c (h.leads hs ha hok).1 herror
        · exact nomatch hr

end Advances

-- What a number of passes lead to.
inductive Passed (pass : α → Except Halt (α × Bool)) (start : α) : Nat → α → Prop
  | start : Passed pass start 0 start
  | pass {n : Nat} {a b : α} {changed : Bool} (before : Passed pass start n a)
      (run : pass a = .ok (b, changed)) : Passed pass start (n + 1) b

theorem Passed.last {pass : α → Except Halt (α × Bool)} {a b : α} {n : Nat} (h : Passed pass a (n + 1) b) :
    ∃ c changed, Passed pass a n c ∧ pass c = .ok (b, changed) := by
  cases h with
  | pass before run => exact ⟨_, _, before, run⟩

theorem Passed.first {pass : α → Except Halt (α × Bool)} {a b c : α} {n : Nat} {changed : Bool}
    (run : pass a = .ok (b, changed)) (h : Passed pass b n c) : Passed pass a (n + 1) c := by
  induction h with
  | start => exact .pass .start run
  | pass _ run ih => exact .pass ih run

theorem Advances.passed (h : Advances visit shapes known onward) {a b : α} {n : Nat} (ha : known a)
    (hp : Passed (TreeSearch.sweep visit shapes) a n b) : known b := by
  induction hp with
  | start => exact ha
  | pass _ run ih => exact (h.sweep ih run).kept

-- Passes end where no visit changes anything.
theorem Advances.passes_ok (h : Advances visit shapes known onward) {a b : α} {n : Nat} (ha : known a)
    (hr : passes (TreeSearch.sweep visit shapes) n a = .ok b) :
    known b ∧ ∀ s ∈ shapes, visit b s = .ok (b, false) := by
  induction n generalizing a with
  | zero => exact nomatch hr
  | succ n ih =>
      obtain ⟨⟨c, changed⟩, hsweep, hr⟩ := Except.bind_eq_ok.mp hr
      have hswept := h.sweep ha hsweep
      cases changed with
      | true => exact ih hswept.kept hr
      | false =>
          obtain rfl : c = b := Except.ok.inj hr
          obtain ⟨rfl, hstill⟩ := hswept.still rfl
          exact ⟨ha, hstill⟩

-- Passes that are given up still change something in the last of them.
theorem passes_error {pass : α → Except Halt (α × Bool)} {a : α} {n : Nat} {halt : Halt}
    (hr : passes pass (n + 1) a = .error halt) :
    (∃ k b, Passed pass a k b ∧ pass b = .error halt) ∨
      halt = .outOfFuel ∧ ∃ b c, Passed pass a n b ∧ pass b = .ok (c, true) := by
  induction n generalizing a with
  | zero =>
      rcases Except.bind_eq_error.mp hr with herror | ⟨⟨b, changed⟩, hok, hr⟩
      · exact Or.inl ⟨0, a, .start, herror⟩
      · cases changed with
        | true => exact Or.inr ⟨(Except.error.inj hr).symm, a, b, .start, hok⟩
        | false => exact nomatch hr
  | succ n ih =>
      rcases Except.bind_eq_error.mp hr with herror | ⟨⟨b, changed⟩, hok, hr⟩
      · exact Or.inl ⟨0, a, .start, herror⟩
      · cases changed with
        | false => exact nomatch hr
        | true =>
            rcases ih hr with ⟨k, c, hc, herror⟩ | ⟨he, c, d, hc, hd⟩
            · exact Or.inl ⟨k + 1, c, hc.first hok, herror⟩
            · exact Or.inr ⟨he, c, d, hc.first hok, hd⟩

end Sweep

section Lower

variable {table : CostTable} {n k : Nat} {c : Cost}

@[simp]
theorem CostTable.size_lower : (table.lower k c).1.size = table.size := by
  unfold lower
  split
  · rfl
  · exact Array.size_modify

theorem CostTable.lower_still (h : (table.lower k c).2 = false) :
    (table.lower k c).1 = table ∧ (table.cost k).atMost c = true := by
  unfold lower at h ⊢
  split
  · rename_i hle
    exact ⟨rfl, hle⟩
  · rename_i hle
    rw [if_neg hle] at h
    cases h

theorem CostTable.lower_stirred (h : (table.lower k c).2 = true) : ¬ (table.cost k).atMost c = true := by
  unfold lower at h
  split at h
  · cases h
  · assumption

-- An entry stays as it is, or it is the new cost.
theorem CostTable.cost_lower (table : CostTable) (k : Nat) (c : Cost) (n : Nat) :
    (table.lower k c).1.cost n = table.cost n ∨
      n = k ∧ (table.lower k c).1.cost n = c ∧ c.atMost (table.cost n) = true := by
  unfold lower
  split
  · exact Or.inl rfl
  · rename_i hle
    by_cases hn : n < table.size
    · rw [CostTable.cost_modify _ _ _ _ hn]
      split
      · rename_i hk
        exact Or.inr ⟨hk.symm, rfl, hk ▸ Cost.atMost_of_not hle⟩
      · exact Or.inl rfl
    · left
      simp [CostTable.cost, hn]

theorem CostTable.atMost_lower (table : CostTable) (k : Nat) (c : Cost) (n : Nat) :
    ((table.lower k c).1.cost n).atMost (table.cost n) = true := by
  rcases table.cost_lower k c n with he | ⟨-, he, hle⟩
  · rw [he]
    exact Cost.atMost_iff.mpr fun _ h => h
  · rwa [he]

theorem CostTable.lower_atMost (hk : k < table.size) : ((table.lower k c).1.cost k).atMost c = true := by
  unfold lower
  split
  · assumption
  · rw [CostTable.cost_modify _ _ _ _ hk, if_pos rfl]
    exact Cost.atMost_iff.mpr fun _ h => h

end Lower

namespace Ledger

-- A ledger of the right size, of whose entries something is known.
structure Holds (o : Outline) (R C : Nat → Cost → Prop) (ledger : Ledger) : Prop where
  rules : ledger.rules.size = o.rules
  categories : ledger.categories.size = o.categories
  rule (n : Nat) : R n (ledger.rules.cost n)
  category (n : Nat) : C n (ledger.categories.cost n)

-- No entry is higher.
structure Below (after before : Ledger) : Prop where
  rule (n : Nat) : (after.rules.cost n).atMost (before.rules.cost n) = true
  category (n : Nat) : (after.categories.cost n).atMost (before.categories.cost n) = true

variable {o : Outline} {R C : Nat → Cost → Prop} {ledger : Ledger} {s : Shape} {c : Cost}

theorem Below.refl (ledger : Ledger) : Below ledger ledger :=
  ⟨fun _ => Cost.atMost_iff.mpr fun _ h => h, fun _ => Cost.atMost_iff.mpr fun _ h => h⟩

theorem Below.trans {a b c : Ledger} (h : Below b a) (h' : Below c b) : Below c a :=
  ⟨fun n => Cost.atMost_trans (h'.rule n) (h.rule n),
    fun n => Cost.atMost_trans (h'.category n) (h.category n)⟩

theorem below_enter (ledger : Ledger) (s : Shape) (c : Cost) : Below (ledger.enter s c).1 ledger :=
  ⟨fun _ => CostTable.atMost_lower _ _ _ _, fun _ => CostTable.atMost_lower _ _ _ _⟩

theorem holds_blank (hR : ∀ n, R n .infinite) (hC : ∀ n, C n .infinite) : (blank o).Holds o R C := by
  have hcost (k n : Nat) : CostTable.cost (Array.replicate k .infinite) n = .infinite := by
    by_cases hn : n < k <;> simp [CostTable.cost, hn]
  refine ⟨by simp [blank], by simp [blank], fun n => ?_, fun n => ?_⟩
  · rw [blank, hcost]
    exact hR n
  · rw [blank, hcost]
    exact hC n

theorem Holds.enter (h : ledger.Holds o R C) (hR : R s.index c) (hC : C s.category c) :
    (ledger.enter s c).1.Holds o R C where
  rules := CostTable.size_lower.trans h.rules
  categories := CostTable.size_lower.trans h.categories
  rule n := by
    rcases ledger.rules.cost_lower s.index c n with he | ⟨rfl, he, -⟩
    · exact he.symm ▸ h.rule n
    · exact he.symm ▸ hR
  category n := by
    rcases ledger.categories.cost_lower s.category c n with he | ⟨rfl, he, -⟩
    · exact he.symm ▸ h.category n
    · exact he.symm ▸ hC

theorem enter_still (h : (ledger.enter s c).2 = false) : (ledger.enter s c).1 = ledger ∧
    (ledger.rules.cost s.index).atMost c = true ∧
      (ledger.categories.cost s.category).atMost c = true := by
  obtain ⟨hr, hc⟩ := Bool.or_eq_false_iff.mp h
  obtain ⟨hrules, hrule⟩ := CostTable.lower_still hr
  obtain ⟨hcategories, hcategory⟩ := CostTable.lower_still hc
  refine ⟨?_, hrule, hcategory⟩
  show (⟨_, _⟩ : Ledger) = ledger
  rw [hrules, hcategories]

theorem enter_stirred (h : (ledger.enter s c).2 = true) :
    ¬ ((ledger.rules.cost s.index).atMost c = true ∧ (ledger.categories.cost s.category).atMost c = true) := by
  rintro ⟨hrule, hcategory⟩
  rcases Bool.or_eq_true_iff.mp h with hr | hc
  · exact CostTable.lower_stirred hr hrule
  · exact CostTable.lower_stirred hc hcategory

end Ledger

namespace Ledgers

variable {o : Outline} {cost : Measure → CostTable → Shape → Except Halt Cost}
  {exact : Measure → CostTable → Shape → Cost} {R C : Measure → Nat → Cost → Prop}
  {a b : Ledgers} {s : Shape} {changed : Bool}

-- A visit enters the cost of a shape in both ledgers.
theorem enter_eq_ok (hr : enter cost a s = .ok (b, changed)) :
    ∃ c : Measure → Cost, (∀ m, cost m (a.of m).categories s = .ok (c m)) ∧
      (∀ m, b.of m = ((a.of m).enter s (c m)).1) ∧
        (changed = true → ∃ m, ((a.of m).enter s (c m)).2 = true) ∧
          (changed = false → ∀ m, ((a.of m).enter s (c m)).2 = false) := by
  obtain ⟨size, hsize, hr⟩ := Except.bind_eq_ok.mp hr
  obtain ⟨depth, hdepth, hr⟩ := Except.bind_eq_ok.mp hr
  obtain ⟨rfl, rfl⟩ := Prod.mk.inj (Except.ok.inj hr)
  refine ⟨Measure.rec size depth, fun m => ?_, fun m => ?_, fun hyes => ?_, fun hno m => ?_⟩
  · cases m with
    | size => exact hsize
    | depth => exact hdepth
  · cases m <;> rfl
  · rcases Bool.or_eq_true_iff.mp hyes with h | h
    · exact ⟨.size, h⟩
    · exact ⟨.depth, h⟩
  · obtain ⟨hs, hd⟩ := Bool.or_eq_false_iff.mp hno
    cases m with
    | size => exact hs
    | depth => exact hd

theorem enter_error (hexact : ∀ m table, Reckons (cost m table s) (exact m table s)) {halt : Halt}
    (hr : enter cost a s = .error halt) : halt = .overflow := by
  rcases Except.bind_eq_error.mp hr with herror | ⟨_, _, hr⟩
  · exact (hexact _ _).halt_of_error herror
  · rcases Except.bind_eq_error.mp hr with herror | ⟨_, _, hr⟩
    · exact (hexact _ _).halt_of_error herror
    · exact nomatch hr

theorem ext_of (h : ∀ m, a.of m = b.of m) : a = b := Ledgers.ext (h .size) (h .depth)

-- What is known of all entries stays known, if it is known of every cost that is entered.
theorem advances_enter
    (entered : ∀ m (ledger : Ledger), ledger.Holds o (R m) (C m) → ∀ s ∈ o.shapes, ∀ c,
      cost m ledger.categories s = .ok c → R m s.index c ∧ C m s.category c) :
    Advances (enter cost) o.shapes (fun a => ∀ m, (a.of m).Holds o (R m) (C m))
      fun a b => ∀ m, (b.of m).Below (a.of m) where
  refl a m := .refl (a.of m)
  trans h h' m := (h m).trans (h' m)
  leads hs ha hr := by
    obtain ⟨c, hc, hb, -⟩ := enter_eq_ok hr
    refine ⟨fun m => ?_, fun m => ?_⟩
    · obtain ⟨hR, hC⟩ := entered m _ (ha m) _ hs (c m) (hc m)
      exact hb m ▸ (ha m).enter hR hC
    · exact hb m ▸ Ledger.below_enter _ _ _
  still hr := by
    obtain ⟨c, -, hb, -, hstill⟩ := enter_eq_ok hr
    exact ext_of fun m => (hb m).trans (Ledger.enter_still (hstill rfl m)).1

end Ledgers

end TreeSearch
