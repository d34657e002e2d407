import TreeSearch.Proofs.Grammar.Sweeps
import TreeSearch.Proofs.Grammar.Tables

namespace TreeSearch

section Lists

theorem exists_forall₂ {α β : Type} {R : α → β → Prop} {l : List α} (h : ∀ a ∈ l, ∃ b, R a b) :
    ∃ k, List.Forall₂ R l k := by
  induction l with
  | nil => exact ⟨[], .nil⟩
  | cons a l ih =>
      obtain ⟨b, hb⟩ := h a List.mem_cons_self
      obtain ⟨k, hk⟩ := ih fun c hc => h c (List.mem_cons_of_mem a hc)
      exact ⟨b :: k, .cons hb hk⟩

theorem map_eq_map_of_forall₂ {α β γ : Type} {f : α → γ} {g : β → γ} {l : List α} {k : List β}
    (h : List.Forall₂ (fun a b => f a = g b) l k) : l.map f = k.map g := by
  have heq : List.Forall₂ Eq (l.map f) (k.map g) :=
    List.forall₂_map_left_iff.mpr (List.forall₂_map_right_iff.mpr h)
  rwa [List.forall₂_eq_eq_eq] at heq

end Lists

namespace Cost

-- The least cost of the trees of some kind. It is infinite when there are none.
def IsLeastOf (m : Measure) (kind : Tree → Prop) : Cost → Prop
  | finite n => (∃ t, kind t ∧ m.of t = n) ∧ ∀ t, kind t → n ≤ m.of t
  | infinite => ∀ t, ¬ kind t

-- Some tree of the kind costs no more.
def Attained (m : Measure) (kind : Tree → Prop) (c : Cost) : Prop :=
  ∀ n, c = finite n → ∃ t, kind t ∧ m.of t = n

variable {m : Measure} {kind : Tree → Prop} {c d : Cost}

theorem attained_infinite : infinite.Attained m kind := nofun

theorem isLeastOf_iff : c.IsLeastOf m kind ↔ (∀ t, kind t → c.Fits (m.of t)) ∧ c.Attained m kind := by
  cases c with
  | finite n =>
      constructor
      · rintro ⟨hex, hle⟩
        exact ⟨fun t ht => (finite_fits n _).mpr (hle t ht), fun k hk => finite.inj hk ▸ hex⟩
      · rintro ⟨hfits, hex⟩
        exact ⟨hex n rfl, fun t ht => (finite_fits n _).mp (hfits t ht)⟩
  | infinite =>
      constructor
      · intro hno
        exact ⟨fun t ht => absurd ht (hno t), attained_infinite⟩
      · rintro ⟨hfits, -⟩ t ht
        exact not_infinite_fits _ (hfits t ht)

theorem IsLeastOf.unique (hc : c.IsLeastOf m kind) (hd : d.IsLeastOf m kind) : c = d := by
  cases c with
  | finite n =>
      obtain ⟨⟨t, ht, rfl⟩, hle⟩ := hc
      cases d with
      | finite k =>
          obtain ⟨⟨u, hu, rfl⟩, hle'⟩ := hd
          exact congrArg finite (Nat.le_antisymm (hle u hu) (hle' t ht))
      | infinite => exact absurd ht (hd t)
  | infinite =>
      cases d with
      | finite k =>
          obtain ⟨⟨u, hu, -⟩, -⟩ := hd
          exact absurd hu (hc u)
      | infinite => rfl

theorem IsLeastOf.isFinite_iff (h : c.IsLeastOf m kind) : c.isFinite = true ↔ ∃ t, kind t := by
  cases c with
  | finite n => exact iff_of_true rfl ⟨h.1.choose, h.1.choose_spec.1⟩
  | infinite => exact iff_of_false nofun fun ⟨t, ht⟩ => h t ht

theorem IsLeastOf.eq_infinite_iff (h : c.IsLeastOf m kind) : c = infinite ↔ ∀ t, ¬ kind t := by
  cases c with
  | finite n =>
      obtain ⟨⟨t, ht, -⟩, -⟩ := h
      exact iff_of_false nofun fun hno => hno t ht
  | infinite => exact iff_of_true rfl h

theorem IsLeastOf.within_iff (h : c.IsLeastOf m kind) {budget : Int} :
    c.within budget = true ↔ ∃ t, kind t ∧ (m.of t : Int) ≤ budget := by
  constructor
  · intro hc
    cases c with
    | finite n =>
        obtain ⟨⟨t, ht, rfl⟩, -⟩ := h
        exact ⟨t, ht, of_decide_eq_true hc⟩
    | infinite => cases hc
  · rintro ⟨t, ht, hle⟩
    exact ((isLeastOf_iff.mp h).1 t ht).within hle

theorem IsLeastOf.of_and_true (h : c.IsLeastOf m fun t => kind t ∧ True) : c.IsLeastOf m kind := by
  simpa only [and_true] using h

theorem sum_map_finite (ns : List Nat) : sum (ns.map finite) = finite ns.sum := by
  induction ns with
  | nil => rfl
  | cons n ns ih => exact congrArg (finite n + ·) ih

-- A sum is finite only where all its parts are, and so is a maximum.
theorem exists_of_sum_eq_finite {costs : List Cost} {n : Nat} (h : sum costs = finite n) :
    ∃ ns : List Nat, costs = ns.map finite := by
  induction costs generalizing n with
  | nil => exact ⟨[], rfl⟩
  | cons c costs ih =>
      obtain ⟨k, l, rfl, hl, -⟩ := add_eq_finite h
      obtain ⟨ns, rfl⟩ := ih hl
      exact ⟨k :: ns, rfl⟩

theorem exists_of_mostOf_eq_finite {costs : List Cost} {n : Nat} (h : mostOf costs = finite n) :
    ∃ ns : List Nat, costs = ns.map finite := by
  have hfits : (mostOf costs).Fits n := ⟨n, Nat.le_refl n, h⟩
  obtain ⟨ns, hns⟩ := exists_forall₂ (R := fun c k => id c = finite k) fun c hc =>
    ((mostOf_fits costs n).mp hfits c hc).imp fun _ hk => hk.2
  exact ⟨ns, (List.map_id costs).symm.trans (map_eq_map_of_forall₂ hns)⟩

-- The cheapest of several costs is one of them.
theorem exists_of_leastOf_eq_finite {costs : List Cost} {n : Nat} (h : leastOf costs = finite n) :
    finite n ∈ costs := by
  obtain ⟨c, hc, k, hk, rfl⟩ := (leastOf_fits costs n).mp ⟨n, Nat.le_refl n, h⟩
  have hfits := (leastOf_fits costs k).mpr ⟨finite k, hc, k, Nat.le_refl k, rfl⟩
  rw [h, finite_fits] at hfits
  exact Nat.le_antisymm hk hfits ▸ hc

end Cost

namespace Measure

theorem exists_of_above_eq_finite (m : Measure) {costs : List Cost} {n : Nat}
    (h : m.above costs = .finite n) : ∃ ns : List Nat, costs = ns.map .finite := by
  cases m with
  | size =>
      obtain ⟨_, _, -, hsum, -⟩ := Cost.add_eq_finite h
      exact Cost.exists_of_sum_eq_finite hsum
  | depth =>
      obtain ⟨_, _, -, hmost, -⟩ := Cost.add_eq_finite h
      exact Cost.exists_of_mostOf_eq_finite hmost

-- A node costs exactly what its rule asks for above what its children cost.
theorem above_of (m : Measure) (r : Int) (ts : List Tree) :
    m.above (ts.map fun t => .finite (m.of t)) = .finite (m.of (.node r ts)) := by
  cases m with
  | size =>
      have hsum : Cost.sum (ts.map fun t => .finite t.size) = .finite (ts.map Tree.size).sum := by
        rw [← Cost.sum_map_finite, List.map_map]
        rfl
      rw [of, Tree.size_node, Nat.add_comm]
      exact congrArg (1 + ·) hsum
  | depth =>
      have hmost : Cost.mostOf (ts.map fun t => .finite t.depth) = .finite (Tree.depthBelow ts) := by
        induction ts with
        | nil => rfl
        | cons t ts ih => exact congrArg (Cost.most (.finite t.depth)) ih
      rw [of, Tree.depth, Nat.add_comm]
      exact congrArg (1 + ·) hmost

-- The order of the children does not matter.
theorem of_perm (m : Measure) (r : Int) {ts cs : List Tree} (h : ts.Perm cs) :
    m.of (.node r ts) = m.of (.node r cs) := by
  have hle {ts cs : List Tree} (h : ts.Perm cs) : m.of (.node r ts) ≤ m.of (.node r cs) := by
    have hexact : List.Forall₂ (fun c t => Cost.Fits c (m.of t)) (ts.map fun t => .finite (m.of t)) ts :=
      List.forall₂_map_left_iff.mpr (List.forall₂_same.mpr fun t _ => ⟨_, Nat.le_refl _, rfl⟩)
    have hfits := m.above_fits hexact h r
    rw [m.above_of r ts] at hfits
    exact (Cost.finite_fits _ _).mp hfits
  exact Nat.le_antisymm (hle h) (hle h.symm)

end Measure

-- The complete trees of live rules with some rule at the root.
def Grammar.Roots (g : Grammar) (n : Nat) (t : Tree) : Prop :=
  g.WellFormed none t ∧ t.Complete ∧ ∃ cs, t = .node n cs

namespace Grammar

variable {g : Grammar} {m : Measure} {kind : Tree → Prop} {cost : CostTable → Shape → Cost}

theorem roots_iff {n : Nat} {t : Tree} : g.Roots n t ↔ ∃ (r : Rule) (cs : List Tree),
    g.rule? n = some r ∧ r.removed = false ∧ t = .node n cs ∧ g.Derives r.category t := by
  constructor
  · rintro ⟨hw, hc, cs, rfl⟩
    obtain ⟨r, hr, live, hd⟩ := hw.derives hc
    exact ⟨r, cs, hr, live, rfl, hd⟩
  · rintro ⟨r, cs, hr, live, rfl, hd⟩
    exact ⟨hd.1.anyCategory, hd.2, cs, rfl⟩

-- A cost of shapes that leads from exact costs of the children to an exact cost: no tree of the kind
-- is cheaper, and some tree has it.
structure Gauges (g : Grammar) (m : Measure) (kind : Tree → Prop) (cost : CostTable → Shape → Cost) :
    Prop where
  underbids : g.Underbids m kind cost
  attained (table : CostTable) (n : Nat) (r : Rule) (found : g.rule? n = some r)
    (live : r.removed = false)
    (below : ∀ category ∈ g.categories, (table.cost (g.number category)).Attained m
      fun t => g.Derives category t ∧ kind t) :
    (cost table (g.shape r)).Attained m fun t => g.Roots n t ∧ kind t

-- The shapes are those of the live rules.
theorem mem_shapes {s : Shape} : s ∈ g.outline.shapes ↔
    ∃ (n : Nat) (r : Rule), g.rule? n = some r ∧ r.removed = false ∧ s = g.shape r := by
  constructor
  · intro hs
    obtain ⟨r, hr, rfl⟩ := List.mem_map.mp hs
    obtain ⟨hm, hlive⟩ := List.mem_filter.mp hr
    obtain ⟨n, hn⟩ := List.mem_iff_getElem?.mp hm
    exact ⟨n, r, by rwa [rule?_natCast], by simpa using hlive, rfl⟩
  · rintro ⟨n, r, hr, live, rfl⟩
    exact List.mem_map_of_mem (mem_liveRules hr live)

theorem Regular.shape_index (hg : g.Regular) {n : Nat} {r : Rule} (h : g.rule? n = some r) :
    (g.shape r).index = n := by
  have := hg.rule?_index h
  show r.index = n
  omega

theorem Regular.mem_categories (hg : g.Regular) {n : Nat} {r : Rule} (h : g.rule? n = some r) :
    r.category ∈ g.categories := by
  rw [rule?_natCast] at h
  exact hg.category r (List.mem_of_getElem? h)

theorem number_inj {first second : String} (h : first ∈ g.categories)
    (he : g.number first = g.number second) : first = second :=
  (List.idxOf_inj h).mp he

-- A tree of the category with a number.
def Numbered (g : Grammar) (n : Nat) (t : Tree) : Prop :=
  ∃ category ∈ g.categories, g.number category = n ∧ g.Derives category t

theorem numbered_iff {category : String} (hm : category ∈ g.categories) {t : Tree} :
    g.Numbered (g.number category) t ↔ g.Derives category t := by
  constructor
  · rintro ⟨other, -, he, hd⟩
    exact number_inj hm he.symm ▸ hd
  · exact fun hd => ⟨category, hm, rfl, hd⟩

section Attained

-- A tree with the rule at its root belongs to the rule's category.
theorem attained_numbered (hg : g.Regular) {n : Nat} {r : Rule} {c : Cost} (hr : g.rule? n = some r)
    (h : c.Attained m fun t => g.Roots n t ∧ kind t) :
    c.Attained m fun t => g.Numbered (g.number r.category) t ∧ kind t := by
  intro k hk
  obtain ⟨t, ⟨hroots, hkind⟩, hcost⟩ := h k hk
  obtain ⟨q, cs, hq, -, -, hd⟩ := roots_iff.mp hroots
  obtain rfl : r = q := Option.some.inj (hr.symm.trans hq)
  exact ⟨t, ⟨⟨_, hg.mem_categories hr, rfl, hd⟩, hkind⟩, hcost⟩

theorem attained_of_numbered {category : String} (hm : category ∈ g.categories) {c : Cost}
    (h : c.Attained m fun t => g.Numbered (g.number category) t ∧ kind t) :
    c.Attained m fun t => g.Derives category t ∧ kind t := by
  simpa only [numbered_iff hm] using h

-- In a settled table every finite entry is the cost of some tree.
theorem Gauges.settled_attained (h : g.Gauges m kind cost) (hg : g.Regular) {n : Nat}
    (hn : n < g.outline.categories) :
    ((g.outline.settled cost).cost n).Attained m fun t => g.Numbered n t ∧ kind t := by
  suffices hrounds : ∀ k, ∀ n < g.outline.categories, (CostTable.cost
      ((fun table => g.outline.categoryCosts (cost table))^[k]
        (Array.replicate g.outline.categories .infinite)) n).Attained m
          fun t => g.Numbered n t ∧ kind t by
    rw [Outline.settled, rounds_eq_iterate]
    exact hrounds _ n hn
  intro k
  induction k with
  | zero =>
      intro n hn
      rw [Function.iterate_zero_apply]
      simpa [CostTable.cost, hn] using Cost.attained_infinite
  | succ k ih =>
      intro n hn c hc
      rw [Function.iterate_succ_apply', Outline.cost_categoryCosts _ _ _ hn] at hc
      obtain ⟨s, hs, hcost⟩ := List.mem_map.mp (Cost.exists_of_leastOf_eq_finite hc)
      obtain ⟨hs, hcategory⟩ := List.mem_filter.mp hs
      obtain ⟨i, r, hr, live, rfl⟩ := mem_shapes.mp hs
      obtain rfl : g.number r.category = n := of_decide_eq_true hcategory
      refine attained_numbered hg hr (h.attained _ i r hr live fun category hm => ?_) c hcost
      exact attained_of_numbered hm (ih _ (number_lt hm))

end Attained

section Rounds

theorem Gauges.settled_exact (h : g.Gauges m kind cost) (hg : g.Regular) {n : Nat}
    (hn : n < g.outline.categories) :
    ((g.outline.settled cost).cost n).IsLeastOf m fun t => g.Numbered n t ∧ kind t := by
  refine Cost.isLeastOf_iff.mpr ⟨?_, h.settled_attained hg hn⟩
  rintro t ⟨⟨category, hm, rfl, hd⟩, hk⟩
  exact h.underbids.settled_fits hm hd hk

-- A table by rule lists nothing for the rules that are not live.
theorem Regular.cost_ruleCosts_of_not_live (hg : g.Regular) (cost : Shape → Cost) {n : Nat}
    (h : ∀ r, g.rule? n = some r → r.removed = true) :
    (g.outline.ruleCosts cost).cost n = .infinite := by
  have hother : ∀ l : List Shape, (∀ s ∈ l, s.index ≠ n) → ∀ table : CostTable,
      table.cost n = .infinite →
        CostTable.cost (l.foldl (fun table s => table.modify s.index fun _ => cost s) table) n =
          .infinite := by
    intro l
    induction l with
    | nil => exact fun _ _ ht => ht
    | cons s l ih =>
        intro hl table ht
        refine ih (fun q hq => hl q (List.mem_cons_of_mem s hq)) _ ?_
        have hne := hl s List.mem_cons_self
        unfold CostTable.cost at ht ⊢
        rw [Array.getElem?_modify, if_neg hne]
        exact ht
  refine hother _ (fun s hs he => ?_) _ ?_
  · obtain ⟨k, r, hr, live, rfl⟩ := mem_shapes.mp hs
    obtain rfl := (hg.shape_index hr).symm.trans he
    exact absurd (h r hr) (by simp [live])
  · by_cases hn : n < g.outline.rules <;> simp [CostTable.cost, hn]

theorem Gauges.ruleCosts_exact (h : g.Gauges m kind cost) (hg : g.Regular) (n : Nat) :
    ((g.outline.ruleCosts (cost (g.outline.settled cost))).cost n).IsLeastOf m
      fun t => g.Roots n t ∧ kind t := by
  refine Cost.isLeastOf_iff.mpr ⟨?_, ?_⟩
  · rintro t ⟨⟨hw, hc, cs, rfl⟩, hkind⟩
    exact h.underbids.ruleCosts_fits hg hw hc hkind
  · by_cases hlive : ∃ r, g.rule? n = some r ∧ r.removed = false
    · obtain ⟨r, hr, live⟩ := hlive
      rw [hg.cost_ruleCosts _ hr live]
      exact h.attained _ n r hr live fun category hm =>
      attained_of_numbered hm (h.settled_attained hg (number_lt hm))
    · rw [hg.cost_ruleCosts_of_not_live]
      · exact Cost.attained_infinite
      · intro r hr
        by_contra hno
        exact hlive ⟨r, hr, by simpa using hno⟩

end Rounds

section Passes

-- A table that no shape improves on is one that no tree is cheaper than.
theorem Underbids.fits_of_still (h : g.Underbids m kind cost) {table : CostTable}
    (still : ∀ s ∈ g.outline.shapes, (table.cost s.category).atMost (cost table s) = true)
    {category : String} {t : Tree} (hd : g.Derives category t) (hk : kind t) :
    (table.cost (g.number category)).Fits (m.of t) := by
  induction t using Tree.induction generalizing category with
  | node i cs ih =>
      obtain ⟨r, hr, live, rfl, -⟩ := derives_node_iff.mp hd
      have hs : g.shape r ∈ g.outline.shapes := List.mem_map_of_mem (mem_liveRules hr live)
      exact Cost.atMost_iff.mp (still _ hs) _
        (h table i r cs hr hd hk fun category _ c hc hd hk => ih c hc hd hk)
  | hole => cases hd.2
  | choice => cases hd.2
  | var => cases hd.2

-- Ledgers of the least costs of the trees of some kind, by the rule at the root and by category.
def Gauged (g : Grammar) (kind : Tree → Prop) (ledgers : Ledgers) : Prop :=
  ∀ m, (ledgers.of m).Holds g.outline (fun n c => c.IsLeastOf m fun t => g.Roots n t ∧ kind t)
    fun n c => c.IsLeastOf m fun t => g.Numbered n t ∧ kind t

-- Ledgers whose finite entries are the costs of some trees of the kind.
def Recorded (g : Grammar) (kind : Tree → Prop) (ledgers : Ledgers) : Prop :=
  ∀ m, (ledgers.of m).Holds g.outline (fun n c => c.Attained m fun t => g.Roots n t ∧ kind t)
    fun n c => c.Attained m fun t => g.Numbered n t ∧ kind t

theorem recorded_blank (g : Grammar) (kind : Tree → Prop) : g.Recorded kind (.blank g.outline) := by
  have hblank (m : Measure) : (Ledgers.blank g.outline).of m = .blank g.outline := by cases m <;> rfl
  exact fun m => hblank m ▸ Ledger.holds_blank (fun _ => Cost.attained_infinite)
    fun _ => Cost.attained_infinite

section Settle

variable {cost : Measure → CostTable → Shape → Except Halt Cost} {exact : Measure → CostTable → Shape → Cost}
  (hg : g.Regular) (h : ∀ m, g.Gauges m kind (exact m))
  (reckons : ∀ m table s, Reckons (cost m table s) (exact m table s))

include hg h

theorem attained_of_recorded {ledger : Ledger} (m : Measure)
    (hledger : ledger.Holds g.outline (fun n c => c.Attained m fun t => g.Roots n t ∧ kind t)
      fun n c => c.Attained m fun t => g.Numbered n t ∧ kind t)
    {s : Shape} (hs : s ∈ g.outline.shapes) :
    (exact m ledger.categories s).Attained m (fun t => g.Roots s.index t ∧ kind t) ∧
      (exact m ledger.categories s).Attained m fun t => g.Numbered s.category t ∧ kind t := by
  obtain ⟨n, r, hr, live, rfl⟩ := mem_shapes.mp hs
  have hattained := (h m).attained ledger.categories n r hr live fun category hm =>
    attained_of_numbered hm (hledger.category _)
  exact ⟨hg.shape_index hr ▸ hattained, attained_numbered hg hr hattained⟩

include reckons

theorem advances_recorded : Advances (Ledgers.enter cost) g.outline.shapes (g.Recorded kind)
    fun a b => ∀ m, (b.of m).Below (a.of m) := by
  refine Ledgers.advances_enter fun m ledger hledger s hs c hc => ?_
  rw [(reckons _ _ _).eq_of_ok hc]
  exact attained_of_recorded hg h m hledger hs

-- Where passes end, the ledgers are exact.
theorem gauged_of_settle {final : Ledgers}
    (hr : g.outline.settle (Ledgers.enter cost) (.blank g.outline) = .ok final) : g.Gauged kind final := by
  obtain ⟨hrecorded, hstill⟩ := (advances_recorded hg h reckons).passes_ok (g.recorded_blank kind) hr
  have hentries (m : Measure) (s : Shape) (hs : s ∈ g.outline.shapes) :
      ((final.of m).rules.cost s.index).atMost (exact m (final.of m).categories s) = true ∧
        ((final.of m).categories.cost s.category).atMost (exact m (final.of m).categories s) = true := by
    obtain ⟨c, hc, -, -, hno⟩ := Ledgers.enter_eq_ok (hstill s hs)
    obtain rfl : c = fun m => exact m (final.of m).categories s :=
      funext fun m => (reckons _ _ _).eq_of_ok (hc m)
    exact (Ledger.enter_still (hno rfl m)).2
  intro m
  have hfits {category : String} {t : Tree} (hd : g.Derives category t) (hk : kind t) :
      ((final.of m).categories.cost (g.number category)).Fits (m.of t) :=
    (h m).underbids.fits_of_still (fun s hs => (hentries m s hs).2) hd hk
  refine ⟨(hrecorded m).rules, (hrecorded m).categories, fun n => Cost.isLeastOf_iff.mpr ⟨?_, (hrecorded m).rule n⟩,
    fun n => Cost.isLeastOf_iff.mpr ⟨?_, (hrecorded m).category n⟩⟩
  · rintro t ⟨hroots, hkind⟩
    obtain ⟨r, cs, hr, live, rfl, hd⟩ := roots_iff.mp hroots
    have hs : g.shape r ∈ g.outline.shapes := List.mem_map_of_mem (mem_liveRules hr live)
    have hcost := (h m).underbids (final.of m).categories n r cs hr hd hkind
      fun category _ c _ hd hk => hfits hd hk
    have hrule := Cost.atMost_iff.mp (hentries m _ hs).1 _ hcost
    rwa [hg.shape_index hr] at hrule
  · rintro t ⟨⟨category, hm, rfl, hd⟩, hkind⟩
    exact hfits hd hkind

-- A pass brings the entries of a tree down to what it costs, where the entries of the trees below it
-- are down already.
theorem fits_of_swept {a b : Ledgers} {changed : Bool} (hswept : Swept (Ledgers.enter cost) g.outline.shapes
      (g.Recorded kind) (fun a b => ∀ m, (b.of m).Below (a.of m)) a b changed)
    {n : Nat} {r : Rule} {cs : List Tree} (hr : g.rule? n = some r)
    (hd : g.Derives r.category (.node n cs)) (hk : kind (.node n cs)) (m : Measure)
    (below : ∀ category ∈ g.categories, ∀ c ∈ cs, g.Derives category c → kind c →
      ((a.of m).categories.cost (g.number category)).Fits (m.of c)) :
    ((b.of m).rules.cost n).Fits (m.of (.node n cs)) ∧
      ((b.of m).categories.cost (g.number r.category)).Fits (m.of (.node n cs)) := by
  obtain ⟨q, hq, live, -, -⟩ := derives_node_iff.mp hd
  obtain rfl : r = q := Option.some.inj (hr.symm.trans hq)
  have hs : g.shape r ∈ g.outline.shapes := mem_shapes.mpr ⟨n, r, hr, live, rfl⟩
  obtain ⟨x, y, more, hx, hax, hvisit, hyb⟩ := hswept.visited _ hs
  obtain ⟨c, hc, hy, -⟩ := Ledgers.enter_eq_ok hvisit
  have hcost : (c m).Fits (m.of (.node n cs)) := by
    rw [(reckons _ _ _).eq_of_ok (hc m)]
    exact (h m).underbids _ n r cs hr hd hk fun category hm d hd hderives hkind =>
      Cost.atMost_iff.mp ((hax m).category _) _ (below category hm d hd hderives hkind)
  have hrange : (g.shape r).index < (x.of m).rules.size ∧ (g.shape r).category < (x.of m).categories.size := by
    rw [(hx m).rules, (hx m).categories, hg.shape_index hr]
    exact ⟨rule?_lt hr, number_lt (hg.mem_categories hr)⟩
  have hrule := Cost.atMost_iff.mp (CostTable.lower_atMost (c := c m) hrange.1) _ hcost
  have hcategory := Cost.atMost_iff.mp (CostTable.lower_atMost (c := c m) hrange.2) _ hcost
  have hbelow := hyb m
  rw [hy m] at hbelow
  have hfits := Cost.atMost_iff.mp (hbelow.rule _) _ hrule
  rw [hg.shape_index hr] at hfits
  exact ⟨hfits, Cost.atMost_iff.mp (hbelow.category _) _ hcategory⟩

-- As many passes as there are categories bring the entries by category down to all trees.
theorem fits_of_passed (m : Measure) {a : Ledgers} (hp : Passed (sweep (Ledgers.enter cost) g.outline.shapes)
      (.blank g.outline) g.outline.categories a) {category : String} {t : Tree} (hm : category ∈ g.categories)
    (hd : g.Derives category t) (hk : kind t) :
    ((a.of m).categories.cost (g.number category)).Fits (m.of t) := by
  have hadvances := advances_recorded hg h reckons
  refine right_of_rounds (fun c v => ∃ category ∈ g.categories, ∃ t,
      g.number category = c ∧ g.Derives category t ∧ kind t ∧ m.of t = v)
    (fun k c v => ∀ a, Passed (sweep (Ledgers.enter cost) g.outline.shapes) (.blank g.outline) k a →
      ((a.of m).categories.cost c).Fits v)
    ?_ (fun _ _ _ _ hvw hfits a ha => (hfits a ha).mono hvw) ?_ ⟨category, hm, t, rfl, hd, hk, rfl⟩ a hp
  · rintro c v ⟨category, hm, -, rfl, -⟩
    exact number_lt hm
  · rintro k c v ⟨category, hm, t, rfl, hd, hk, rfl⟩ hcheaper b hp
    obtain ⟨a, changed, hbefore, hrun⟩ := hp.last
    have hswept := hadvances.sweep (hadvances.passed (g.recorded_blank kind) hbefore) hrun
    obtain ⟨i, r, cs, rfl, hr, -, rfl, -⟩ := derives_iff.mp hd
    obtain ⟨n, rfl, -⟩ := rule?_eq_some hr
    refine (fits_of_swept hg h reckons hswept hr hd hk m fun category hm c hc hd hk => ?_).2
    exact hcheaper _ _ (m.of_child_lt hc) ⟨category, hm, c, rfl, hd, hk, rfl⟩ a hbefore

-- There are always passes enough, so it is one of them that halts.
theorem exists_of_settle_error {halt : Halt}
    (hr : g.outline.settle (Ledgers.enter cost) (.blank g.outline) = .error halt) :
    ∃ k a, Passed (sweep (Ledgers.enter cost) g.outline.shapes) (.blank g.outline) k a ∧
      sweep (Ledgers.enter cost) g.outline.shapes a = .error halt := by
  have hadvances := advances_recorded hg h reckons
  refine (passes_error hr).resolve_right ?_
  rintro ⟨-, b, c, hp, hrun⟩
  obtain ⟨a, changed, hbefore, hlast⟩ := hp.last
  have ha := hadvances.passed (g.recorded_blank kind) hbefore
  have hb := hadvances.sweep ha hlast
  -- By now no entry is above what a tree costs, and nothing is entered that no tree costs.
  obtain ⟨s, hs, x, y, hx, hbx, hvisit⟩ := (hadvances.sweep hb.kept hrun).stirred rfl
  obtain ⟨d, hd, -, hstirred, -⟩ := Ledgers.enter_eq_ok hvisit
  obtain ⟨m, hm⟩ := hstirred rfl
  have hattained := attained_of_recorded hg h m (hx m) hs
  rw [← (reckons _ _ _).eq_of_ok (hd m)] at hattained
  refine Ledger.enter_stirred hm ⟨Cost.atMost_iff.mpr fun n hn => ?_, Cost.atMost_iff.mpr fun n hn => ?_⟩
  all_goals
    obtain ⟨k, hkn, hk⟩ := hn
    obtain ⟨t, ⟨hroots, hkind⟩, rfl⟩ := hattained.1 k hk
    obtain ⟨r, cs, hr, live, rfl, hderives⟩ := roots_iff.mp hroots
    have hfits := fits_of_swept hg h reckons hb hr hderives hkind m fun category hm c _ hd hk =>
      fits_of_passed hg h reckons m hbefore hm hd hk
  · exact (Cost.atMost_iff.mp ((hbx m).rule _) _ hfits.1).mono hkn
  · obtain ⟨i, q, hq, -, rfl⟩ := mem_shapes.mp hs
    rw [hg.shape_index hq] at hr
    obtain rfl : r = q := Option.some.inj (hr.symm.trans hq)
    exact (Cost.atMost_iff.mp ((hbx m).category _) _ hfits.2).mono hkn

theorem settle_error {halt : Halt}
    (hr : g.outline.settle (Ledgers.enter cost) (.blank g.outline) = .error halt) : halt = .overflow := by
  have hadvances := advances_recorded hg h reckons
  obtain ⟨k, a, hp, hrun⟩ := exists_of_settle_error hg h reckons hr
  exact hadvances.sweep_error (P := (· = .overflow))
    (fun _ _ _ _ _ herror => Ledgers.enter_error (fun m table => reckons m table _) herror)
    (hadvances.passed (g.recorded_blank kind) hp) hrun

end Settle

end Passes

end Grammar

end TreeSearch
