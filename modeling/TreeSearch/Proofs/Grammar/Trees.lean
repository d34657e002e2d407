import TreeSearch.Grammar.Check
import TreeSearch.Grammar.WellFormed
import TreeSearch.Proofs.Grammar.Regular
import TreeSearch.Proofs.Tree.Refinement

namespace TreeSearch

-- A node of a rule that there can be or a hole, so no part of a template.
inductive Tree.Concrete : Tree → Prop
  | node (n : Nat) (cs : List Tree) : Concrete (.node n cs)
  | hole (category : String) (rules : Domain) : Concrete (.hole category rules)

-- A hole is decided when one rule is left.
theorem Tree.decided?_hole_eq_some {category : String} {d : Domain} {r : Int} :
    (Tree.hole category d).decided? = some r ↔ ∃ n : Nat, d = {n} ∧ r = n := by
  simp only [decided?, domain?, Option.bind_some, Option.map_eq_some_iff, Domain.sole?_eq_some]
  exact exists_congr fun n => and_congr_right fun _ => eq_comm

namespace Grammar

section Rules

variable {g : Grammar}

theorem rule?_eq_some {i : Int} {r : Rule} (h : g.rule? i = some r) :
    ∃ n : Nat, i = n ∧ g.rules[n]? = some r := by
  unfold rule? at h
  split at h
  · exact ⟨i.toNat, by omega, h⟩
  · cases h

@[simp]
theorem rule?_natCast (n : Nat) : g.rule? (n : Int) = g.rules[n]? := by
  simp [rule?]

theorem Regular.rule?_index (hg : g.Regular) {i : Int} {r : Rule} (h : g.rule? i = some r) :
    i = r.index := by
  obtain ⟨n, rfl, hn⟩ := rule?_eq_some h
  rw [hg.index n r hn]

theorem rule_eq_ok {i : Int} {r : Rule} (h : g.rule? i = some r) : g.rule i = .ok r := by
  simp [rule, h]

theorem arity_eq_ok {i : Int} {r : Rule} (h : g.rule? i = some r) : g.arity i = .ok r.children.length := by
  simp [arity, rule_eq_ok h, Rule.arity]

theorem isTerminal_eq_ok {i : Int} {r : Rule} (h : g.rule? i = some r) : g.isTerminal i = .ok r.isTerminal := by
  simp [isTerminal, rule_eq_ok h]

theorem rule?_lt {n : Nat} {r : Rule} (h : g.rule? (n : Int) = some r) : n < g.rules.length := by
  rw [rule?_natCast] at h
  exact (List.getElem?_eq_some_iff.mp h).1

theorem Produces.lt {n : Nat} {category : String} (h : g.Produces n category) :
    n < g.rules.length := by
  obtain ⟨r, hr, -, -⟩ := h
  exact rule?_lt hr

-- A category offers the live rules that produce it.
theorem Regular.mem_indicesFor (hg : g.Regular) (category : String) (n : Nat) :
    n ∈ g.indicesFor category ↔ g.Produces n category := by
  simp only [indicesFor, producers, List.mem_map, List.mem_filter, Bool.not_eq_true',
    decide_eq_true_eq]
  constructor
  · rintro ⟨r, ⟨⟨hm, hc⟩, hl⟩, rfl⟩
    obtain ⟨i, hi⟩ := List.mem_iff_getElem?.mp hm
    refine ⟨r, ?_, hl, hc⟩
    rw [rule?_natCast, hg.index i r hi]
    exact hi
  · rintro ⟨r, hr, hl, hc⟩
    have hi := hg.rule?_index hr
    obtain ⟨m, -, hm⟩ := rule?_eq_some hr
    exact ⟨r, ⟨⟨List.mem_of_getElem? hm, hc⟩, hl⟩, by omega⟩

theorem Regular.mem_domainFor (hg : g.Regular) {category : String} {d : Domain}
    (h : g.domainFor category = .ok d) (n : Nat) : n ∈ d ↔ g.Produces n category := by
  rw [← hg.mem_indicesFor]
  unfold domainFor rulesFor at h
  split at h
  · obtain rfl : Domain.ofList (g.indicesFor category) = d := by simpa using h
    exact Domain.mem_ofList _ _
  · cases h

theorem domainFor_eq_ok {category : String} (h : category ∈ g.categories) :
    ∃ d, g.domainFor category = .ok d := by
  simp [domainFor, rulesFor, h]

theorem mem_categories_of_domainFor {category : String} {d : Domain}
    (h : g.domainFor category = .ok d) : category ∈ g.categories := by
  unfold domainFor rulesFor at h
  split at h
  · assumption
  · cases h

end Rules

section WellFormed

variable {g : Grammar} {expected : Option String}

theorem wellFormed_node_iff {i : Int} {cs : List Tree} :
    g.WellFormed expected (.node i cs) ↔ ∃ r, g.rule? i = some r ∧ r.removed = false ∧
      (∀ c ∈ expected, r.category = c) ∧ cs.length = r.children.length ∧
      ∀ (k : Nat) (category : String) (c : Tree), r.children[k]? = some category →
        cs[k]? = some c → g.WellFormed (some category) c := by
  constructor
  · intro h
    cases h with
    | node found live fits arity below => exact ⟨_, found, live, fits, arity, below⟩
  · rintro ⟨r, found, live, fits, arity, below⟩
    exact .node found live fits arity below

theorem wellFormed_hole_iff {category : String} {d : Domain} :
    g.WellFormed expected (.hole category d) ↔ category ∈ g.categories ∧
      (∀ c ∈ expected, category = c) ∧ ∀ r : Nat, r ∈ d → g.Produces r category := by
  constructor
  · intro h
    cases h with
    | hole known fits live => exact ⟨known, fits, live⟩
  · rintro ⟨known, fits, live⟩
    exact .hole known fits live

theorem WellFormed.anyCategory {t : Tree} (h : g.WellFormed expected t) : g.WellFormed none t := by
  cases h with
  | hole known _ live => exact .hole known nofun live
  | node found live _ arity below => exact .node found live nofun arity below

-- Children stand in the categories of the rule above them.
theorem WellFormed.child {i : Int} {cs : List Tree} (h : g.WellFormed expected (.node i cs))
    {k : Nat} {c : Tree} (hc : cs[k]? = some c) : ∃ category, g.WellFormed (some category) c := by
  obtain ⟨r, -, -, -, arity, below⟩ := wellFormed_node_iff.mp h
  have hk : k < r.children.length := arity ▸ (List.getElem?_eq_some_iff.mp hc).1
  exact ⟨_, below k _ c (List.getElem?_eq_getElem hk) hc⟩

theorem WellFormed.get? {t s : Tree} {path : Path} (h : g.WellFormed expected t)
    (hs : t.get? path = some s) : g.WellFormed none s := by
  induction path generalizing t expected with
  | nil =>
      obtain rfl : t = s := by simpa using hs
      exact h.anyCategory
  | cons i path ih =>
      rw [Tree.get?_cons] at hs
      obtain ⟨c, hi, hc⟩ := Option.bind_eq_some_iff.mp hs
      obtain ⟨n, rfl, hn⟩ := Tree.child?_eq_some.mp hi
      cases h with
      | hole => simp [Tree.children] at hn
      | node found live fits arity below =>
          obtain ⟨category, hw⟩ := (Grammar.WellFormed.node found live fits arity below).child hn
          exact ih hw hc

theorem WellFormed.root_nonneg {i : Int} {cs : List Tree} (h : g.WellFormed expected (.node i cs)) :
    0 ≤ i := by
  obtain ⟨r, hr, -⟩ := wellFormed_node_iff.mp h
  obtain ⟨n, rfl, -⟩ := rule?_eq_some hr
  omega

theorem WellFormed.concrete {t : Tree} (h : g.WellFormed expected t) : t.Concrete := by
  cases t with
  | node i cs =>
      obtain ⟨n, rfl⟩ := Int.eq_ofNat_of_zero_le h.root_nonneg
      exact .node n cs
  | hole category rules => exact .hole category rules
  | choice => cases h
  | var => cases h

theorem WellFormed.replaced {old new t u : Tree} {path : Path}
    (h : Tree.Replaced old new path t u) (hn : ∀ e, g.WellFormed e old → g.WellFormed e new)
    (ht : g.WellFormed expected t) : g.WellFormed expected u := by
  induction h generalizing expected with
  | here => exact hn _ ht
  | @inside r cs n c d path found _ ih =>
      obtain ⟨rule, hr, live, fits, arity, below⟩ := wellFormed_node_iff.mp ht
      refine wellFormed_node_iff.mpr ⟨rule, hr, live, fits, by simpa using arity, ?_⟩
      intro k category s hk hs
      rw [List.getElem?_set] at hs
      split at hs
      · rename_i hnk
        subst hnk
        split at hs
        · cases hs
          exact ih (below n category c hk found)
        · cases hs
      · exact below k category s hk hs

-- Well-formed trees without holes are complete.
theorem WellFormed.complete {t : Tree} (h : g.WellFormed expected t)
    (hn : ∀ (path : Path) (category : String) (d : Domain), t.get? path ≠ some (.hole category d)) :
    t.Complete := by
  induction t using Tree.induction generalizing expected with
  | node i cs ih =>
      refine .node fun c hc => ?_
      obtain ⟨k, hk⟩ := List.mem_iff_getElem?.mp hc
      obtain ⟨category, hw⟩ := h.child hk
      refine ih c hc hw fun path category d hp => hn ((k : Int) :: path) category d ?_
      simp [Tree.get?_cons, hk, hp]
  | hole category d => exact absurd (Tree.get?_nil _) (hn [] category d)
  | choice => cases h
  | var => cases h

theorem WellFormed.isComplete_iff {t : Tree} (h : g.WellFormed expected t) :
    t.isComplete = true ↔ t.Complete := by
  rw [Tree.isComplete, List.isEmpty_iff]
  constructor
  · intro he
    refine h.complete fun path category d hp => ?_
    have := (Tree.mem_holes t path category d).mpr hp
    rw [he] at this
    cases this
  · intro hc
    refine List.eq_nil_iff_forall_not_mem.mpr fun ⟨path, category, d⟩ hm => ?_
    cases hc.get? ((Tree.mem_holes t path category d).mp hm)

theorem WellFormed.domain_size_le {category : String} {d : Domain}
    (h : g.WellFormed expected (.hole category d)) : d.size ≤ g.rules.length :=
  Domain.size_le_of_lt fun r hr => ((wellFormed_hole_iff.mp h).2.2 r hr).lt

end WellFormed

section Check

variable {g : Grammar} {expected : Option String} {steps : Nat} {category : String} {domain : Int} {n : Node}

-- A set lies within another one when it shares nothing with the complement.
theorem both_compl_eq_zero {allowed : Domain} :
    Bits.both domain (~~~(allowed.bits : Int)) = 0 ↔ ∀ r : Nat, r ∈ Mask.ofInt domain → r ∈ allowed := by
  cases domain with
  | ofNat bits =>
      have hboth : Bits.both (.ofNat bits) (~~~(allowed.bits : Int)) = ((⟨bits⟩ \ allowed : Domain).bits : Int) := rfl
      rw [hboth, Int.natCast_eq_zero]
      exact decide_eq_true_iff.symm.trans (Domain.isEmpty_sdiff ⟨bits⟩ allowed)
  | negSucc bits =>
      refine iff_of_false (Int.negSucc_ne_zero _) fun h => ?_
      have hoff {k : Nat} (hk : k ≤ bits + allowed.bits) : k.testBit (bits + allowed.bits) = false :=
        Nat.testBit_lt_two_pow (Nat.lt_of_le_of_lt hk Nat.lt_two_pow_self)
      have hout : bits + allowed.bits ∉ (⟨bits⟩ : Domain) := by
        rw [Domain.mem_def, hoff (Nat.le_add_right _ _)]
        exact Bool.false_ne_true
      have hin := (Domain.mem_def _ _).mp (h _ hout)
      rw [hoff (Nat.le_add_left _ _)] at hin
      cases hin

theorem checkHole_eq_ok_iff (hg : g.Regular) :
    g.checkHole steps expected category domain = .ok () ↔ g.Respects expected (.hole category domain) := by
  have hfree : g.checkHole steps none category domain = .ok () ↔
      category ∈ g.categories ∧ ∀ r : Nat, r ∈ Mask.ofInt domain → g.Produces r category := by
    constructor
    · intro h
      obtain ⟨allowed, ha, h⟩ := Except.bind_eq_ok.mp h
      have ha := Except.mapError_eq_ok.mp ha
      refine ⟨mem_categories_of_domainFor ha, fun r hr => (hg.mem_domainFor ha r).mp ?_⟩
      refine both_compl_eq_zero.mp ?_ r hr
      by_contra hne
      rw [if_pos hne] at h
      obtain ⟨rules, -, h⟩ := Except.bind_eq_ok.mp h
      cases h
    · rintro ⟨known, live⟩
      obtain ⟨allowed, ha⟩ := domainFor_eq_ok known
      have hzero : Bits.both domain (~~~(allowed.bits : Int)) = 0 :=
        both_compl_eq_zero.mpr fun r hr => (hg.mem_domainFor ha r).mpr (live r hr)
      simp [checkHole, ha, hzero, Except.mapError]
  cases expected with
  | none =>
      rw [hfree]
      constructor
      · rintro ⟨known, live⟩
        exact .hole known nofun live
      · rintro ⟨known, -, live⟩
        exact ⟨known, live⟩
  | some required =>
      by_cases hfits : category = required
      · have hsame : g.checkHole steps (some required) category domain =
            g.checkHole steps none category domain := by
          simp [checkHole, hfits]
        rw [hsame, hfree]
        constructor
        · rintro ⟨known, live⟩
          exact .hole known (by simp [hfits]) live
        · rintro ⟨known, -, live⟩
          exact ⟨known, live⟩
      · refine iff_of_false (by simp [checkHole, hfits]) ?_
        rintro ⟨-, fits, -⟩
        exact hfits (fits required rfl)

theorem liveRule_eq_ok_iff {i : Int} {r : Rule} :
    g.liveRule i = .ok r ↔ g.rule? i = some r ∧ r.removed = false := by
  unfold liveRule
  cases g.rule? i with
  | none => simp
  | some rule =>
      cases hr : rule.removed with
      | true =>
          refine iff_of_false (by simp [hr]) ?_
          rintro ⟨⟨⟩, hlive⟩
          cases hr.symm.trans hlive
      | false =>
          simp only [hr, Except.ok.injEq, Option.some.injEq, if_false, Bool.false_eq_true]
          constructor
          · rintro rfl
            exact ⟨rfl, hr⟩
          · exact And.left

theorem checkRule_eq_ok_iff {i : Int} {k : Nat} {r : Rule} : g.checkRule expected i k = .ok r ↔
    g.rule? i = some r ∧ r.removed = false ∧ (∀ c ∈ expected, r.category = c) ∧ k = r.arity := by
  unfold checkRule
  rw [Except.bind_eq_ok, ← and_assoc, ← liveRule_eq_ok_iff]
  constructor
  · rintro ⟨rule, hlive, h⟩
    cases expected with
    | none =>
        by_cases hk : k = rule.arity <;> simp_all
    | some required =>
        by_cases hfits : rule.category = required <;> by_cases hk : k = rule.arity <;> simp_all
  · rintro ⟨hlive, hfits, hk⟩
    refine ⟨r, hlive, ?_⟩
    cases expected with
    | none => simp [hk]
    | some required => simp [hfits required rfl, hk]

theorem checkAll_eq_ok_iff {categories : List String} {cs : List Node} :
    g.checkAll steps categories cs = .ok () ↔ ∀ (k : Nat) (category : String) (c : Node),
      categories[k]? = some category → cs[k]? = some c → g.check steps (some category) c = .ok () := by
  induction categories generalizing cs with
  | nil => simp [checkAll]
  | cons category categories ih =>
      cases cs with
      | nil => simp [checkAll]
      | cons c cs =>
          rw [checkAll, Except.bind_eq_ok]
          constructor
          · rintro ⟨_, hrest, hfirst⟩ k category' c' hk hc
            cases k with
            | zero =>
                cases hk
                cases hc
                exact hfirst
            | succ k => exact ih.mp hrest k category' c' hk hc
          · intro h
            exact ⟨(), ih.mpr fun k category' c' hk hc => h (k + 1) category' c' hk hc, h 0 category c rfl rfl⟩

-- The check accepts what respects the grammar and nothing else.
theorem check_eq_ok_iff (hg : g.Regular) :
    g.check steps expected n = .ok () ↔ g.Respects expected n := by
  induction n using Node.induction generalizing expected with
  | node i cs ih =>
      rw [check, Except.bind_eq_ok]
      constructor
      · rintro ⟨rule, hrule, h⟩
        obtain ⟨found, live, fits, arity⟩ := checkRule_eq_ok_iff.mp (Except.mapError_eq_ok.mp hrule)
        exact .node found live fits arity fun k category c hk hc =>
          (ih c (List.mem_of_getElem? hc)).mp (checkAll_eq_ok_iff.mp h k category c hk hc)
      · intro h
        cases h with
        | node found live fits arity below =>
            refine ⟨_, Except.mapError_eq_ok.mpr (checkRule_eq_ok_iff.mpr ⟨found, live, fits, arity⟩), ?_⟩
            exact checkAll_eq_ok_iff.mpr fun k category c hk hc =>
              (ih c (List.mem_of_getElem? hc)).mpr (below k category c hk hc)
  | hole category domain =>
      rw [check]
      exact checkHole_eq_ok_iff hg
  | choice => exact iff_of_false nofun nofun
  | var => exact iff_of_false nofun nofun

-- For a tree the two ways to respect a grammar agree.
theorem respects_ofTree {t : Tree} : g.Respects expected (.ofTree t) ↔ g.WellFormed expected t := by
  induction t using Tree.induction generalizing expected with
  | node r cs ih =>
      rw [Node.ofTree, Node.ofTrees_eq]
      constructor
      · intro h
        cases h with
        | node found live fits harity below =>
            refine .node found live fits (List.length_map _ ▸ harity) fun k category c hk hc => ?_
            refine (ih c (List.mem_of_getElem? hc)).mp (below k category (.ofTree c) hk ?_)
            rw [List.getElem?_map, hc]
            rfl
      · intro h
        obtain ⟨rule, found, live, fits, harity, below⟩ := wellFormed_node_iff.mp h
        refine .node found live fits ((List.length_map _).trans harity) fun k category c hk hc => ?_
        rw [List.getElem?_map] at hc
        obtain ⟨s, hs, rfl⟩ := Option.map_eq_some_iff.mp hc
        exact (ih s (List.mem_of_getElem? hs)).mpr (below k category s hk hs)
  | hole category d =>
      constructor
      · rintro ⟨known, fits, live⟩
        exact .hole known fits live
      · rintro ⟨known, fits, live⟩
        exact .hole known fits live
  | choice => exact iff_of_false nofun nofun
  | var => exact iff_of_false nofun nofun

theorem check_ofTree (hg : g.Regular) (steps : Nat) {t : Tree} :
    g.check steps expected (.ofTree t) = .ok () ↔ g.WellFormed expected t :=
  (check_eq_ok_iff hg).trans respects_ofTree

end Check

end Grammar

end TreeSearch
