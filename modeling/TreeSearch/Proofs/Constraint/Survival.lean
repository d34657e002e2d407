import TreeSearch.Proofs.Constraint.Renumbering

namespace TreeSearch

open TreeSearch.Tree

variable {g next : Grammar} {m : Renumbering}

section Rules

theorem Grammar.isLive_iff {r : Int} :
    g.isLive r = true ↔ ∃ rule, g.rule? r = some rule ∧ rule.removed = false := by
  unfold isLive
  cases g.rule? r with
  | none => simp
  | some rule => simp

theorem Grammar.Regular.rule?_of_mem (hg : g.Regular) {rule : Rule} (h : rule ∈ g.rules) :
    g.rule? rule.index = some rule := by
  obtain ⟨i, hi⟩ := List.mem_iff_getElem?.mp h
  rw [rule?_natCast, hg.index i rule hi]
  exact hi

-- A compaction gives new indices to the live rules.
theorem Grammar.Regular.isLive_iff_new? (hg : g.Regular) {r : Int} :
    g.isLive r = true ↔ ∃ s, g.renumbering.new? r = some s := by
  rw [isLive_iff]
  constructor
  · rintro ⟨rule, hrule, hlive⟩
    obtain ⟨i, -, hi⟩ := rule?_eq_some hrule
    have hmem : rule ∈ g.liveRules := List.mem_filter.mpr ⟨List.mem_of_getElem? hi, by simp [hlive]⟩
    obtain ⟨n, hn⟩ := List.mem_iff_getElem?.mp hmem
    exact ⟨n, hg.new?_eq_some.mpr ⟨n, rule, rfl, hg.rule?_index hrule, hn⟩⟩
  · rintro ⟨s, hs⟩
    obtain ⟨n, rule, -, rfl, hn⟩ := hg.new?_eq_some.mp hs
    obtain ⟨hmem, hlive⟩ := List.mem_filter.mp (List.mem_of_getElem? hn)
    exact ⟨rule, hg.rule?_of_mem hmem, by simpa using hlive⟩

theorem Grammar.Regular.not_isLive_iff (hg : g.Regular) {r : Int} :
    ¬ g.isLive r = true ↔ g.renumbering.new? r = none := by
  rw [hg.isLive_iff_new?, ← Option.isSome_iff_exists, Option.not_isSome_iff_eq_none]

-- The new indices are all bits.
theorem Grammar.Regular.exists_renumber (hg : g.Regular) (d : Domain) :
    ∃ kept, d.renumber g.renumbering = .ok kept := by
  have hbits : ∀ s ∈ d.rules.filterMap (fun r : Nat => g.renumbering.new? r), ∃ n, bitOf s = .ok n := by
    intro s hs
    obtain ⟨r, -, hr⟩ := List.mem_filterMap.mp hs
    obtain ⟨n, -, rfl, -⟩ := hg.new?_eq_some.mp hr
    exact ⟨n, bitOf_eq_ok.mpr rfl⟩
  obtain ⟨bits, hbits⟩ := Except.exists_mapM_eq_ok hbits
  exact ⟨Domain.ofList bits, Except.bind_eq_ok.mpr ⟨bits, hbits, rfl⟩⟩

end Rules

section Templates

-- What a template needs of its nodes and of its choices, by their rules and the numbers of their
-- parts, holds at each of them.
inductive Tree.Throughout (node : Int → Nat → Prop) (choice : Domain → Nat → Prop) : Tree → Prop
  | var (name : String) : Throughout node choice (.var name)
  | node {r : Int} {parts : List Tree} (here : node r parts.length)
      (below : ∀ c ∈ parts, Throughout node choice c) : Throughout node choice (.node r parts)
  | choice {d : Domain} {parts : List Tree} (here : choice d parts.length)
      (below : ∀ c ∈ parts, Throughout node choice c) : Throughout node choice (.choice d parts)

section Throughout

variable {onNode onNode' : Int → Nat → Prop} {onChoice onChoice' : Domain → Nat → Prop}
  {parts : List Tree} {template : Tree}

theorem Tree.throughout_node_iff {r : Int} : (node r parts).Throughout onNode onChoice ↔
    onNode r parts.length ∧ ∀ c ∈ parts, c.Throughout onNode onChoice := by
  constructor
  · rintro ⟨⟩
    exact ⟨‹_›, ‹_›⟩
  · rintro ⟨here, below⟩
    exact .node here below

theorem Tree.throughout_choice_iff {d : Domain} : (choice d parts).Throughout onNode onChoice ↔
    onChoice d parts.length ∧ ∀ c ∈ parts, c.Throughout onNode onChoice := by
  constructor
  · rintro ⟨⟩
    exact ⟨‹_›, ‹_›⟩
  · rintro ⟨here, below⟩
    exact .choice here below

theorem Tree.not_throughout_hole {category : String} {d : Domain} :
    ¬ (hole category d).Throughout onNode onChoice := by
  rintro ⟨⟩

theorem Tree.Throughout.imp (h : template.Throughout onNode onChoice)
    (hnode : ∀ r n, onNode r n → onNode' r n) (hchoice : ∀ d n, onChoice d n → onChoice' d n) :
    template.Throughout onNode' onChoice' := by
  induction h with
  | var name => exact .var name
  | node here _ ih => exact .node (hnode _ _ here) ih
  | choice here _ ih => exact .choice (hchoice _ _ here) ih

theorem Tree.throughout_and_iff : template.Throughout (fun r n => onNode r n ∧ onNode' r n)
      (fun d n => onChoice d n ∧ onChoice' d n) ↔
    template.Throughout onNode onChoice ∧ template.Throughout onNode' onChoice' := by
  constructor
  · exact fun h => ⟨h.imp (fun _ _ => And.left) fun _ _ => And.left,
      h.imp (fun _ _ => And.right) fun _ _ => And.right⟩
  · rintro ⟨h, h'⟩
    induction h with
    | var name => exact .var name
    | node here _ ih =>
        obtain ⟨here', below'⟩ := throughout_node_iff.mp h'
        exact .node ⟨here, here'⟩ fun c hc => ih c hc (below' c hc)
    | choice here _ ih =>
        obtain ⟨here', below'⟩ := throughout_choice_iff.mp h'
        exact .choice ⟨here, here'⟩ fun c hc => ih c hc (below' c hc)

end Throughout

-- Every node of the template has a live rule left.
def Tree.Live (g : Grammar) : Tree → Prop :=
  Throughout (fun r _ => g.isLive r = true) fun d _ => ∃ r : Nat, r ∈ d ∧ g.isLive r = true

theorem Tree.renumberAll_eq_some {parts news : List Tree} : renumberAll m parts = .ok (some news) ↔
    List.Forall₂ (fun c d => c.renumber m = .ok (some d)) parts news := by
  induction parts generalizing news with
  | nil => simp [renumberAll, eq_comm]
  | cons c parts ih =>
      rw [renumberAll, Except.bind_eq_ok]
      constructor
      · rintro ⟨found, hc, h⟩
        cases found with
        | none => cases h
        | some d =>
            obtain ⟨rest, hrest, h⟩ := Except.bind_eq_ok.mp h
            obtain ⟨ds, rfl, rfl⟩ := Option.map_eq_some_iff.mp (Except.ok.inj h)
            exact .cons hc (ih.mp hrest)
      · intro h
        cases h with
        | @cons _ d _ ds hc hrest =>
            exact ⟨some d, hc, Except.bind_eq_ok.mpr ⟨some ds, ih.mpr hrest, rfl⟩⟩

theorem Tree.renumber_node_eq_some {r : Int} {parts : List Tree} {new : Tree} :
    (node r parts).renumber m = .ok (some new) ↔ ∃ s news, m.new? r = some s ∧
      List.Forall₂ (fun c d => c.renumber m = .ok (some d)) parts news ∧ new = node s news := by
  rw [renumber_node_eq_ok]
  constructor
  · rintro ⟨below, hbelow, hnew⟩
    obtain ⟨news, rfl, hmap⟩ := Option.bind_eq_some_iff.mp hnew.symm
    obtain ⟨s, hs, rfl⟩ := Option.map_eq_some_iff.mp hmap
    exact ⟨s, news, hs, renumberAll_eq_some.mp hbelow, rfl⟩
  · rintro ⟨s, news, hs, hnews, rfl⟩
    exact ⟨some news, renumberAll_eq_some.mpr hnews, by rw [Option.bind_some, hs, Option.map_some]⟩

theorem Tree.renumber_choice_eq_ok_some {d : Domain} {parts : List Tree} {new : Tree} :
    (choice d parts).renumber m = .ok (some new) ↔ ∃ kept news, d.renumber m = .ok kept ∧
      kept.isEmpty = false ∧ List.Forall₂ (fun c d => c.renumber m = .ok (some d)) parts news ∧
      new = choice kept news := by
  constructor
  · intro h
    obtain ⟨below, hbelow, h⟩ := Except.bind_eq_ok.mp h
    cases below with
    | none => cases h
    | some news =>
        obtain ⟨kept, hkept, h⟩ := Except.bind_eq_ok.mp h
        cases hempty : kept.isEmpty with
        | true => simp [hempty] at h
        | false =>
            refine ⟨kept, news, hkept, hempty, renumberAll_eq_some.mp hbelow, ?_⟩
            simpa [hempty] using h.symm
  · rintro ⟨kept, news, hkept, hempty, hnews, rfl⟩
    rw [renumber, renumberAll_eq_some.mpr hnews, Except.ok_bind]
    simp [hkept, hempty]

-- The part of a template that a tree stays of can be told from the tree.
theorem Tree.renumber_eq_node {s : Int} {news : List Tree} {template : Tree} :
    template.renumber m = .ok (some (node s news)) ↔ ∃ r parts, template = node r parts ∧
      m.new? r = some s ∧ List.Forall₂ (fun c d => c.renumber m = .ok (some d)) parts news := by
  constructor
  · intro h
    cases template with
    | node r parts =>
        obtain ⟨s', news', hs, hnews, he⟩ := renumber_node_eq_some.mp h
        obtain ⟨rfl, rfl⟩ := node.inj he
        exact ⟨r, parts, rfl, hs, hnews⟩
    | hole => cases h
    | choice => obtain ⟨_, _, _, _, _, ⟨⟩⟩ := renumber_choice_eq_ok_some.mp h
    | var => cases h
  · rintro ⟨r, parts, rfl, hs, hnews⟩
    exact renumber_node_eq_some.mpr ⟨s, news, hs, hnews, rfl⟩

theorem Tree.renumber_eq_choice {kept : Domain} {news : List Tree} {template : Tree} :
    template.renumber m = .ok (some (choice kept news)) ↔ ∃ d parts, template = choice d parts ∧
      d.renumber m = .ok kept ∧ kept.isEmpty = false ∧
      List.Forall₂ (fun c d => c.renumber m = .ok (some d)) parts news := by
  constructor
  · intro h
    cases template with
    | node => obtain ⟨_, _, _, _, ⟨⟩⟩ := renumber_node_eq_some.mp h
    | hole => cases h
    | choice d parts =>
        obtain ⟨kept', news', hkept, hempty, hnews, he⟩ := renumber_choice_eq_ok_some.mp h
        obtain ⟨rfl, rfl⟩ := choice.inj he
        exact ⟨d, parts, rfl, hkept, hempty, hnews⟩
    | var => cases h
  · rintro ⟨d, parts, rfl, hkept, hempty, hnews⟩
    exact renumber_choice_eq_ok_some.mpr ⟨kept, news, hkept, hempty, hnews, rfl⟩

theorem Tree.renumber_eq_var {name : String} {template : Tree} :
    template.renumber m = .ok (some (var name)) ↔ template = var name := by
  constructor
  · intro h
    cases template with
    | node => obtain ⟨_, _, _, _, ⟨⟩⟩ := renumber_node_eq_some.mp h
    | hole => cases h
    | choice => obtain ⟨_, _, _, _, _, ⟨⟩⟩ := renumber_choice_eq_ok_some.mp h
    | var name' => simpa [renumber] using h
  · rintro rfl
    rfl

-- A choice keeps a rule if one of its rules is live.
theorem Grammar.Regular.isEmpty_renumber (hg : g.Regular) {d kept : Domain}
    (hkept : d.renumber g.renumbering = .ok kept) :
    kept.isEmpty = false ↔ ∃ r : Nat, r ∈ d ∧ g.isLive r = true := by
  rw [Domain.isEmpty_eq_false_iff]
  constructor
  · rintro ⟨n, hn⟩
    obtain ⟨r, hr, hs⟩ := (Domain.mem_renumber hkept n).mp hn
    exact ⟨r, hr, hg.isLive_iff_new?.mpr ⟨n, hs⟩⟩
  · rintro ⟨r, hr, hlive⟩
    obtain ⟨s, hs⟩ := hg.isLive_iff_new?.mp hlive
    obtain ⟨n, -, rfl, -⟩ := hg.new?_eq_some.mp hs
    exact ⟨n, (Domain.mem_renumber hkept n).mpr ⟨r, hr, hs⟩⟩

-- The parts stay together, or are gone together.
theorem Grammar.renumber_parts {parts : List Tree}
    (h : ∀ c ∈ parts, (c.Live g ∧ ∃ new, c.renumber g.renumbering = .ok (some new)) ∨
      ¬ c.Live g ∧ c.renumber g.renumbering = .ok none) :
    ((∀ c ∈ parts, c.Live g) ∧ ∃ news, renumberAll g.renumbering parts = .ok (some news)) ∨
      (¬ ∀ c ∈ parts, c.Live g) ∧ renumberAll g.renumbering parts = .ok none := by
  induction parts with
  | nil => exact Or.inl ⟨nofun, [], rfl⟩
  | cons c parts ih =>
      rw [List.forall_mem_cons] at h ⊢
      obtain ⟨⟨hlive, new, hnew⟩ | ⟨hdead, hnone⟩, hparts⟩ := h
      · rcases ih hparts with ⟨hall, news, hnews⟩ | ⟨hdead, hnone⟩
        · exact Or.inl ⟨⟨hlive, hall⟩, new :: news, by rw [renumberAll, hnew, Except.ok_bind, hnews]; rfl⟩
        · exact Or.inr ⟨fun h => hdead h.2, by rw [renumberAll, hnew, Except.ok_bind, hnone]; rfl⟩
      · exact Or.inr ⟨fun h => hdead h.1, by rw [renumberAll, hnone]; rfl⟩

-- A template stays if it is live, and is gone otherwise.
theorem Grammar.Regular.renumber_template (hg : g.Regular) (template : Tree) :
    (template.Live g ∧ ∃ new, template.renumber g.renumbering = .ok (some new)) ∨
      ¬ template.Live g ∧ template.renumber g.renumbering = .ok none := by
  induction template using Tree.induction with
  | node r parts ih =>
      rw [Tree.Live, throughout_node_iff, hg.isLive_iff_new?]
      rcases renumber_parts ih with ⟨hall, news, hnews⟩ | ⟨hdead, hnone⟩
      · cases hr : g.renumbering.new? r with
        | some s =>
            exact Or.inl ⟨⟨⟨s, rfl⟩, hall⟩, node s news,
              renumber_node_eq_ok.mpr ⟨some news, hnews, by rw [Option.bind_some, hr]; rfl⟩⟩
        | none =>
            refine Or.inr ⟨?_, renumber_node_eq_ok.mpr
              ⟨some news, hnews, by rw [Option.bind_some, hr]; rfl⟩⟩
            rintro ⟨⟨s, ⟨⟩⟩, -⟩
      · exact Or.inr ⟨fun h => hdead h.2, renumber_node_eq_ok.mpr ⟨none, hnone, rfl⟩⟩
  | hole => exact Or.inr ⟨not_throughout_hole, rfl⟩
  | choice d parts ih =>
      obtain ⟨kept, hkept⟩ := hg.exists_renumber d
      rw [Tree.Live, throughout_choice_iff, renumber, ← hg.isEmpty_renumber hkept]
      rcases renumber_parts ih with ⟨hall, news, hnews⟩ | ⟨hdead, hnone⟩
      · rw [hnews, Except.ok_bind]
        simp only [hkept, Except.ok_bind, Except.pure_eq_ok]
        cases kept.isEmpty with
        | true => exact Or.inr ⟨by simp, rfl⟩
        | false => exact Or.inl ⟨⟨rfl, hall⟩, choice kept news, rfl⟩
      · exact Or.inr ⟨fun h => hdead h.2, by rw [hnone]; rfl⟩
  | var name => exact Or.inl ⟨.var name, .var name, rfl⟩

end Templates

section Constraints

-- A constraint that stays has its rules and its template under new indices. One on the root keeps
-- its index.
inductive Constraint.Becomes (m : Renumbering) : Constraint → Constraint → Prop
  | forbidden {template new : Tree} (h : template.renumber m = .ok (some new)) :
      Becomes m (.forbidden template) (.forbidden new)
  | contains {r s : Int} (h : m.new? r = some s) : Becomes m (.contains r) (.contains s)
  | containsSubtree {template new : Tree} (h : template.renumber m = .ok (some new)) :
      Becomes m (.containsSubtree template) (.containsSubtree new)
  | ordered {template new : Tree} {names : List String} (h : template.renumber m = .ok (some new)) :
      Becomes m (.ordered template names) (.ordered new names)
  | forbiddenSequence {sequence news ignore : List Int} (h : sequence.mapM m.new? = some news) :
      Becomes m (.forbiddenSequence sequence ignore) (.forbiddenSequence news (ignore.filterMap m.new?))
  | unique {r s : Int} (h : m.new? r = some s) : Becomes m (.unique r) (.unique s)
  | rootOnly (r : Int) : Becomes m (.rootOnly r) (.rootOnly r)

theorem Constraint.renumber_eq_some {c new : Constraint} :
    c.renumber m = .ok (some new) ↔ c.Becomes m new := by
  constructor
  · intro h
    cases c with
    | forbidden template =>
        obtain ⟨found, ht, h⟩ := Except.bind_eq_ok.mp h
        obtain ⟨t, rfl, rfl⟩ := Option.map_eq_some_iff.mp (Except.ok.inj h)
        exact .forbidden ht
    | contains rule =>
        cases hr : m.new? rule with
        | none => simp [Constraint.renumber, hr] at h
        | some s =>
            obtain rfl : contains s = new := by simpa [Constraint.renumber, hr] using h
            exact .contains hr
    | containsSubtree template =>
        obtain ⟨found, ht, h⟩ := Except.bind_eq_ok.mp h
        cases found with
        | none => cases h
        | some t =>
            obtain rfl := Option.some.inj (Except.ok.inj h)
            exact .containsSubtree ht
    | ordered template names =>
        obtain ⟨found, ht, h⟩ := Except.bind_eq_ok.mp h
        obtain ⟨t, rfl, rfl⟩ := Option.map_eq_some_iff.mp (Except.ok.inj h)
        exact .ordered ht
    | forbiddenSequence sequence ignore =>
        obtain ⟨news, hs, rfl⟩ := Option.map_eq_some_iff.mp (Except.ok.inj h)
        exact .forbiddenSequence hs
    | unique rule =>
        obtain ⟨s, hs, rfl⟩ := Option.map_eq_some_iff.mp (Except.ok.inj h)
        exact .unique hs
    | rootOnly rule =>
        obtain rfl := Option.some.inj (Except.ok.inj h)
        exact .rootOnly rule
  · intro h
    cases h with
    | forbidden h => simp [Constraint.renumber, h]
    | contains h => simp [Constraint.renumber, h]
    | containsSubtree h => simp [Constraint.renumber, h]
    | ordered h => simp [Constraint.renumber, h]
    | forbiddenSequence h => simp [Constraint.renumber, h]
    | unique h => simp [Constraint.renumber, h]
    | rootOnly => rfl

-- The constraint has not lost all rules of a node, nor any other rule that it is about.
def Constraint.Live (g : Grammar) : Constraint → Prop
  | forbidden template | containsSubtree template | ordered template _ => template.Live g
  | contains rule | unique rule => g.isLive rule = true
  | forbiddenSequence sequence _ => ∀ r ∈ sequence, g.isLive r = true
  | rootOnly _ => True

-- No tree meets the constraint when its rules are gone.
def Constraint.Needed : Constraint → Prop
  | contains _ | containsSubtree _ => True
  | _ => False

theorem Grammar.Regular.mapM_new?_eq_none (hg : g.Regular) {l : List Int} :
    l.mapM g.renumbering.new? = none ↔ ¬ ∀ r ∈ l, g.isLive r = true := by
  simp only [Option.eq_none_iff_forall_ne_some, ne_eq, mapM_new?_eq_some, ← hg.isLive_iff_new?]
  exact ⟨fun h hall => h _ ⟨hall, rfl⟩, fun h _ ha => h ha.1⟩

-- A constraint stays if it is live. Otherwise it is gone, and refused when it is needed.
theorem Grammar.Regular.renumber_constraint (hg : g.Regular) (c : Constraint) :
    (c.Live g ∧ ∃ new, c.renumber g.renumbering = .ok (some new)) ∨
      ¬ c.Live g ∧ (c.Needed ∧ c.renumber g.renumbering = .error (.needsRemovedRule c) ∨
        ¬ c.Needed ∧ c.renumber g.renumbering = .ok none) := by
  simp only [Constraint.renumber_eq_some]
  cases c with
  | forbidden template =>
      rcases hg.renumber_template template with ⟨hlive, new, hnew⟩ | ⟨hdead, hnone⟩
      · exact Or.inl ⟨hlive, _, .forbidden hnew⟩
      · exact Or.inr ⟨hdead, Or.inr ⟨id, by simp [Constraint.renumber, hnone]⟩⟩
  | contains rule =>
      cases hr : g.renumbering.new? rule with
      | some new => exact Or.inl ⟨hg.isLive_iff_new?.mpr ⟨new, hr⟩, _, .contains hr⟩
      | none =>
          exact Or.inr ⟨hg.not_isLive_iff.mpr hr, Or.inl ⟨trivial, by simp [Constraint.renumber, hr]⟩⟩
  | containsSubtree template =>
      rcases hg.renumber_template template with ⟨hlive, new, hnew⟩ | ⟨hdead, hnone⟩
      · exact Or.inl ⟨hlive, _, .containsSubtree hnew⟩
      · exact Or.inr ⟨hdead, Or.inl ⟨trivial, by simp [Constraint.renumber, hnone]⟩⟩
  | ordered template names =>
      rcases hg.renumber_template template with ⟨hlive, new, hnew⟩ | ⟨hdead, hnone⟩
      · exact Or.inl ⟨hlive, _, .ordered hnew⟩
      · exact Or.inr ⟨hdead, Or.inr ⟨id, by simp [Constraint.renumber, hnone]⟩⟩
  | forbiddenSequence sequence ignore =>
      cases hs : sequence.mapM g.renumbering.new? with
      | some news =>
          refine Or.inl ⟨?_, _, .forbiddenSequence hs⟩
          by_contra hdead
          rw [hg.mapM_new?_eq_none.mpr hdead] at hs
          cases hs
      | none =>
          exact Or.inr ⟨hg.mapM_new?_eq_none.mp hs, Or.inr ⟨id, by simp [Constraint.renumber, hs]⟩⟩
  | unique rule =>
      cases hr : g.renumbering.new? rule with
      | some new => exact Or.inl ⟨hg.isLive_iff_new?.mpr ⟨new, hr⟩, _, .unique hr⟩
      | none =>
          exact Or.inr ⟨hg.not_isLive_iff.mpr hr, Or.inr ⟨id, by simp [Constraint.renumber, hr]⟩⟩
  | rootOnly rule => exact Or.inl ⟨trivial, _, .rootOnly rule⟩

end Constraints

namespace Grammar

open Classical

variable {constraints news : List Constraint}

-- The live constraints stay, in order, when nothing else is needed.
theorem Regular.renumberConstraints_eq_ok (hg : g.Regular) :
    renumberConstraints g.renumbering constraints = .ok news ↔
      (∀ c ∈ constraints, c.Needed → c.Live g) ∧
        List.Forall₂ (fun c new => c.renumber g.renumbering = .ok (some new))
          (constraints.filter fun c => c.Live g) news := by
  induction constraints generalizing news with
  | nil => simp [renumberConstraints, eq_comm]
  | cons c constraints ih =>
      rw [List.forall_mem_cons, renumberConstraints]
      rcases hg.renumber_constraint c with ⟨hlive, new, hnew⟩ | ⟨hdead, ⟨hneeded, hnew⟩ | ⟨hneeded, hnew⟩⟩
      · rw [hnew, Except.ok_bind, Except.bind_eq_ok, List.filter_cons_of_pos (by simpa using hlive)]
        constructor
        · rintro ⟨rest, hrest, h⟩
          obtain rfl := Except.ok.inj h
          obtain ⟨hall, hnews⟩ := ih.mp hrest
          exact ⟨⟨fun _ => hlive, hall⟩, .cons hnew hnews⟩
        · rintro ⟨⟨-, hall⟩, h⟩
          cases h with
          | @cons _ d _ rest hd hrest =>
              obtain rfl : new = d := by simpa [hnew] using hd
              exact ⟨rest, ih.mpr ⟨hall, hrest⟩, rfl⟩
      · refine iff_of_false (fun h => ?_) fun h => hdead (h.1.1 hneeded)
        rw [hnew] at h
        cases h
      · rw [hnew, Except.ok_bind, Except.bind_eq_ok, List.filter_cons_of_neg (by simpa using hdead)]
        constructor
        · rintro ⟨rest, hrest, h⟩
          obtain rfl := Except.ok.inj h
          obtain ⟨hall, hnews⟩ := ih.mp hrest
          exact ⟨⟨fun h => (hneeded h).elim, hall⟩, hnews⟩
        · rintro ⟨⟨-, hall⟩, h⟩
          exact ⟨news, ih.mpr ⟨hall, h⟩, rfl⟩

-- The first constraint that is needed and no longer live is the one that is refused.
theorem Regular.renumberConstraints_eq_error (hg : g.Regular) {fault : Fault}
    (h : renumberConstraints g.renumbering constraints = .error fault) :
    ∃ c, constraints.find? (fun c => c.Needed ∧ ¬ c.Live g) = some c ∧ fault = .needsRemovedRule c := by
  induction constraints with
  | nil => cases h
  | cons c constraints ih =>
      have hrest (hc : ¬ (c.Needed ∧ ¬ c.Live g)) {found : Option Constraint}
          (hfound : c.renumber g.renumbering = .ok found) :
          ∃ d, (c :: constraints).find? (fun c => c.Needed ∧ ¬ c.Live g) = some d ∧
            fault = .needsRemovedRule d := by
        rw [renumberConstraints, hfound, Except.ok_bind] at h
        rw [List.find?_cons_of_neg (by simpa using hc)]
        cases hr : renumberConstraints g.renumbering constraints with
        | ok rest => simp [hr] at h
        | error other =>
            rw [hr] at h
            exact ih (hr.trans h)
      rcases hg.renumber_constraint c with ⟨hlive, new, hnew⟩ | ⟨hdead, ⟨hneeded, hnew⟩ | ⟨hneeded, hnew⟩⟩
      · exact hrest (fun hc => hc.2 hlive) hnew
      · rw [renumberConstraints, hnew] at h
        exact ⟨c, List.find?_cons_of_pos (by simpa using ⟨hneeded, hdead⟩), (Except.error.inj h).symm⟩
      · exact hrest (fun hc => hneeded hc.1) hnew

end Grammar

end TreeSearch
