import TreeSearch.Grammar.Store
import TreeSearch.Proofs.Constraint.Survival

namespace TreeSearch

variable {s : Store} {g next : Grammar}

-- The rules of a category by their indices, as a store should list them.
def Grammar.listOf (g : Grammar) (category : String) : List Nat := (g.producers category).map (·.index)

-- A grammar with lists.
def Grammar.listing (g : Grammar) (lists : Table String (List Nat)) : Store :=
  ⟨g.rules, lists, g.constraints, g.version⟩

namespace Store

theorem grammar_listing {lists : Table String (List Nat)} (h : lists.keys = g.categories) :
    (g.listing lists).grammar = g := by
  rw [grammar, Grammar.listing, h]

-- What the calls come to, from what the edits come to.
section Calls

section Steps

variable {α β : Type} {step : β → StoreM α}

theorem run_get_bind {step : Store → StoreM α} : (get >>= step).run s = (step s).run s := rfl

theorem run_attempt_bind {result : Except Fault β} : (StoreM.attempt result >>= step).run s =
    match result with
    | .ok b => (step b).run s
    | .error fault => .error fault s := by
  cases result <;> rfl

end Steps

theorem run_declare (category : String) : (declare category).run s =
    .ok () (if category ∈ s.categories.keys then s
      else (s.grammar.declare category).listing (s.categories.set category [])) := by
  rw [declare, run_get_bind]
  by_cases h : category ∈ s.categories.keys
  · rw [if_neg (not_not_intro h), if_pos h]
    rfl
  · have hnew : category ∉ s.grammar.categories := h
    rw [if_pos h, if_neg h, Grammar.declare, if_neg hnew]
    rfl

theorem run_add (p : Production) : (add p).run s =
    match s.grammar.add p.category p.children p.weight p.label with
    | .ok (g, index) => .ok index (g.listing
        (s.categories.set p.category ((s.categories.get? p.category).getD [] ++ [index])))
    | .error fault => .error fault s := by
  unfold Grammar.add
  cases h : p.children.find? fun child => child ≠ p.category && child ∉ s.grammar.categories with
  | some child =>
      have hknown : p.children.find? (fun child => child ≠ p.category && child ∉ s.categories.keys) =
        some child := h
      simp only [add, run_get_bind, hknown]
      rfl
  | none =>
      have hknown : p.children.find? (fun child => child ≠ p.category && child ∉ s.categories.keys) = none := h
      simp only [add, run_get_bind, hknown]
      rfl

theorem run_remove (index : Int) : (remove index).run s =
    match s.grammar.remove index with
    | .ok g => .ok () (g.listing s.categories)
    | .error fault => .error fault s := by
  rw [remove, run_get_bind, run_attempt_bind, Grammar.remove]
  cases s.grammar.rule index with
  | ok rule =>
      simp only [Except.ok_bind]
      cases rule.removed with
      | true => rfl
      | false => rfl
  | error fault => rfl

theorem run_attach (c : Constraint) : (attach c).run s =
    match s.grammar.attach c with
    | .ok (g, isNew) => .ok isNew (g.listing s.categories)
    | .error fault => .error fault s := by
  simp only [attach, run_get_bind, Grammar.attach]
  cases c.isValid s.grammar with
  | false => rfl
  | true =>
      cases s.grammar.constraints.any (·.isSame c) with
      | true => rfl
      | false => rfl

theorem run_compact : compact.run s =
    match Grammar.renumberConstraints (renumbering (numbering s.rules)) s.constraints with
    | .error fault => .error fault s
    | .ok constraints =>
        match (s.rules.filter (!·.removed)).mapM (renumbered (numbering s.rules)) with
        | .error fault => .error fault s
        | .ok rules => .ok (numbering s.rules)
            { rules, constraints, version := s.version + 1
              categories :=
                s.categories.mapValues fun _ indices => indices.filterMap (numbering s.rules).get? } := by
  rw [compact, run_get_bind, run_attempt_bind]
  cases Grammar.renumberConstraints (renumbering (numbering s.rules)) s.constraints with
  | error fault => rfl
  | ok constraints =>
      simp only [run_attempt_bind]
      cases (s.rules.filter (!·.removed)).mapM (renumbered (numbering s.rules)) with
      | error fault => rfl
      | ok rules => rfl

end Calls

-- The new indices, as a table and as pairs.
section Numbering

theorem entries_numbering {rules : List Rule}
    (h : (rules.filter (!·.removed)).Pairwise fun x y => x.index < y.index) :
    (numbering rules).entries = (rules.filter (!·.removed)).mapIdx fun new rule => (rule.index, new) := by
  have hfrom (mapping : Table Nat Nat)
      (hnew : ∀ rule ∈ rules.filter (!·.removed), rule.index ∉ mapping.keys) :
      (rules.foldl (fun mapping rule =>
        if rule.removed then mapping else mapping.set rule.index mapping.size) mapping).entries =
          mapping.entries ++
            (rules.filter (!·.removed)).mapIdx fun new rule => (rule.index, mapping.size + new) := by
    induction rules generalizing mapping with
    | nil => simp
    | cons rule rules ih =>
        rw [List.foldl_cons]
        cases hr : rule.removed with
        | true =>
            rw [List.filter_cons_of_neg (by simp [hr])] at h hnew ⊢
            exact ih h mapping hnew
        | false =>
            rw [List.filter_cons_of_pos (by simp [hr])] at h hnew ⊢
            obtain ⟨hlt, hsorted⟩ := List.pairwise_cons.mp h
            obtain ⟨hthis, hrest⟩ := List.forall_mem_cons.mp hnew
            rw [if_neg nofun, ih hsorted, Table.entries_set_of_not_mem hthis, Table.size_set_of_not_mem hthis,
              List.mapIdx_cons, List.append_assoc]
            · simp only [Nat.add_zero, Nat.add_assoc, Nat.add_comm 1, List.singleton_append]
            · intro other hother
              rw [Table.keys_set, if_neg hthis, List.mem_append, List.mem_singleton]
              exact fun hin => hin.elim (hrest other hother) fun he => Nat.ne_of_gt (hlt other hother) he
  have hsize : (Table.empty : Table Nat Nat).size = 0 := rfl
  have hempty := hfrom .empty fun _ _ => nofun
  simp only [hsize, Nat.zero_add] at hempty
  exact hempty

variable (hg : g.Regular)

include hg

theorem get?_numbering {old new : Nat} : (numbering g.rules).get? old = some new ↔
    ∃ rule, g.liveRules[new]? = some rule ∧ rule.index = old := by
  rw [Table.get?_eq_some, entries_numbering hg.liveRules_sorted, List.mem_iff_getElem?]
  simp only [List.getElem?_mapIdx, Option.map_eq_some_iff, Prod.mk.injEq]
  constructor
  · rintro ⟨n, rule, hn, rfl, rfl⟩
    exact ⟨rule, hn, rfl⟩
  · rintro ⟨rule, hn, rfl⟩
    exact ⟨new, rule, hn, rfl, rfl⟩

theorem renumbering_numbering : renumbering (numbering g.rules) = g.renumbering := by
  rw [renumbering, entries_numbering hg.liveRules_sorted]
  refine List.ext_getElem? fun n => ?_
  rw [List.getElem?_map, List.getElem?_mapIdx, Option.map_map, Grammar.renumbering, List.getElem?_mapIdx]
  rfl

theorem mapM_renumbered : (g.rules.filter (!·.removed)).mapM (renumbered (numbering g.rules)) =
    .ok (g.liveRules.mapIdx fun new rule => { rule with index := new }) := by
  rw [Except.mapM_eq_ok, forall₂_iff_getElem?]
  refine ⟨(List.length_mapIdx ..).symm, fun n rule new hrule hnew => ?_⟩
  rw [List.getElem?_mapIdx] at hnew
  obtain ⟨_, hrule', rfl⟩ := Option.map_eq_some_iff.mp hnew
  obtain rfl := Option.some.inj (hrule.symm.trans hrule')
  rw [renumbered, (get?_numbering hg).mpr ⟨_, hrule, rfl⟩]

-- A removed rule has no new index.
theorem get?_numbering_of_removed {rule : Rule} (hin : rule ∈ g.rules) (hr : rule.removed = true) :
    (numbering g.rules).get? rule.index = none := by
  refine Option.eq_none_iff_forall_ne_some.mpr fun new hnew => ?_
  obtain ⟨other, hother, he⟩ := (get?_numbering hg).mp hnew
  obtain ⟨hmem, hlive⟩ := List.mem_filter.mp (List.mem_of_getElem? hother)
  have hsame : other = rule := by
    have := hg.rule?_of_mem hmem
    rw [he, hg.rule?_of_mem hin] at this
    exact (Option.some.inj this).symm
  rw [hsame, hr] at hlive
  cases hlive

end Numbering

end Store

-- What the edits do to the lists.
section Lists

variable {category : String}

theorem filterMap_eq_of_map_eq {α β γ : Type} {l : List α} {k : List β} {f : α → Option γ} {f' : β → Option γ}
    (h : l.map f = k.map f') : l.filterMap f = k.filterMap f' := by
  rw [← Function.id_comp f, ← List.filterMap_map, h, List.filterMap_map, Function.id_comp]

namespace Grammar

-- The index of a rule of the category.
def place (category : String) (rule : Rule) : Option Nat :=
  if rule.category = category then some rule.index else none

theorem listOf_eq : g.listOf category = g.rules.filterMap (place category) := by
  rw [listOf, producers, ← List.filterMap_eq_map, List.filterMap_filter]
  refine List.filterMap_congr fun rule _ => ?_
  simp [place]

theorem Regular.mem_listOf (hg : g.Regular) {i : Nat} :
    i ∈ g.listOf category ↔ ∃ rule, g.rules[i]? = some rule ∧ rule.category = category := by
  simp only [listOf, producers, List.mem_map, List.mem_filter, decide_eq_true_eq]
  constructor
  · rintro ⟨rule, ⟨hrule, hcategory⟩, rfl⟩
    have hin := hg.rule?_of_mem hrule
    rw [rule?_natCast] at hin
    exact ⟨rule, hin, hcategory⟩
  · rintro ⟨rule, hrule, hcategory⟩
    exact ⟨rule, ⟨List.mem_of_getElem? hrule, hcategory⟩, hg.index i rule hrule⟩

theorem Regular.listOf_sorted (hg : g.Regular) (category : String) : (g.listOf category).Pairwise (· < ·) :=
  List.pairwise_map.mpr (hg.rules_sorted.filter _)

theorem Regular.listOf_of_not_mem (hg : g.Regular) (h : category ∉ g.categories) : g.listOf category = [] := by
  rw [listOf_eq, List.filterMap_eq_nil_iff]
  intro rule hrule
  have hother : rule.category ≠ category := fun he => h (he ▸ hg.category rule hrule)
  rw [place, if_neg hother]

theorem listOf_add {own : String} {children : List String} {weight : Option Weight} {label : Option String}
    {index : Nat} (h : g.add own children weight label = .ok (next, index)) :
    next.listOf category = g.listOf category ++ if own = category then [index] else [] := by
  obtain ⟨-, rfl, rfl⟩ := add_eq_ok.mp h
  rw [listOf_eq, listOf_eq, List.filterMap_append]
  congr 1
  by_cases hown : own = category <;> simp [place, hown]

theorem listOf_remove {index : Int} (h : g.remove index = .ok next) :
    next.listOf category = g.listOf category := by
  obtain ⟨rule, hrule, -, rfl⟩ := remove_eq_ok.mp h
  have hrule := rules_of_rule_eq_ok hrule
  rw [listOf_eq, listOf_eq]
  refine filterMap_eq_of_map_eq (List.ext_getElem? fun n => ?_)
  rw [List.getElem?_map, List.getElem?_map, List.getElem?_set]
  split
  · next he =>
      subst he
      rw [hrule, if_pos (List.getElem?_eq_some_iff.mp hrule).1]
      rfl
  · rfl

theorem Regular.listOf_compact {m : Renumbering} (hg : g.Regular) (h : g.compact = .ok (next, m)) :
    next.listOf category = (g.listOf category).filterMap (Store.numbering g.rules).get? := by
  obtain ⟨-, constraints, -, rfl⟩ := compact_eq_ok.mp h
  have hlive : (g.listOf category).filterMap (Store.numbering g.rules).get? =
      g.liveRules.filterMap fun rule => (place category rule).bind (Store.numbering g.rules).get? := by
    rw [listOf_eq, List.filterMap_filterMap, liveRules, List.filterMap_filter]
    refine List.filterMap_congr fun rule hrule => ?_
    cases hr : rule.removed with
    | false => rfl
    | true =>
        unfold place
        split
        · simpa using Store.get?_numbering_of_removed hg hrule hr
        · rfl
  rw [hlive, listOf_eq]
  refine filterMap_eq_of_map_eq (List.ext_getElem? fun n => ?_)
  rw [List.getElem?_map, List.getElem?_mapIdx, List.getElem?_map, Option.map_map]
  cases hn : g.liveRules[n]? with
  | none => rfl
  | some rule =>
      have hnew := (Store.get?_numbering hg).mpr ⟨rule, hn, rfl⟩
      by_cases hc : rule.category = category <;> simp [place, hc, hnew]

end Grammar

end Lists

namespace Store

-- Each category lists its rules, and the rest is a grammar that edits can make.
structure InStep (s : Store) : Prop where
  reachable : s.grammar.Reachable
  listed : ∀ category indices, s.categories.get? category = some indices →
    indices = s.grammar.listOf category

inductive Call
  | declare (category : String)
  | add (p : Production)
  | remove (index : Int)
  | compact
  | attach (c : Constraint)
  | clearConstraints

def Call.perform : Call → StoreM Unit
  | declare category => Store.declare category
  | add p => discard (Store.add p)
  | remove index => Store.remove index
  | compact => discard Store.compact
  | attach c => discard (Store.attach c)
  | clearConstraints => Store.clearConstraints

-- What the call does to a grammar without lists.
def Call.edit (g : Grammar) : Call → Except Fault Grammar
  | declare category => .ok (g.declare category)
  | add p => (·.1) <$> g.add p.category p.children p.weight p.label
  | remove index => g.remove index
  | compact => (·.1) <$> g.compact
  | attach c => (·.1) <$> g.attach c
  | clearConstraints => .ok g.clearConstraints

-- A call ends like the edit. One that raises leaves the store as it was.
def Follows (outcome : EStateM.Result Fault Store Unit) (s : Store) (edited : Except Fault Grammar) : Prop :=
  match outcome with
  | .ok () next => edited = .ok next.grammar ∧ next.InStep
  | .error fault next => edited = .error fault ∧ next = s

theorem run_discard {α : Type} (work : StoreM α) : (discard work).run s =
    match work.run s with
    | .ok _ next => .ok () next
    | .error fault next => .error fault next := by
  show EStateM.map _ work s = _
  unfold EStateM.map EStateM.run
  cases work s <;> rfl

theorem follows_listing (hg : g.Reachable) {lists : Table String (List Nat)} (hkeys : lists.keys = g.categories)
    (hlists : ∀ category indices, lists.get? category = some indices → indices = g.listOf category) :
    Follows (.ok () (g.listing lists)) s (.ok g) := by
  have hgrammar := grammar_listing hkeys
  refine ⟨congrArg _ hgrammar.symm, hgrammar.symm ▸ hg, fun category indices h => ?_⟩
  rw [hgrammar]
  exact hlists category indices h

namespace InStep

variable (hs : s.InStep)

include hs

theorem get?_categories (category : String) : s.categories.get? category =
    if category ∈ s.categories.keys then some (s.grammar.listOf category) else none := by
  split
  · next h =>
      obtain ⟨indices, hindices⟩ := Table.mem_keys.mp h
      rw [hindices, hs.listed category indices hindices]
  · next h => exact Table.get?_eq_none.mpr h

-- Edits that have no effect on the lists.
theorem follows_same (hg : g.Reachable) (hcategories : g.categories = s.grammar.categories)
    (hlist : ∀ category, g.listOf category = s.grammar.listOf category) :
    Follows (.ok () (g.listing s.categories)) s (.ok g) :=
  follows_listing hg hcategories.symm fun category indices h =>
    (hs.listed category indices h).trans (hlist category).symm

theorem follows_declare (category : String) :
    Follows ((declare category).run s) s (.ok (s.grammar.declare category)) := by
  rw [run_declare]
  have hreach := hs.reachable.declare category
  have hcategories : s.grammar.categories = s.categories.keys := rfl
  by_cases h : category ∈ s.categories.keys
  · rw [if_pos h, Grammar.declare, if_pos (hcategories ▸ h)]
    exact ⟨rfl, hs⟩
  · rw [if_neg h]
    refine follows_listing hreach ?_ fun other indices hindices => ?_
    · rw [Table.keys_set, if_neg h, Grammar.declare, if_neg (hcategories ▸ h)]
      rfl
    · have hrules : (s.grammar.declare category).listOf other = s.grammar.listOf other := by
        unfold Grammar.declare
        split <;> rfl
      rw [Table.get?_set] at hindices
      split at hindices
      · next he =>
          rw [hrules, he, hs.reachable.regular.listOf_of_not_mem h]
          exact (Option.some.inj hindices).symm
      · exact (hs.listed other indices hindices).trans hrules.symm

theorem follows_add (p : Production) :
    Follows ((discard (add p)).run s) s ((Call.add p).edit s.grammar) := by
  rw [run_discard, run_add, Call.edit]
  cases h : s.grammar.add p.category p.children p.weight p.label with
  | error fault => exact ⟨rfl, rfl⟩
  | ok result =>
      obtain ⟨g, index⟩ := result
      refine follows_listing (hs.reachable.add h) ?_ fun other indices hindices => ?_
      · obtain ⟨-, -, rfl⟩ := Grammar.add_eq_ok.mp h
        exact Table.keys_set
      · rw [Grammar.listOf_add h]
        rw [Table.get?_set] at hindices
        split at hindices
        · next he =>
            subst he
            rw [if_pos rfl, ← Option.some.inj hindices, hs.get?_categories]
            split
            · rfl
            · next hnew => rw [hs.reachable.regular.listOf_of_not_mem hnew, Option.getD_none]
        · next he =>
            rw [if_neg fun hown => he hown.symm, List.append_nil]
            exact hs.listed other indices hindices

theorem follows_remove (index : Int) :
    Follows ((remove index).run s) s (s.grammar.remove index) := by
  rw [run_remove]
  cases h : s.grammar.remove index with
  | error fault => exact ⟨rfl, rfl⟩
  | ok g =>
      refine hs.follows_same (hs.reachable.remove h) ?_ fun _ => Grammar.listOf_remove h
      obtain ⟨rule, -, -, rfl⟩ := Grammar.remove_eq_ok.mp h
      rfl

-- Every live rule has a new index, so that a compaction is refused for a constraint only.
theorem run_compact_eq : compact.run s =
    match s.grammar.compact with
    | .ok (g, _) => .ok (numbering s.rules)
        (g.listing (s.categories.mapValues fun _ indices => indices.filterMap (numbering s.rules).get?))
    | .error fault => .error fault s := by
  have hregular := hs.reachable.regular
  have hpairs : renumbering (numbering s.rules) = s.grammar.renumbering := renumbering_numbering hregular
  have hrules : (s.rules.filter (!·.removed)).mapM (renumbered (numbering s.rules)) = _ :=
    mapM_renumbered hregular
  rw [run_compact, hpairs, hrules]
  cases h : Grammar.renumberConstraints s.grammar.renumbering s.constraints with
  | error fault => rw [Grammar.compact_eq_error.mpr h]
  | ok constraints =>
      rw [Grammar.compact_eq_ok.mpr ⟨rfl, constraints, h, rfl⟩]
      rfl

theorem follows_compact : Follows ((discard compact).run s) s (Call.compact.edit s.grammar) := by
  rw [run_discard, hs.run_compact_eq, Call.edit]
  cases h : s.grammar.compact with
  | error fault => exact ⟨rfl, rfl⟩
  | ok result =>
      obtain ⟨g, m⟩ := result
      refine follows_listing (hs.reachable.compact h) ?_ fun category indices hindices => ?_
      · obtain ⟨-, constraints, -, rfl⟩ := Grammar.compact_eq_ok.mp h
        exact Table.keys_mapValues _
      · rw [Table.get?_mapValues, Option.map_eq_some_iff] at hindices
        obtain ⟨old, hold, rfl⟩ := hindices
        rw [hs.reachable.regular.listOf_compact h, ← hs.listed category old hold]
        rfl

theorem follows_attach (c : Constraint) :
    Follows ((discard (attach c)).run s) s ((Call.attach c).edit s.grammar) := by
  rw [run_discard, run_attach, Call.edit]
  cases h : s.grammar.attach c with
  | error fault => exact ⟨rfl, rfl⟩
  | ok result =>
      obtain ⟨g, isNew⟩ := result
      have hreach := hs.reachable.attach h
      obtain ⟨-, -, hg⟩ := Grammar.attach_eq_ok.mp h
      refine hs.follows_same hreach ?_ fun category => ?_
      · rw [hg]
        split <;> rfl
      · rw [hg]
        split <;> rfl

-- Every call does what the edit does, and one that raises does nothing.
theorem follows (call : Call) : Follows (call.perform.run s) s (call.edit s.grammar) := by
  cases call with
  | declare category => exact hs.follows_declare category
  | add p => exact hs.follows_add p
  | remove index => exact hs.follows_remove index
  | compact => exact hs.follows_compact
  | attach c => exact hs.follows_attach c
  | clearConstraints => exact hs.follows_same hs.reachable.clearConstraints rfl fun _ => rfl

end InStep

end Store

end TreeSearch
