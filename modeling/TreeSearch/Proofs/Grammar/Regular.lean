import TreeSearch.Grammar.Draft
import TreeSearch.Proofs.Domain
import TreeSearch.Proofs.Result

namespace TreeSearch

-- Templates have rules, choices and variables. None of their rules is negative.
inductive Tree.IsPattern : Tree → Prop
  | var (name : String) : IsPattern (.var name)
  | node {rule : Int} {parts : List Tree} (nonneg : 0 ≤ rule) (below : ∀ c ∈ parts, IsPattern c) :
      IsPattern (.node rule parts)
  | choice {rules : Domain} {parts : List Tree} (below : ∀ c ∈ parts, IsPattern c) :
      IsPattern (.choice rules parts)

-- What stays true of an attached constraint through every edit of its grammar.
def Constraint.Tame : Constraint → Prop
  | forbidden template | containsSubtree template => template.IsPattern
  | contains rule | unique rule => 0 ≤ rule
  | ordered template names => template.IsPattern ∧ ∀ name ∈ names, name ∈ template.occurrences
  | forbiddenSequence sequence _ => sequence ≠ [] ∧ ∀ r ∈ sequence, 0 ≤ r
  | rootOnly _ => True

namespace Grammar

-- A grammar that some sequence of edits makes out of the empty one.
inductive Reachable : Grammar → Prop
  | empty : Reachable Grammar.empty
  | declare {g : Grammar} (category : String) (h : Reachable g) : Reachable (g.declare category)
  | add {g next : Grammar} {category : String} {children : List String} {weight : Option Weight}
      {label : Option String} {index : Nat} (h : Reachable g)
      (done : g.add category children weight label = .ok (next, index)) : Reachable next
  | remove {g next : Grammar} {index : Int} (h : Reachable g) (done : g.remove index = .ok next) :
      Reachable next
  | compact {g next : Grammar} {renumbering : Renumbering} (h : Reachable g)
      (done : g.compact = .ok (next, renumbering)) : Reachable next
  | attach {g next : Grammar} {c : Constraint} {isNew : Bool} (h : Reachable g)
      (done : g.attach c = .ok (next, isNew)) : Reachable next
  | clearConstraints {g : Grammar} (h : Reachable g) : Reachable g.clearConstraints

structure Regular (g : Grammar) : Prop where
  index : ∀ (i : Nat) (r : Rule), g.rules[i]? = some r → r.index = i
  category : ∀ r ∈ g.rules, r.category ∈ g.categories
  children : ∀ r ∈ g.rules, ∀ c ∈ r.children, c ∈ g.categories
  tame : ∀ c ∈ g.constraints, c.Tame

end Grammar

section Attaching

variable (g : Grammar)

theorem Grammar.nonneg_of_isLive {index : Int} (h : g.isLive index = true) : 0 ≤ index := by
  unfold isLive rule? at h
  by_contra hn
  simp [hn] at h

theorem Tree.areTemplates_iff (parts : List Tree) :
    areTemplates g parts = true ↔ ∀ c ∈ parts, isTemplate g c = true := by
  induction parts with
  | nil => simp [areTemplates]
  | cons c parts ih => simp [areTemplates, ih]

theorem Tree.isPattern_of_isTemplate {template : Tree} (h : template.isTemplate g = true) :
    template.IsPattern := by
  induction template using Tree.induction with
  | node r cs ih =>
      simp only [isTemplate, Bool.and_eq_true, areTemplates_iff] at h
      exact .node (g.nonneg_of_isLive h.1.1) fun c hc => ih c hc (h.2 c hc)
  | hole => simp [isTemplate] at h
  | choice d cs ih =>
      simp only [isTemplate, Bool.and_eq_true, areTemplates_iff] at h
      exact .choice fun c hc => ih c hc (h.2 c hc)
  | var name => exact .var name

theorem Tree.mem_variableNames (template : Tree) (name : String) :
    name ∈ template.variableNames ↔ name ∈ template.occurrences := by
  simp [variableNames]

theorem Constraint.tame_of_isValid {c : Constraint} (h : c.isValid g = true) : c.Tame := by
  cases c with
  | forbidden template => exact Tree.isPattern_of_isTemplate g h
  | contains rule => exact g.nonneg_of_isLive h
  | containsSubtree template => exact Tree.isPattern_of_isTemplate g h
  | ordered template names =>
      simp only [isValid, Bool.and_eq_true, List.all_eq_true, decide_eq_true_eq,
        Tree.mem_variableNames] at h
      exact ⟨Tree.isPattern_of_isTemplate g h.2, h.1.2⟩
  | forbiddenSequence sequence ignore =>
      simp only [isValid, Bool.and_eq_true, Bool.not_eq_true', List.isEmpty_eq_false_iff,
        List.all_eq_true] at h
      exact ⟨h.1, fun r hr => g.nonneg_of_isLive (h.2 r (List.mem_append_left _ hr))⟩
  | unique rule => exact g.nonneg_of_isLive h
  | rootOnly rule => trivial

end Attaching

section Renumbering

variable {renumbering : Renumbering}

theorem Renumbering.mem_of_new? {old new : Int} (h : renumbering.new? old = some new) :
    (old, new) ∈ renumbering := by
  unfold Renumbering.new? at h
  obtain ⟨⟨o, n⟩, hf, rfl⟩ := Option.map_eq_some_iff.mp h
  have ho : o = old := by simpa using List.find?_some hf
  subst ho
  exact List.mem_reverse.mp (List.mem_of_find?_eq_some hf)

-- As many new indices as old ones, each the new one of some old one.
theorem Renumbering.mapM_new? {old new : List Int} (h : old.mapM renumbering.new? = some new) :
    new.length = old.length ∧ ∀ r ∈ new, ∃ q ∈ old, renumbering.new? q = some r := by
  induction old generalizing new with
  | nil =>
      obtain rfl : [] = new := by simpa using h
      exact ⟨rfl, nofun⟩
  | cons q old ih =>
      obtain ⟨r, hr, rest, hrest, rfl⟩ : ∃ r, renumbering.new? q = some r ∧
          ∃ rest, old.mapM renumbering.new? = some rest ∧ r :: rest = new := by
        simpa [List.mapM_cons, Option.bind_eq_some_iff] using h
      obtain ⟨hl, hm⟩ := ih hrest
      refine ⟨by simp [hl], fun s hs => ?_⟩
      rcases List.mem_cons.mp hs with rfl | hs
      · exact ⟨q, List.mem_cons_self, hr⟩
      · obtain ⟨q', hq', hn⟩ := hm s hs
        exact ⟨q', List.mem_cons_of_mem q hq', hn⟩

-- The parts of a template change their rules and keep their shape.
theorem Tree.renumberAll_spec {parts new : List Tree}
    (ih : ∀ c ∈ parts, ∀ d, c.renumber renumbering = .ok (some d) →
      d.IsPattern ∧ d.occurrences = c.occurrences)
    (h : renumberAll renumbering parts = .ok (some new)) :
    (∀ d ∈ new, d.IsPattern) ∧ occurrencesIn new = occurrencesIn parts := by
  induction parts generalizing new with
  | nil =>
      obtain rfl : [] = new := by simpa [renumberAll] using h
      exact ⟨nofun, rfl⟩
  | cons c parts ihp =>
      obtain ⟨found, hc, h⟩ := Except.bind_eq_ok.mp h
      cases found with
      | none => cases h
      | some d =>
          obtain ⟨rest, hr, h⟩ := Except.bind_eq_ok.mp h
          obtain ⟨ds, rfl, rfl⟩ : ∃ ds, rest = some ds ∧ d :: ds = new := by simpa using h
          obtain ⟨hd, ho⟩ := ih c List.mem_cons_self d hc
          obtain ⟨hds, hos⟩ := ihp (fun c' hc' => ih c' (List.mem_cons_of_mem c hc')) hr
          refine ⟨fun d' hd' => ?_, by rw [occurrencesIn, occurrencesIn, ho, hos]⟩
          rcases List.mem_cons.mp hd' with rfl | hm
          · exact hd
          · exact hds d' hm

theorem Tree.renumber_spec (hnn : ∀ p ∈ renumbering, 0 ≤ p.2) {template new : Tree}
    (h : template.renumber renumbering = .ok (some new)) :
    new.IsPattern ∧ new.occurrences = template.occurrences := by
  induction template using Tree.induction generalizing new with
  | node r cs ih =>
      obtain ⟨found, ha, h⟩ := Except.bind_eq_ok.mp h
      cases found with
      | none => cases h
      | some ds =>
          obtain ⟨q, hq, rfl⟩ : ∃ q, renumbering.new? r = some q ∧ Tree.node q ds = new := by
            simpa using h
          obtain ⟨hds, ho⟩ := renumberAll_spec (fun c hc d hd => ih c hc hd) ha
          exact ⟨.node (hnn _ (Renumbering.mem_of_new? hq)) hds, by simp [occurrences, ho]⟩
  | hole => simp [renumber] at h
  | choice d cs ih =>
      obtain ⟨found, ha, h⟩ := Except.bind_eq_ok.mp h
      cases found with
      | none => cases h
      | some ds =>
          obtain ⟨kept, -, h⟩ := Except.bind_eq_ok.mp h
          obtain ⟨-, rfl⟩ : kept.isEmpty = false ∧ Tree.choice kept ds = new := by simpa using h
          obtain ⟨hds, ho⟩ := renumberAll_spec (fun c hc d hd => ih c hc hd) ha
          exact ⟨.choice hds, by simp [occurrences, ho]⟩
  | var name =>
      obtain rfl : Tree.var name = new := by simpa [renumber] using h
      exact ⟨.var name, rfl⟩

theorem Constraint.tame_renumber (hnn : ∀ p ∈ renumbering, 0 ≤ p.2) {c new : Constraint}
    (hc : c.Tame) (h : c.renumber renumbering = .ok (some new)) : new.Tame := by
  cases c with
  | forbidden template =>
      obtain ⟨found, ht, h⟩ := Except.bind_eq_ok.mp h
      obtain ⟨t, rfl, rfl⟩ : ∃ t, found = some t ∧ forbidden t = new := by simpa using h
      exact (Tree.renumber_spec hnn ht).1
  | contains rule =>
      cases hr : renumbering.new? rule with
      | none => simp [Constraint.renumber, hr] at h
      | some r =>
          obtain rfl : contains r = new := by simpa [Constraint.renumber, hr] using h
          exact hnn _ (Renumbering.mem_of_new? hr)
  | containsSubtree template =>
      obtain ⟨found, ht, h⟩ := Except.bind_eq_ok.mp h
      cases found with
      | none => cases h
      | some t =>
          obtain rfl : containsSubtree t = new := by simpa using h
          exact (Tree.renumber_spec hnn ht).1
  | ordered template names =>
      obtain ⟨found, ht, h⟩ := Except.bind_eq_ok.mp h
      obtain ⟨t, rfl, rfl⟩ : ∃ t, found = some t ∧ ordered t names = new := by simpa using h
      obtain ⟨hp, ho⟩ := Tree.renumber_spec hnn ht
      exact ⟨hp, fun name hn => ho ▸ hc.2 name hn⟩
  | forbiddenSequence sequence ignore =>
      obtain ⟨s, hs, rfl⟩ : ∃ s, sequence.mapM renumbering.new? = some s ∧
          forbiddenSequence s (ignore.filterMap renumbering.new?) = new := by
        simpa [Constraint.renumber] using h
      obtain ⟨hl, hm⟩ := Renumbering.mapM_new? hs
      refine ⟨?_, fun r hr => ?_⟩
      · rintro rfl
        exact hc.1 (List.length_eq_zero_iff.mp hl.symm)
      · obtain ⟨q, -, hq⟩ := hm r hr
        exact hnn _ (Renumbering.mem_of_new? hq)
  | unique rule =>
      obtain ⟨r, hr, rfl⟩ : ∃ r, renumbering.new? rule = some r ∧ unique r = new := by
        simpa [Constraint.renumber] using h
      exact hnn _ (Renumbering.mem_of_new? hr)
  | rootOnly rule =>
      obtain rfl : rootOnly rule = new := by simpa [Constraint.renumber] using h
      trivial

theorem Grammar.tame_renumberConstraints (hnn : ∀ p ∈ renumbering, 0 ≤ p.2)
    {constraints new : List Constraint} (hc : ∀ c ∈ constraints, c.Tame)
    (h : renumberConstraints renumbering constraints = .ok new) : ∀ c ∈ new, c.Tame := by
  induction constraints generalizing new with
  | nil =>
      obtain rfl : [] = new := by simpa [renumberConstraints] using h
      exact nofun
  | cons c constraints ih =>
      obtain ⟨found, hf, h⟩ := Except.bind_eq_ok.mp h
      obtain ⟨rest, hr, h⟩ := Except.bind_eq_ok.mp h
      obtain rfl : found.toList ++ rest = new := by simpa using h
      intro d hd
      rcases List.mem_append.mp hd with hd | hd
      · have hs : found = some d := by simpa using hd
        exact Constraint.tame_renumber hnn (hc c List.mem_cons_self) (hs ▸ hf)
      · exact ih (fun e he => hc e (List.mem_cons_of_mem c he)) hr d hd

end Renumbering

namespace Grammar

-- What the edits do when they are not refused.
section Edits

variable {g next : Grammar} {index : Int}

theorem rules_of_rule_eq_ok {r : Rule} (h : g.rule index = .ok r) : g.rules[index.toNat]? = some r := by
  unfold rule at h
  split at h
  · rename_i found hf
    unfold rule? at hf
    split at hf
    · exact hf.trans (congrArg some (Except.ok.inj h))
    · cases hf
  · cases h

theorem add_eq_ok {category : String} {children : List String} {weight : Option Weight}
    {label : Option String} {index : Nat} :
    g.add category children weight label = .ok (next, index) ↔
      (∀ child ∈ children, child = category ∨ child ∈ g.categories) ∧ index = g.rules.length ∧
        next = { g with
          rules := g.rules ++ [⟨index, category, children, weight, label, false⟩]
          categories := if category ∈ g.categories then g.categories else g.categories ++ [category]
          version := g.version + 1 } := by
  unfold Grammar.add
  split
  · rename_i child hchild
    refine iff_of_false nofun fun h => ?_
    obtain ⟨hother, hunknown⟩ : ¬ child = category ∧ child ∉ g.categories := by
      simpa using List.find?_some hchild
    exact (h.1 child (List.mem_of_find?_eq_some hchild)).elim hother hunknown
  · rename_i hnone
    have hknown : ∀ child ∈ children, child = category ∨ child ∈ g.categories := by
      intro child hchild
      by_contra hunknown
      exact List.find?_eq_none.mp hnone child hchild (by simpa using hunknown)
    constructor
    · intro h
      cases h
      exact ⟨hknown, rfl, rfl⟩
    · rintro ⟨-, rfl, rfl⟩
      rfl

theorem remove_eq_ok : g.remove index = .ok next ↔ ∃ rule, g.rule index = .ok rule ∧ rule.removed = false ∧
    next = { g with
      rules := g.rules.set index.toNat { rule with removed := true }, version := g.version + 1 } := by
  unfold Grammar.remove
  rw [Except.bind_eq_ok]
  refine exists_congr fun rule => and_congr_right fun _ => ?_
  cases rule.removed with
  | true => exact iff_of_false nofun nofun
  | false => exact ⟨fun h => ⟨rfl, (Except.ok.inj h).symm⟩, fun h => h.2 ▸ rfl⟩

theorem compact_eq_ok {m : Renumbering} : g.compact = .ok (next, m) ↔ m = g.renumbering ∧
    ∃ constraints, renumberConstraints g.renumbering g.constraints = .ok constraints ∧
      next = { g with
        rules := g.liveRules.mapIdx fun new rule => { rule with index := new }
        constraints, version := g.version + 1 } := by
  unfold Grammar.compact
  rw [Except.bind_eq_ok]
  constructor
  · rintro ⟨constraints, hc, h⟩
    obtain ⟨rfl, rfl⟩ := Prod.mk.inj (Except.ok.inj h)
    exact ⟨rfl, constraints, hc, rfl⟩
  · rintro ⟨rfl, constraints, hc, rfl⟩
    exact ⟨constraints, hc, rfl⟩

theorem compact_eq_error {fault : Fault} :
    g.compact = .error fault ↔ renumberConstraints g.renumbering g.constraints = .error fault := by
  unfold Grammar.compact
  cases renumberConstraints g.renumbering g.constraints with
  | ok constraints => exact iff_of_false nofun nofun
  | error other => exact ⟨fun h => congrArg _ (Except.error.inj h), fun h => congrArg _ (Except.error.inj h)⟩

theorem attach_eq_ok {c : Constraint} {isNew : Bool} : g.attach c = .ok (next, isNew) ↔
    c.isValid g = true ∧ isNew = !g.constraints.any (·.isSame c) ∧
      next = if isNew then { g with constraints := g.constraints ++ [c], version := g.version + 1 } else g := by
  unfold Grammar.attach
  cases c.isValid g with
  | false => exact iff_of_false nofun nofun
  | true =>
      cases g.constraints.any (·.isSame c) with
      | true =>
          constructor
          · intro h
            obtain ⟨rfl, rfl⟩ := Prod.mk.inj (Except.ok.inj h)
            exact ⟨rfl, rfl, rfl⟩
          · rintro ⟨-, rfl, rfl⟩
            rfl
      | false =>
          constructor
          · intro h
            obtain ⟨rfl, rfl⟩ := Prod.mk.inj (Except.ok.inj h)
            exact ⟨rfl, rfl, rfl⟩
          · rintro ⟨-, rfl, rfl⟩
            rfl

end Edits

theorem Regular.declare {g : Grammar} (hg : g.Regular) (category : String) :
    (g.declare category).Regular := by
  unfold Grammar.declare
  split
  · exact hg
  · exact ⟨hg.index, fun r hr => List.mem_append_left _ (hg.category r hr),
      fun r hr c hc => List.mem_append_left _ (hg.children r hr c hc), hg.tame⟩

theorem Regular.add {g next : Grammar} {category : String} {children : List String}
    {weight : Option Weight} {label : Option String} {index : Nat} (hg : g.Regular)
    (h : g.add category children weight label = .ok (next, index)) : next.Regular := by
  obtain ⟨hchildren, rfl, rfl⟩ := add_eq_ok.mp h
  have hknown : ∀ c ∈ g.categories, c ∈ (if category ∈ g.categories then g.categories
      else g.categories ++ [category]) := by
    intro c hc
    split
    · exact hc
    · exact List.mem_append_left _ hc
  have hown : category ∈ (if category ∈ g.categories then g.categories
      else g.categories ++ [category]) := by
    split
    · assumption
    · simp
  refine ⟨fun i r hr => ?_, fun r hr => ?_, fun r hr c hc => ?_, hg.tame⟩
  · rw [List.getElem?_append] at hr
    split at hr
    · exact hg.index i r hr
    · rename_i hi
      obtain ⟨hlt, rfl⟩ := List.getElem?_eq_some_iff.mp hr
      simp at hlt ⊢
      omega
  · rcases List.mem_append.mp hr with hr | hr
    · exact hknown _ (hg.category r hr)
    · obtain rfl := List.mem_singleton.mp hr
      exact hown
  · rcases List.mem_append.mp hr with hr | hr
    · exact hknown _ (hg.children r hr c hc)
    · obtain rfl := List.mem_singleton.mp hr
      rcases hchildren c hc with rfl | hc
      · exact hown
      · exact hknown c hc

theorem Regular.remove {g next : Grammar} {index : Int} (hg : g.Regular)
    (h : g.remove index = .ok next) : next.Regular := by
  obtain ⟨rule, hr, -, rfl⟩ := remove_eq_ok.mp h
  have hrule := rules_of_rule_eq_ok hr
  have hmem := List.mem_of_getElem? hrule
  refine ⟨fun i r hi => ?_, fun r hi => ?_, fun r hi c hc => ?_, hg.tame⟩
  · simp only [List.getElem?_set] at hi
    split at hi
    · rename_i he
      split at hi
      · cases hi
        exact he ▸ hg.index _ rule hrule
      · cases hi
    · exact hg.index i r hi
  · rcases List.mem_or_eq_of_mem_set hi with hi | rfl
    · exact hg.category r hi
    · exact hg.category rule hmem
  · rcases List.mem_or_eq_of_mem_set hi with hi | rfl
    · exact hg.children r hi c hc
    · exact hg.children rule hmem c hc

theorem Regular.compact {g next : Grammar} {renumbering : Renumbering} (hg : g.Regular)
    (h : g.compact = .ok (next, renumbering)) : next.Regular := by
  obtain ⟨rfl, constraints, hc, rfl⟩ := compact_eq_ok.mp h
  have hlive : ∀ r ∈ g.liveRules.mapIdx (fun new rule => { rule with index := new }),
      ∃ rule ∈ g.rules, r.category = rule.category ∧ r.children = rule.children := by
    intro r hr
    obtain ⟨i, hi, rfl⟩ := List.mem_mapIdx.mp hr
    exact ⟨_, List.mem_of_mem_filter (List.getElem_mem hi), rfl, rfl⟩
  refine ⟨fun i r hi => ?_, fun r hr => ?_, fun r hr c hc => ?_, ?_⟩
  · simp only [List.getElem?_mapIdx] at hi
    obtain ⟨rule, -, rfl⟩ := Option.map_eq_some_iff.mp hi
    rfl
  · obtain ⟨rule, hm, he, -⟩ := hlive r hr
    exact he ▸ hg.category rule hm
  · obtain ⟨rule, hm, -, he⟩ := hlive r hr
    exact hg.children rule hm c (he ▸ hc)
  · refine tame_renumberConstraints (fun p hp => ?_) hg.tame hc
    obtain ⟨i, hi, rfl⟩ := List.mem_mapIdx.mp hp
    exact Int.natCast_nonneg i

theorem Regular.attach {g next : Grammar} {c : Constraint} {isNew : Bool} (hg : g.Regular)
    (h : g.attach c = .ok (next, isNew)) : next.Regular := by
  obtain ⟨hv, -, rfl⟩ := attach_eq_ok.mp h
  cases isNew with
  | false => exact hg
  | true =>
      refine ⟨hg.index, hg.category, hg.children, fun d hd => ?_⟩
      rcases List.mem_append.mp hd with hd | hd
      · exact hg.tame d hd
      · obtain rfl := List.mem_singleton.mp hd
        exact Constraint.tame_of_isValid g hv

theorem Reachable.regular {g : Grammar} (h : g.Reachable) : g.Regular := by
  induction h with
  | empty => exact ⟨nofun, nofun, nofun, nofun⟩
  | declare category _ ih => exact ih.declare category
  | add _ done ih => exact ih.add done
  | remove _ done ih => exact ih.remove done
  | compact _ done ih => exact ih.compact done
  | attach _ done ih => exact ih.attach done
  | clearConstraints _ ih => exact ⟨ih.index, ih.category, ih.children, nofun⟩

-- No category is listed twice.
theorem Reachable.nodup_categories {g : Grammar} (h : g.Reachable) : g.categories.Nodup := by
  have hconcat {categories : List String} {category : String} (hn : categories.Nodup)
      (hc : category ∉ categories) : (categories ++ [category]).Nodup :=
    by
    refine List.nodup_append.mpr ⟨hn, by simp, fun known hm new hnew he => hc ?_⟩
    rwa [← List.mem_singleton.mp hnew, ← he]
  induction h with
  | empty => exact .nil
  | declare category _ ih =>
      unfold Grammar.declare
      split
      · exact ih
      · exact hconcat ih ‹_›
  | add _ done ih =>
      obtain ⟨-, rfl, rfl⟩ := add_eq_ok.mp done
      show (ite _ _ _ : List String).Nodup
      split
      · exact ih
      · exact hconcat ih ‹_›
  | remove _ done ih =>
      obtain ⟨rule, -, -, rfl⟩ := remove_eq_ok.mp done
      exact ih
  | compact _ done ih =>
      obtain ⟨rfl, constraints, -, rfl⟩ := compact_eq_ok.mp done
      exact ih
  | @attach _ _ _ isNew _ done ih =>
      obtain ⟨-, -, rfl⟩ := attach_eq_ok.mp done
      cases isNew with
      | false => exact ih
      | true => exact ih
  | clearConstraints _ ih => exact ih

theorem Reachable.addAll {g next : Grammar} (hg : g.Reachable) {ps : List Production}
    (h : Draft.addAll g ps = .ok next) : next.Reachable := by
  induction ps generalizing g with
  | nil =>
      obtain rfl := Except.ok.inj h
      exact hg
  | cons p ps ih =>
      obtain ⟨⟨added, index⟩, hadd, h⟩ := Except.bind_eq_ok.mp h
      exact ih (.add hg hadd) h

theorem Reachable.attachAll {g next : Grammar} (hg : g.Reachable) {cs : List Constraint}
    (h : g.attachAll cs = .ok next) : next.Reachable := by
  induction cs generalizing g with
  | nil =>
      obtain rfl := Except.ok.inj h
      exact hg
  | cons c cs ih =>
      obtain ⟨⟨attached, isNew⟩, hattach, h⟩ := Except.bind_eq_ok.mp h
      exact ih (.attach hg hattach) h

-- What a draft becomes is made by the operations.
theorem Reachable.build {draft : Draft} {g : Grammar} (h : draft.build = .ok g) : g.Reachable := by
  have hdeclared {start : Grammar} (hg : start.Reachable) (categories : List String) :
      (categories.foldl Grammar.declare start).Reachable := by
    induction categories generalizing start with
    | nil => exact hg
    | cons c categories ih => exact ih (.declare c hg)
  obtain ⟨filled, hfilled, h⟩ := Except.bind_eq_ok.mp h
  exact ((hdeclared .empty _).addAll hfilled).attachAll h

-- Trees that end or go on, and may end at the root only.
def endless : Grammar :=
  ⟨[⟨0, "S", [], none, none, false⟩, ⟨1, "S", ["S"], none, none, false⟩], ["S"], [.rootOnly 0], 3⟩

theorem reachable_endless : endless.Reachable := by
  let leaf : Rule := ⟨0, "S", [], none, none, false⟩
  let inner : Rule := ⟨1, "S", ["S"], none, none, false⟩
  have hleaf : empty.add "S" [] none none = .ok (⟨[leaf], ["S"], [], 1⟩, 0) := rfl
  have hinner : (⟨[leaf], ["S"], [], 1⟩ : Grammar).add "S" ["S"] none none =
      .ok (⟨[leaf, inner], ["S"], [], 2⟩, 1) := rfl
  have hroot : (⟨[leaf, inner], ["S"], [], 2⟩ : Grammar).attach (.rootOnly 0) = .ok (endless, true) := rfl
  exact .attach (.add (.add .empty hleaf) hinner) hroot

end Grammar

end TreeSearch
