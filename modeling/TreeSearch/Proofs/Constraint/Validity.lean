import TreeSearch.Proofs.Constraint.Survival

namespace TreeSearch

open TreeSearch.Tree

variable {g next : Grammar} {m : Renumbering}

section Templates

variable {template new : Tree}

-- A rule, removed or not, with a number of children.
def Grammar.Takes (g : Grammar) (r : Int) (n : Nat) : Prop :=
  ∃ rule, g.rule? r = some rule ∧ rule.arity = n

-- The nodes of the template have as many parts as their rules take children.
def Tree.WellSized (g : Grammar) : Tree → Prop := Throughout g.Takes fun _ _ => True

-- At every choice of the template a live rule takes as many children as there are parts.
def Tree.Hosted (g : Grammar) : Tree → Prop :=
  Throughout (fun _ _ => True) fun d n => ∃ r : Nat, r ∈ d ∧ g.isLive r = true ∧ g.Takes r n

theorem Grammar.any_arity_iff {r : Int} {n : Nat} :
    (g.rule? r).any (fun rule => decide (rule.arity = n)) = true ↔ g.Takes r n := by
  rw [Option.any_eq_true]
  exact exists_congr fun rule => by rw [decide_eq_true_eq]

theorem Tree.isTemplate_iff : template.isTemplate g = true ↔
    template.Throughout (fun r n => g.isLive r = true ∧ g.Takes r n) fun d n =>
      (∃ r, r ∈ d) ∧ (∀ r : Nat, r ∈ d → g.isLive r = true) ∧ ∃ r : Nat, r ∈ d ∧ g.Takes r n := by
  induction template using Tree.induction with
  | node r parts ih =>
      rw [isTemplate, throughout_node_iff, Bool.and_eq_true, Bool.and_eq_true, areTemplates_iff,
        Grammar.any_arity_iff]
      exact and_congr_right fun _ => forall₂_congr ih
  | hole => exact iff_of_false Bool.false_ne_true not_throughout_hole
  | choice d parts ih =>
      rw [isTemplate, throughout_choice_iff, Bool.and_eq_true, Bool.and_eq_true, Bool.and_eq_true,
        areTemplates_iff, Bool.not_eq_true', Domain.isEmpty_eq_false_iff, List.all_eq_true, List.any_eq_true]
      simp only [Domain.mem_rules, Grammar.any_arity_iff, and_assoc]
      exact and_congr_right fun _ => and_congr_right fun _ => and_congr_right fun _ => forall₂_congr ih
  | var name => exact iff_of_true rfl (.var name)

-- What is needed of a template's nodes and choices carries over to new indices.
theorem Tree.throughout_renumber {onNode onNode' : Int → Nat → Prop}
    {onChoice onChoice' : Domain → Nat → Prop}
    (hnode : ∀ r s n, m.new? r = some s → (onNode' s n ↔ onNode r n))
    (hchoice : ∀ d kept n, d.renumber m = .ok kept → kept.isEmpty = false → (onChoice' kept n ↔ onChoice d n))
    (h : template.renumber m = .ok (some new)) :
    new.Throughout onNode' onChoice' ↔ template.Throughout onNode onChoice := by
  have hparts {parts news : List Tree} (hall : List.Forall₂ (fun c d => c.renumber m = .ok (some d)) parts news)
      (ih : ∀ c ∈ parts, ∀ d, c.renumber m = .ok (some d) →
        (d.Throughout onNode' onChoice' ↔ c.Throughout onNode onChoice)) :
      (∀ d ∈ news, d.Throughout onNode' onChoice') ↔ ∀ c ∈ parts, c.Throughout onNode onChoice := by
    induction hall with
    | nil => exact iff_of_true nofun nofun
    | @cons c d parts news hc _ ihall =>
        rw [List.forall_mem_cons, List.forall_mem_cons, ih c List.mem_cons_self d hc,
          ihall fun c' hc' => ih c' (List.mem_cons_of_mem c hc')]
  induction template using Tree.induction generalizing new with
  | node r parts ih =>
      obtain ⟨s, news, hs, hnews, rfl⟩ := renumber_node_eq_some.mp h
      rw [throughout_node_iff, throughout_node_iff, hnode r s _ hs, hnews.length_eq,
        hparts hnews fun c hc d hd => ih c hc hd]
  | hole => cases h
  | choice d parts ih =>
      obtain ⟨kept, news, hkept, hempty, hnews, rfl⟩ := renumber_choice_eq_ok_some.mp h
      rw [throughout_choice_iff, throughout_choice_iff, hchoice d kept _ hkept hempty, hnews.length_eq,
        hparts hnews fun c hc d hd => ih c hc hd]
  | var name =>
      obtain rfl : Tree.var name = new := by simpa [renumber] using h
      exact iff_of_true (.var name) (.var name)

end Templates

section Rules

variable {r s : Int} {n : Nat}

theorem Grammar.Takes.add {category : String} {children : List String} {weight : Option Weight}
    {label : Option String} {index : Nat} (h : g.Takes r n)
    (hadd : g.add category children weight label = .ok (next, index)) : next.Takes r n := by
  obtain ⟨rule, hrule, harity⟩ := h
  obtain ⟨i, rfl, hi⟩ := Grammar.rule?_eq_some hrule
  obtain ⟨-, rfl, rfl⟩ := Grammar.add_eq_ok.mp hadd
  refine ⟨rule, ?_, harity⟩
  rw [Grammar.rule?_natCast]
  exact (List.getElem?_append_left (List.getElem?_eq_some_iff.mp hi).1).trans hi

theorem Grammar.Takes.remove {index : Int} (h : g.Takes r n) (hremove : g.remove index = .ok next) :
    next.Takes r n := by
  obtain ⟨rule, hrule, harity⟩ := h
  obtain ⟨i, rfl, hi⟩ := Grammar.rule?_eq_some hrule
  obtain ⟨gone, hgone, -, rfl⟩ := Grammar.remove_eq_ok.mp hremove
  have hgone := Grammar.rules_of_rule_eq_ok hgone
  by_cases hsame : index.toNat = i
  · subst hsame
    obtain rfl := Option.some.inj (hgone.symm.trans hi)
    refine ⟨{ gone with removed := true }, ?_, harity⟩
    rw [Grammar.rule?_natCast]
    exact List.getElem?_set_self (List.getElem?_eq_some_iff.mp hi).1
  · refine ⟨rule, ?_, harity⟩
    rw [Grammar.rule?_natCast]
    exact (List.getElem?_set_ne hsame).trans hi

theorem Grammar.Renumbers.takes_iff (h : g.Renumbers next m) (hr : m.new? r = some s) :
    next.Takes s n ↔ g.Takes r n := by
  obtain ⟨rule, index, hrule, -, hnext⟩ := h.rule r s hr
  simp [Grammar.Takes, hrule, hnext, Rule.arity]

-- After a compaction the live rules are those with new indices.
theorem Grammar.Renumbers.isLive_iff (h : g.Renumbers next m) :
    next.isLive s = true ↔ ∃ r, m.new? r = some s := by
  rw [Grammar.isLive_iff]
  constructor
  · rintro ⟨rule, hrule, -⟩
    exact h.onto s rule hrule
  · rintro ⟨r, hr⟩
    obtain ⟨rule, index, -, hlive, hnext⟩ := h.rule r s hr
    exact ⟨{ rule with index }, hnext, hlive⟩

theorem Grammar.Regular.exists_new?_iff (hg : g.Regular) :
    (∃ r, g.renumbering.new? r = some s) ↔ 0 ≤ s ∧ s < g.liveRules.length := by
  constructor
  · rintro ⟨r, hr⟩
    obtain ⟨k, rule, rfl, -, hk⟩ := hg.new?_eq_some.mp hr
    have := (List.getElem?_eq_some_iff.mp hk).1
    omega
  · rintro ⟨hs, hlt⟩
    obtain ⟨k, rfl⟩ := Int.eq_ofNat_of_zero_le hs
    exact ⟨_, hg.new?_eq_some.mpr ⟨k, _, rfl, rfl, List.getElem?_eq_getElem (by omega)⟩⟩

end Rules

section Renumbered

variable {template new : Tree}

theorem Tree.wellSized_renumber (hm : g.Renumbers next m) (h : template.renumber m = .ok (some new)) :
    new.WellSized next ↔ template.WellSized g :=
  throughout_renumber (fun _ _ _ hr => hm.takes_iff hr) (fun _ _ _ _ _ => Iff.rfl) h

-- All rules of the new template are live. Its nodes fit as they did before, so only its choices can
-- make it invalid.
theorem Tree.isTemplate_renumber (hm : g.Renumbers next m) (hsized : template.WellSized g)
    (hlive : ∀ r, g.isLive r = true ↔ ∃ s, m.new? r = some s) (h : template.renumber m = .ok (some new)) :
    new.isTemplate next = true ↔ template.Hosted g := by
  have hchoice (d kept : Domain) (n : Nat) (hkept : d.renumber m = .ok kept) (hempty : kept.isEmpty = false) :
      ((∃ s, s ∈ kept) ∧ (∀ s : Nat, s ∈ kept → next.isLive s = true) ∧
        ∃ s : Nat, s ∈ kept ∧ next.Takes s n) ↔
        True ∧ ∃ r : Nat, r ∈ d ∧ g.isLive r = true ∧ g.Takes r n := by
    have hnew (s : Nat) (hs : s ∈ kept) : next.isLive s = true := by
      obtain ⟨r, -, hr⟩ := (Domain.mem_renumber hkept s).mp hs
      exact hm.isLive_iff.mpr ⟨r, hr⟩
    constructor
    · rintro ⟨-, -, s, hs, htakes⟩
      obtain ⟨r, hr, hrs⟩ := (Domain.mem_renumber hkept s).mp hs
      exact ⟨trivial, r, hr, (hlive r).mpr ⟨s, hrs⟩, (hm.takes_iff hrs).mp htakes⟩
    · rintro ⟨-, r, hr, hrlive, htakes⟩
      obtain ⟨s, hrs⟩ := (hlive r).mp hrlive
      obtain ⟨k, rfl⟩ := hm.new_nonneg hrs
      exact ⟨kept.isEmpty_eq_false_iff.mp hempty, hnew, k, (Domain.mem_renumber hkept k).mpr ⟨r, hr, hrs⟩,
        (hm.takes_iff hrs).mpr htakes⟩
  have hnode (r s : Int) (n : Nat) (hr : m.new? r = some s) :
      (next.isLive s = true ∧ next.Takes s n) ↔ g.Takes r n ∧ True := by
    rw [hm.takes_iff hr, and_true, and_iff_right (hm.isLive_iff.mpr ⟨r, hr⟩)]
  rw [isTemplate_iff, throughout_renumber hnode hchoice h, throughout_and_iff]
  exact and_iff_right hsized

end Renumbered

section Constraints

variable {c new : Constraint}

-- The templates fit, and an order is one of at least two variables.
def Constraint.WellSized (g : Grammar) : Constraint → Prop
  | forbidden template | containsSubtree template => template.WellSized g
  | ordered template names => template.WellSized g ∧ 2 ≤ names.length
  | _ => True

-- What the live constraints need to be valid after a compaction. Constraints on the root are not
-- renumbered, so it takes as many live rules to have one with their index.
def Constraint.Hosted (g : Grammar) : Constraint → Prop
  | forbidden template | containsSubtree template | ordered template _ => template.Hosted g
  | rootOnly rule => 0 ≤ rule ∧ rule < g.liveRules.length
  | _ => True

theorem Tree.wellSized_of_isTemplate {template : Tree} (h : template.isTemplate g = true) : template.WellSized g :=
  (isTemplate_iff.mp h).imp (fun _ _ => And.right) fun _ _ _ => trivial

theorem Constraint.wellSized_of_isValid (h : c.isValid g = true) : c.WellSized g := by
  cases c with
  | forbidden template => exact Tree.wellSized_of_isTemplate h
  | containsSubtree template => exact Tree.wellSized_of_isTemplate h
  | ordered template names =>
      simp only [isValid, Bool.and_eq_true, decide_eq_true_eq] at h
      exact ⟨Tree.wellSized_of_isTemplate h.2, h.1.1⟩
  | contains => trivial
  | forbiddenSequence => trivial
  | unique => trivial
  | rootOnly => trivial

theorem Constraint.WellSized.imp (h : c.WellSized g) (hrules : ∀ r n, g.Takes r n → next.Takes r n) :
    c.WellSized next := by
  have htemplate {template : Tree} (h : template.WellSized g) : template.WellSized next :=
    h.imp hrules fun _ _ => id
  cases c with
  | forbidden template => exact htemplate h
  | containsSubtree template => exact htemplate h
  | ordered template names => exact ⟨htemplate h.1, h.2⟩
  | contains => trivial
  | forbiddenSequence => trivial
  | unique => trivial
  | rootOnly => trivial

theorem Constraint.WellSized.renumber (hm : g.Renumbers next m) (hsized : c.WellSized g)
    (h : c.renumber m = .ok (some new)) : new.WellSized next := by
  cases renumber_eq_some.mp h with
  | forbidden ht => exact (Tree.wellSized_renumber hm ht).mpr hsized
  | contains => trivial
  | containsSubtree ht => exact (Tree.wellSized_renumber hm ht).mpr hsized
  | ordered ht => exact ⟨(Tree.wellSized_renumber hm ht).mpr hsized.1, hsized.2⟩
  | forbiddenSequence => trivial
  | unique => trivial
  | rootOnly => trivial

-- A live constraint is valid after a compaction if its choices are hosted.
theorem Grammar.Regular.isValid_renumber (hg : g.Regular) (hcompact : g.compact = .ok (next, m))
    (htame : c.Tame) (hsized : c.WellSized g) (h : c.renumber m = .ok (some new)) :
    new.isValid next = true ↔ c.Hosted g := by
  have hm := hg.renumbers hcompact
  obtain ⟨rfl, -⟩ := Grammar.compact_eq_ok.mp hcompact
  have htemplate {template new : Tree} (hsized : template.WellSized g)
      (h : template.renumber g.renumbering = .ok (some new)) :
      new.isTemplate next = true ↔ template.Hosted g :=
    Tree.isTemplate_renumber hm hsized (fun _ => hg.isLive_iff_new?) h
  have hlive {r s : Int} (hr : g.renumbering.new? r = some s) : next.isLive s = true :=
    hm.isLive_iff.mpr ⟨r, hr⟩
  cases Constraint.renumber_eq_some.mp h with
  | forbidden ht => exact htemplate hsized ht
  | contains hr => exact iff_of_true (hlive hr) trivial
  | containsSubtree ht => exact htemplate hsized ht
  | @ordered template t names ht =>
      rw [Constraint.isValid, Bool.and_eq_true, Bool.and_eq_true, htemplate hsized.1 ht, decide_eq_true_eq,
        List.all_eq_true]
      refine and_iff_right ⟨hsized.2, fun name hname => decide_eq_true ?_⟩
      rw [Tree.mem_variableNames, (Tree.renumber_spec hm.nonneg ht).2]
      exact htame.2 name hname
  | @forbiddenSequence sequence news ignore hs =>
      refine iff_of_true ?_ trivial
      obtain ⟨hlength, hnews⟩ := Renumbering.mapM_new? hs
      rw [Constraint.isValid, Bool.and_eq_true, Bool.not_eq_true', List.isEmpty_eq_false_iff, List.all_eq_true]
      refine ⟨?_, fun s hin => ?_⟩
      · rintro rfl
        exact htame.1 (List.length_eq_zero_iff.mp hlength.symm)
      · rcases List.mem_append.mp hin with hin | hin
        · obtain ⟨r, -, hr⟩ := hnews s hin
          exact hlive hr
        · obtain ⟨r, -, hr⟩ := List.mem_filterMap.mp hin
          exact hlive hr
  | unique hr => exact iff_of_true (hlive hr) trivial
  | rootOnly rule => exact hm.isLive_iff.trans hg.exists_new?_iff

end Constraints

namespace Grammar

-- What was valid when it was attached still fits.
theorem Reachable.wellSized (hg : g.Reachable) : ∀ c ∈ g.constraints, c.WellSized g := by
  induction hg with
  | empty => exact nofun
  | declare category _ ih =>
      unfold Grammar.declare
      split
      · exact ih
      · exact fun c hc => (ih c hc).imp fun _ _ => id
  | add _ done ih =>
      intro c hc
      have hkeeps {r : Int} {n : Nat} (h : Takes _ r n) := h.add done
      obtain ⟨-, rfl, rfl⟩ := add_eq_ok.mp done
      exact (ih c hc).imp fun _ _ => hkeeps
  | remove _ done ih =>
      intro c hc
      have hkeeps {r : Int} {n : Nat} (h : Takes _ r n) := h.remove done
      obtain ⟨rule, -, -, rfl⟩ := remove_eq_ok.mp done
      exact (ih c hc).imp fun _ _ => hkeeps
  | compact hg done ih =>
      intro c hc
      have hm := hg.regular.renumbers done
      obtain ⟨rfl, constraints, hnews, rfl⟩ := compact_eq_ok.mp done
      obtain ⟨-, hall⟩ := hg.regular.renumberConstraints_eq_ok.mp hnews
      obtain ⟨old, hold, h⟩ := exists_of_forall₂ hall.flip hc
      exact (ih old (List.mem_of_mem_filter hold)).renumber hm h
  | @attach _ _ d isNew _ done ih =>
      obtain ⟨hvalid, -, rfl⟩ := attach_eq_ok.mp done
      cases isNew with
      | false => exact ih
      | true =>
          intro c hc
          rcases List.mem_append.mp hc with hc | hc
          · exact (ih c hc).imp fun _ _ => id
          · obtain rfl := List.mem_singleton.mp hc
            exact (Constraint.wellSized_of_isValid hvalid).imp fun _ _ => id
  | clearConstraints => exact nofun

open Classical in
-- What a compaction makes of the constraints. The first one is refused that is needed and has lost
-- all rules of a node, or the rule that it is about. When there is none, the live constraints stay in
-- order, and valid are those of them that still have a rule with as many children at every choice.
theorem Reachable.compact_constraints (hg : g.Reachable) :
    (∀ fault, g.compact = .error fault → ∃ c,
      g.constraints.find? (fun c => c.Needed ∧ ¬ c.Live g) = some c ∧ fault = .needsRemovedRule c) ∧
    ∀ next m, g.compact = .ok (next, m) → (∀ c ∈ g.constraints, c.Needed → c.Live g) ∧
      List.Forall₂ (fun c new => c.renumber m = .ok (some new) ∧ (new.isValid next = true ↔ c.Hosted g))
        (g.constraints.filter fun c => c.Live g) next.constraints := by
  constructor
  · exact fun fault h => hg.regular.renumberConstraints_eq_error (compact_eq_error.mp h)
  · intro next m h
    have hvalid {c new : Constraint} (hc : c ∈ g.constraints) (hnew : c.renumber m = .ok (some new)) :
        new.isValid next = true ↔ c.Hosted g :=
      hg.regular.isValid_renumber h (hg.regular.tame c hc) (hg.wellSized c hc) hnew
    obtain ⟨rfl, constraints, hnews, rfl⟩ := compact_eq_ok.mp h
    obtain ⟨hneeded, hall⟩ := hg.regular.renumberConstraints_eq_ok.mp hnews
    refine ⟨hneeded, List.forall₂_iff_zip.mpr ⟨hall.length_eq, fun {c new} hin => ?_⟩⟩
    have hnew := List.forall₂_iff_zip.mp hall |>.2 hin
    exact ⟨hnew, hvalid (List.mem_of_mem_filter (List.of_mem_zip hin).1) hnew⟩

-- A template with one part, for rules with one child and with two. The rule with one child is gone.
def lopsided : Grammar :=
  ⟨[⟨0, "S", [], none, none, false⟩, ⟨1, "S", ["S"], none, none, true⟩,
    ⟨2, "S", ["S", "S"], none, none, false⟩], ["S"], [.forbidden (.choice ⟨6⟩ [.var "a"])], 5⟩

theorem reachable_lopsided : lopsided.Reachable := by
  let leaf : Rule := ⟨0, "S", [], none, none, false⟩
  let one : Rule := ⟨1, "S", ["S"], none, none, false⟩
  let two : Rule := ⟨2, "S", ["S", "S"], none, none, false⟩
  let template : Tree := .choice ⟨6⟩ [.var "a"]
  have hleaf : empty.add "S" [] none none = .ok (⟨[leaf], ["S"], [], 1⟩, 0) := rfl
  have hone : (⟨[leaf], ["S"], [], 1⟩ : Grammar).add "S" ["S"] none none =
      .ok (⟨[leaf, one], ["S"], [], 2⟩, 1) := rfl
  have htwo : (⟨[leaf, one], ["S"], [], 2⟩ : Grammar).add "S" ["S", "S"] none none =
      .ok (⟨[leaf, one, two], ["S"], [], 3⟩, 2) := rfl
  have hattach : (⟨[leaf, one, two], ["S"], [], 3⟩ : Grammar).attach (.forbidden template) =
      .ok (⟨[leaf, one, two], ["S"], [.forbidden template], 4⟩, true) := by decide +kernel
  have hremove : (⟨[leaf, one, two], ["S"], [.forbidden template], 4⟩ : Grammar).remove 1 = .ok lopsided := rfl
  exact .remove (.attach (.add (.add (.add .empty hleaf) hone) htwo) hattach) hremove

-- The rule with two children is left, so the template stays, and nothing takes its part.
theorem compact_constraints_lopsided : ∃ next m, lopsided.compact = .ok (next, m) ∧
    next.constraints = [.forbidden (.choice ⟨2⟩ [.var "a"])] ∧
      ∀ new ∈ next.constraints, new.isValid next = false := by
  let leaf : Rule := ⟨0, "S", [], none, none, false⟩
  let two : Rule := ⟨1, "S", ["S", "S"], none, none, false⟩
  have hcompact : lopsided.compact =
      .ok (⟨[leaf, two], ["S"], [.forbidden (.choice ⟨2⟩ [.var "a"])], 6⟩, [(0, 0), (2, 1)]) := by
    decide +kernel
  refine ⟨_, _, hcompact, rfl, fun new hnew => ?_⟩
  obtain ⟨-, hall⟩ := reachable_lopsided.compact_constraints.2 _ _ hcompact
  obtain ⟨c, hc, -, hvalid⟩ := exists_of_forall₂ hall.flip hnew
  obtain rfl := List.mem_singleton.mp (List.mem_of_mem_filter hc)
  rw [← Bool.not_eq_true, hvalid]
  intro hhosted
  obtain ⟨⟨r, hr, hlive, rule, hrule, harity⟩, -⟩ := throughout_choice_iff.mp hhosted
  obtain ⟨i, hi, hin⟩ := rule?_eq_some hrule
  obtain rfl := Int.ofNat_inj.mp hi
  have hlt : r < 3 := (List.getElem?_eq_some_iff.mp hin).1
  obtain rfl | rfl | rfl : r = 0 ∨ r = 1 ∨ r = 2 := by omega
  · exact absurd hr (by decide)
  · exact absurd hlive (by decide)
  · obtain rfl := Option.some.inj hin
    exact absurd harity (by decide)

end Grammar

end TreeSearch
