import TreeSearch.Branch.Fill
import TreeSearch.Proofs.Branch.Acting

namespace TreeSearch

variable {p : Problem} {T : Tree → Prop} {busy : Watch → Prop} {owed : Path → Prop}
  {limit : Nat → Prop} {b c d : Branch}

section Children

variable {g : Grammar} {categories : List String}

-- Open children for some categories, with all rules that fit.
def Grammar.Offers (g : Grammar) (fitting : Domain) : List String → List Tree → Prop :=
  List.Forall₂ fun category hole => category ∈ g.categories ∧ ∃ d : Domain,
    hole = .hole category d ∧ d.isEmpty = false ∧ ∀ r : Nat, r ∈ d ↔ g.Produces r category ∧ r ∈ fitting

-- Open children have all rules of their categories that fit, unless there are none.
theorem Grammar.openChildren_spec (hg : g.Regular) (fitting : Domain) (h : ∀ c ∈ categories, c ∈ g.categories) :
    (∃ holes, g.openChildren fitting categories = .ok (some holes) ∧ g.Offers fitting categories holes) ∨
    g.openChildren fitting categories = .ok none ∧
      ∃ category ∈ categories, ∀ r : Nat, g.Produces r category → r ∉ fitting := by
  induction categories with
  | nil => exact Or.inl ⟨[], rfl, .nil⟩
  | cons category rest ih =>
      have hknown := h category List.mem_cons_self
      obtain ⟨all, hall⟩ := Grammar.domainFor_eq_ok hknown
      have hmem (r : Nat) : r ∈ all ∩ fitting ↔ g.Produces r category ∧ r ∈ fitting := by
        rw [Domain.mem_inter, hg.mem_domainFor hall]
      rw [openChildren, hall, Except.ok_bind]
      by_cases hempty : (all ∩ fitting).isEmpty = true
      · refine Or.inr ⟨by simp [hempty], category, List.mem_cons_self, fun r hr hf => ?_⟩
        exact (Domain.isEmpty_iff _).mp hempty r ((hmem r).mpr ⟨hr, hf⟩)
      · rcases ih fun c hc => h c (List.mem_cons_of_mem category hc) with
          ⟨holes, hholes, hall₂⟩ | ⟨hnone, other, ho, hother⟩
        · refine Or.inl ⟨.hole category (all ∩ fitting) :: holes, by simp [hempty, hholes], ?_⟩
          exact .cons ⟨hknown, _, rfl, by simpa using hempty, hmem⟩ hall₂
        · exact Or.inr ⟨by simp [hempty, hnone], other, List.mem_cons_of_mem category ho, hother⟩

end Children

-- What filling holes comes to before any constraint has seen the positions that were opened.
structure Opened (p : Problem) (b : Branch) (opened : List Path) (c : Branch) : Prop where
  shown : Shown p (· ∈ opened) b c
  placed : ∀ path ∈ opened, ∃ s, c.tree.get? path = some s
  lighter : opened ≠ [] → ∀ D, c.tree.depth ≤ D → p.weight D c.tree < p.weight D b.tree

theorem Opened.refl (b : Branch) : Opened p b [] b :=
  ⟨fun _ _ _ _ s hs => Or.inl ⟨s, hs⟩, nofun, fun h => absurd rfl h⟩

theorem Opened.trans {opened more : List Path} (h : Opened p b opened c)
    (h' : Opened p c more d) (hbc : Proceeds p T b c) (hcd : Proceeds p T c d) :
    Opened p b (opened ++ more) d := by
  refine ⟨fun hf k hk path s hs => ?_, fun path hpath => ?_, fun hne D hD => ?_⟩
  · rcases h'.shown hf k hk path s hs with ⟨v, hv⟩ | ho | hn
    · rcases h.shown (hcd.feasible hf) k hk path v hv with hb | ho | hn
      · exact Or.inl hb
      · exact Or.inr (Or.inl (List.mem_append_left more ho))
      · exact Or.inr (Or.inr (hcd.announced hn))
    · exact Or.inr (Or.inl (List.mem_append_right opened ho))
    · exact Or.inr (Or.inr hn)
  · rcases List.mem_append.mp hpath with hpath | hpath
    · exact hcd.placed (h.placed path hpath)
    · exact h'.placed path hpath
  · have hle := hcd.weight_le hD
    have hle' := hbc.weight_le (Nat.le_trans hcd.depth_le hD)
    by_cases ho : opened = []
    · have hm : more ≠ [] := fun he => hne (by simp [ho, he])
      exact Nat.lt_of_lt_of_le (h'.lighter hm D hD) hle'
    · exact Nat.lt_of_le_of_lt hle (h.lighter ho D (Nat.le_trans hcd.depth_le hD))

theorem Opened.settle {opened : List Path} (h : Opened p b opened c)
    (hcd : Step p T busy (fun _ => False) c d) (hall : d.feasible = true → ∀ path ∈ opened,
      ∀ k ∈ p.grammar.constraints, (k, path) ∈ d.announced) : Shown p (fun _ => False) b d := by
  intro hf k hk path s hs
  rcases hcd.shown hf k hk path s hs with ⟨v, hv⟩ | ho | hn
  · rcases h.shown (hcd.moves.proceeds.feasible hf) k hk path v hv with hb | ho | hn
    · exact Or.inl hb
    · exact Or.inr (Or.inr (hall hf path ho k hk))
    · exact Or.inr (Or.inr (hcd.moves.proceeds.announced hn))
  · exact ho.elim
  · exact Or.inr (Or.inr hn)

section Filled

variable {path : Path} {category : String} {rules : Domain} {rule : Nat} {production : Rule}
  {holes : List Tree}

-- The children of a solution have rules of their categories within the limits.
theorem Problem.Solves.child_fits (hg : p.grammar.Regular) {t : Tree} (ht : p.Solves t)
    {cs : List Tree} (hn : t.get? path = some (.node rule cs))
    (hr : p.grammar.rule? rule = some production) {i : Nat}
    (hi : production.children[i]? = some category) :
    ∃ (m : Nat) (ds : List Tree), cs[i]? = some (.node m ds) ∧ p.grammar.Produces m category ∧
      m ∈ p.shallowRules (path ++ [0]) := by
  obtain ⟨r, hr', -, -, harity, hbelow⟩ := Grammar.wellFormed_node_iff.mp (ht.wellFormed.get? hn)
  obtain rfl := Option.some.inj (hr.symm.trans hr')
  obtain ⟨c, hc⟩ : ∃ c, cs[i]? = some c := by
    have := (List.getElem?_eq_some_iff.mp hi).1
    exact ⟨_, List.getElem?_eq_getElem (by omega)⟩
  have hplace := Tree.get?_child hn hc
  obtain ⟨m, ds, hm⟩ := (Problem.Completes.refl ht.wellFormed ht.complete).root_nat hplace
  obtain rfl := Option.some.inj (hplace.symm.trans hm)
  obtain ⟨r, hr, hlive, hcategory, -⟩ := Grammar.wellFormed_node_iff.mp (hbelow i category _ hi hc)
  refine ⟨m, ds, hc, ⟨r, hr, hlive, hcategory category rfl⟩, ?_⟩
  rw [show p.shallowRules (path ++ [0]) = p.shallowRules (path ++ [(i : Int)]) from
    Problem.shallowRules_congr (by simp)]
  exact mem_shallowRules hg ht.wellFormed ht.complete ht.admits hm

-- A rule with open children may stand in the place of a hole. There are children only where the
-- depth limit leaves room for them.
theorem Edit.opened (hg : p.grammar.Regular) (hmem : rule ∈ rules)
    (hr : p.grammar.rule? rule = some production)
    (hholes : p.grammar.Offers (p.shallowRules (path ++ [0])) production.children holes) :
    Edit p path (.hole category rules) (.node rule holes) := by
  refine .filled hmem hr (hholes.imp fun category hole ⟨hknown, d, he, hne, hd⟩ =>
    ⟨hknown, d, he, hne, fun r hr => (hd r).mp hr⟩) fun hne => ?_
  obtain ⟨hole, hhole⟩ := List.exists_mem_of_ne_nil holes hne
  obtain ⟨category, -, -, d, rfl, hopen, hd⟩ := exists_of_forall₂ hholes.flip hhole
  obtain ⟨r, hr⟩ := (Domain.isEmpty_eq_false_iff d).mp hopen
  simpa using Problem.length_lt_of_mem_shallowRules hg ((hd r).mp hr).2

-- A hole that takes a rule opens the positions of its children.
theorem Opened.filled {tree : Tree}
    (replaced : Tree.Replaced (.hole category rules) (.node rule holes) path b.tree tree)
    (change : Edit p path (.hole category rules) (.node rule holes))
    (hholes : ∀ hole ∈ holes, ∃ category d, hole = .hole category d) (hc : c.tree = tree) :
    Opened p b ((List.range holes.length).map fun (index : Nat) => path ++ [(index : Int)]) c := by
  refine ⟨fun _ _ _ q s hs => ?_, fun q hq => ?_, fun _ D hD => ?_⟩
  · rw [hc] at hs
    rcases replaced.get?_of_new hs with hv | ⟨rest, rfl, hne, hnew⟩
    · exact Or.inl hv
    · refine Or.inr (Or.inl (List.mem_map.mpr ?_))
      obtain ⟨i, rest, rfl⟩ := List.exists_cons_of_ne_nil hne
      rw [Tree.get?_cons] at hnew
      obtain ⟨hole, hhole, hrest⟩ := Option.bind_eq_some_iff.mp hnew
      obtain ⟨n, rfl, hn⟩ := Tree.child?_eq_some.mp hhole
      obtain ⟨category, d, rfl⟩ := hholes hole (List.mem_of_getElem? hn)
      obtain ⟨rfl, -⟩ := Tree.get?_hole_eq_some hrest
      exact ⟨n, List.mem_range.mpr (List.getElem?_eq_some_iff.mp hn).1, rfl⟩
  · obtain ⟨n, hn, rfl⟩ := List.mem_map.mp hq
    rw [hc, Tree.get?_below replaced.get?_new]
    exact ⟨_, List.getElem?_eq_getElem (List.mem_range.mp hn)⟩
  · rw [hc] at hD ⊢
    have := Tree.depth_le_iff.mp hD path _ replaced.get?_new
    exact replaced.weight_lt (change.weight_lt (by omega))

namespace BranchM

variable {unifying : Bool}

section Runs

variable {Q : List Path → Branch → Prop} {H : Halt → Branch → Prop} {expected : Option String} {s : Tree}

-- A rule is filled in with open children for all of its categories, unless one of them has no
-- rule that fits.
theorem meets_fillOne (hg : p.grammar.Regular) (hs : b.tree.get? path = some (.hole category rules))
    (hw : p.grammar.WellFormed expected (.hole category rules)) (hmem : rule ∈ rules)
    (hover : p.measured = .error .overflow → H .overflow b)
    (hlost : ∀ production other, p.grammar.rule? rule = some production → other ∈ production.children →
      (∀ r : Nat, p.grammar.Produces r other → r ∉ p.shallowRules (path ++ [0])) → Q [] b.fail)
    (hfilled : ∀ production holes tree statistics, p.grammar.rule? rule = some production →
      p.grammar.Offers (p.shallowRules (path ++ [0])) production.children holes →
        Edit p path (.hole category rules) (.node rule holes) →
          Tree.Replaced (.hole category rules) (.node rule holes) path b.tree tree →
            Q ((List.range holes.length).map fun (index : Nat) => path ++ [(index : Int)])
              ({ b with tree, statistics }.notify unifying path)) :
    (fillOne p unifying rule path).Meets b Q H := by
  obtain ⟨production, hr, -, -⟩ := (Grammar.wellFormed_hole_iff.mp hw).2.2 rule hmem
  have hin : production ∈ p.grammar.rules := by
    rw [Grammar.rule?_natCast] at hr
    exact List.mem_of_getElem? hr
  unfold fillOne
  refine meets_reckon_bind (Problem.shallow_reckons hg _) hover ?_
  rw [meets_bind, meets_attempt (Grammar.rule_eq_ok hr), meets_bind]
  rcases Grammar.openChildren_spec hg (p.shallowRules (path ++ [0])) (hg.children production hin) with
    ⟨holes, hopen, hholes⟩ | ⟨hopen, other, hother, hnone⟩
  · rw [meets_attempt hopen]
    simp only
    rw [meets_bind]
    exact meets_edit hs fun tree statistics =>
      hfilled production holes tree statistics hr hholes (.opened hg hmem hr hholes)
  · rw [meets_attempt hopen]
    exact hlost production other hr hother hnone

-- A member that has the rule stays as it is, one that may take it is filled, and any other ends
-- the branch.
theorem meets_fillMember (hs : b.tree.get? path = some s) (hw : p.grammar.WellFormed expected s)
    (hkept : ∀ cs, s = .node rule cs → Q [] b) (hlost : ¬ s.Takes rule → Q [] b.fail)
    (hfill : ∀ category rules, s = .hole category rules → rule ∈ rules →
      (fillOne p unifying rule path).Meets b Q H) :
    (fillMember p unifying rule path).Meets b Q H := by
  unfold fillMember
  rw [meets_bind, meets_nodeAt hs]
  cases s with
  | node r cs =>
      by_cases hr : r = rule
      · subst hr
        simp only [ne_eq, not_true_eq_false, if_false]
        exact hkept cs rfl
      · simp only [ne_eq, hr, not_false_eq_true, if_true]
        exact hlost hr
  | hole category rules =>
      show (if rule ∈ rules then fillOne p unifying rule path else fail >>= fun _ => pure []).Meets b Q H
      by_cases hmem : rule ∈ rules
      · rw [if_pos hmem]
        exact hfill category rules rfl hmem
      · rw [if_neg hmem]
        exact hlost hmem
  | choice => cases hw
  | var => cases hw

-- The children of several members are united before the constraints see them.
theorem meets_joinAndShow {Q : Unit → Branch → Prop} {fill : Filler} {members opened : List Path}
    (hr : p.grammar.rule? rule = some production)
    (hseveral : (joinChildren fill unifying members production.children.length >>= fun _ =>
      opened.forM fun path => whenFeasible (announce p fill unifying path)).Meets b Q H)
    (hsingle : members.length ≤ 1 →
      (opened.forM fun path => whenFeasible (announce p fill unifying path)).Meets b Q H) :
    BranchM.Meets (do
      if 1 < members.length then
        let arity ← attempt (p.grammar.arity rule)
        joinChildren fill unifying members arity
      opened.forM fun path => whenFeasible (announce p fill unifying path)) b Q H := by
  show BranchM.Meets (if 1 < members.length then
      attempt (p.grammar.arity rule) >>= fun arity => joinChildren fill unifying members arity >>= fun _ =>
        opened.forM fun path => whenFeasible (announce p fill unifying path)
    else opened.forM fun path => whenFeasible (announce p fill unifying path)) b Q H
  split
  · rw [meets_bind, meets_attempt (Grammar.arity_eq_ok hr)]
    exact hseveral
  · exact hsingle (by omega)

end Runs

theorem does_fillOne (hg : p.grammar.Regular) (hT : ∀ t, T t → p.Solves t) (hb : b.Ready p T)
    (hs : b.tree.get? path = some (.hole category rules)) (hmem : rule ∈ rules)
    (hroot : ∀ t, T t → b.Covers t → t.RootIn path (.only {rule})) :
    Does p T busy (fun _ => True) limit (fillOne p unifying rule path) b fun opened c =>
      Opened p b opened c ∧ (c.feasible = true → ∃ cs, c.tree.get? path = some (.node rule cs)) := by
  have hnode (t : Tree) (ht : T t) (hc : b.Covers t) :
      ∃ cs, t.get? path = some (.node rule cs) := by
    obtain ⟨n, cs, hn, he⟩ := hroot t ht hc
    obtain rfl := (Domain.mem_singleton n rule).mp he
    exact ⟨cs, hn⟩
  refine meets_fillOne hg hs (hb.sound.wellFormed.get? hs) hmem (fun ho => ⟨.refl, Or.inl (Problem.not_inRange_of_overflow ho)⟩) ?_ ?_
  · intro production other hr hother hnone
    refine ⟨.of_move (.fail fun t ht hc => ?_) rfl nofun, ⟨nofun, nofun, fun h => absurd rfl h⟩, nofun⟩
    obtain ⟨cs, hn⟩ := hnode t ht hc
    obtain ⟨i, hi⟩ := List.mem_iff_getElem?.mp hother
    obtain ⟨m, ds, -, hm, hfits⟩ := (hT t ht).child_fits hg hn hr hi
    exact hnone m hm hfits
  · intro production holes tree statistics hr hholes hchange hreplaced
    have hkept (t : Tree) (ht : T t) (hc : b.Covers t) :
        ∃ s, t.get? path = some s ∧ s.Refines (.node rule holes) := by
      obtain ⟨cs, hn⟩ := hnode t ht hc
      obtain ⟨r, hr', -, -, harity, -⟩ :=
        Grammar.wellFormed_node_iff.mp ((hT t ht).wellFormed.get? hn)
      obtain rfl := Option.some.inj (hr.symm.trans hr')
      refine ⟨_, hn, .node (harity.trans hholes.length_eq) fun i c hole hi hhole => ?_⟩
      obtain ⟨category, hcategory⟩ : ∃ category, production.children[i]? = some category := by
        have := (List.getElem?_eq_some_iff.mp hi).1
        exact ⟨_, List.getElem?_eq_getElem (by omega)⟩
      obtain ⟨-, d, rfl, -, hd⟩ := List.forall₂_zip hholes
        (List.mem_of_getElem? (List.getElem?_zip_eq_some.mpr ⟨hcategory, hhole⟩))
      obtain ⟨m, ds, hm, hproduces, hfits⟩ := (hT t ht).child_fits hg hn hr hcategory
      obtain rfl := Option.some.inj (hi.symm.trans hm)
      exact .filled ((hd m).mpr ⟨hproduces, hfits⟩)
    have hsame := Branch.notify_tree { b with tree, statistics } path unifying
    refine ⟨⟨.single (.edit unifying _ hchange hreplaced hkept), ?_, ?_⟩, ?_, fun _ => ⟨holes, ?_⟩⟩
    · exact fun _ _ _ _ _ _ => Or.inr (Or.inl trivial)
    · exact fun _ ha => ha.edit unifying _ hb.sound hchange hreplaced
    · refine Opened.filled hreplaced hchange (fun hole hhole => ?_) hsame
      obtain ⟨category, -, -, d, rfl, -⟩ := exists_of_forall₂ hholes.flip hhole
      exact ⟨category, d, rfl⟩
    · rw [hsame]
      exact hreplaced.get?_new

-- A member that is filled already has to have the rule.
theorem does_fillMember (hg : p.grammar.Regular) (hT : ∀ t, T t → p.Solves t) (hb : b.Ready p T)
    {s : Tree} (hs : b.tree.get? path = some s)
    (hroot : ∀ t, T t → b.Covers t → t.RootIn path (.only {rule})) :
    Does p T busy (fun _ => True) limit (fillMember p unifying rule path) b fun opened c =>
      Opened p b opened c ∧ (c.feasible = true → ∃ cs, c.tree.get? path = some (.node rule cs)) := by
  refine meets_fillMember hs (hb.sound.wellFormed.get? hs) ?_ (fun hlost => ?_) ?_
  · rintro cs rfl
    exact ⟨.refl b, .refl b, fun _ => ⟨cs, hs⟩⟩
  · refine ⟨.of_move (.fail fun t ht hc => hlost ?_) rfl nofun, ⟨nofun, nofun, fun h => absurd rfl h⟩, nofun⟩
    obtain ⟨n, cs, -, htakes, hn⟩ := rootIn_takes hc hs (hroot t ht hc)
    exact (Domain.mem_singleton n rule).mp hn ▸ htakes
  · rintro category rules rfl hmem
    exact does_fillOne hg hT hb hs hmem hroot

theorem does_fillMembers (hg : p.grammar.Regular) (hT : ∀ t, T t → p.Solves t) (hb : b.Ready p T)
    {members : List Path} (hs : ∀ member ∈ members, ∃ s, b.tree.get? member = some s)
    (hroot : ∀ t, T t → b.Covers t → ∀ member ∈ members, t.RootIn member (.only {rule})) :
    Does p T busy (fun _ => True) limit (fillMembers p unifying rule members) b fun opened c =>
      Opened p b opened c ∧ (c.feasible = true → ∀ member ∈ members, ∃ cs,
        c.tree.get? member = some (.node rule cs)) := by
  induction members generalizing b with
  | nil => exact .pure ⟨.refl b, nofun⟩
  | cons member rest ih =>
      obtain ⟨s, hs'⟩ := hs member List.mem_cons_self
      refine Does.bind (does_fillMember hg hT hb hs' fun t ht hc => hroot t ht hc _ List.mem_cons_self)
        fun opened c hc ⟨hopened, hnode⟩ => ?_
      rw [does_isFeasible_bind]
      by_cases hf : c.feasible = true
      · rw [if_pos hf]
        refine Does.bind (ih (hc.ready hb)
          (fun other ho => hc.moves.proceeds.placed (hs other (List.mem_cons_of_mem member ho)))
          fun t ht hct other ho => hroot t ht (hc.moves.proceeds.of_covers hct) other
            (List.mem_cons_of_mem member ho)) fun more d hd ⟨hmore, hnodes⟩ => ?_
        refine .pure ⟨hopened.trans hmore hc.moves.proceeds hd.moves.proceeds, fun hfd other ho => ?_⟩
        rcases List.mem_cons.mp ho with rfl | ho
        · obtain ⟨cs, hcs⟩ := hnode hf
          obtain ⟨v, hv, hr⟩ := hd.moves.proceeds.refines.get? hcs
          obtain ⟨ds, rfl, -⟩ := Tree.refines_node_iff.mp hr
          exact ⟨ds, hv⟩
        · exact hnodes hfd other ho
      · rw [if_neg hf]
        exact .pure ⟨⟨fun h => absurd h hf, nofun, fun h => absurd rfl h⟩, fun h => absurd h hf⟩

-- What is left to do when the members of a class have been filled.
theorem does_joinAndShow (hg : p.grammar.Regular) (hT : ∀ t, T t → p.Solves t) {fill : Filler}
    {steps : Nat} (hfill : Fills p T steps fill) (hb : b.Ready p T) {s : Tree}
    (hs : b.tree.get? path = some s) (hc : Moves p T b c) {opened : List Path}
    (hopened : Opened p b opened c)
    (hnodes : ∀ member ∈ b.classes.members path, ∃ cs, c.tree.get? member = some (.node rule cs)) :
    Settles p T (fun D => steps < b.rank p D path) (do
        if 1 < (b.classes.members path).length then
          let arity ← attempt (p.grammar.arity rule)
          joinChildren fill unifying (b.classes.members path) arity
        opened.forM fun path => whenFeasible (announce p fill unifying path)) c
      fun _ d => d.feasible = true → ∀ q ∈ opened, ∀ k ∈ p.grammar.constraints,
        (k, q) ∈ d.announced := by
  have hcr := hc.proceeds.ready hb
  have hshow {d : Branch} (hd : Step p T (fun _ => False) (fun _ => False) c d) :
      Settles p T (fun D => steps < b.rank p D path)
        (opened.forM fun path => whenFeasible (announce p fill unifying path)) d
        fun _ e => e.feasible = true → ∀ q ∈ opened, ∀ k ∈ p.grammar.constraints,
          (k, q) ∈ e.announced := by
    refine (Does.forM_whenFeasible (fun _ => True)
      (fun q e => ∀ k ∈ p.grammar.constraints, (k, q) ∈ e.announced) trivial
      (fun _ _ _ he _ h k hk => he.moves.proceeds.announced (h k hk)) fun q hq e he _ => ?_).post
        fun _ _ _ h => h.2
    have hce : Proceeds p T c e := Moves.proceeds (hd.moves.trans he.moves)
    obtain ⟨v, hv⟩ := hce.placed (hopened.placed q hq)
    refine (does_announce hg hfill hT (hce.ready hcr) hv).mono (fun _ m _ hnow => ⟨trivial, hnow⟩)
      fun D hD hl => ?_
    -- A position was opened, so there has been an edit.
    have hcd := Nat.le_trans hce.depth_le hD
    refine Nat.lt_of_le_of_lt (Nat.le_trans hl (hce.ceiling_le hD)) (Branch.ceiling_lt_rank ?_ path)
    exact hopened.lighter (List.ne_nil_of_mem hq) D hcd
  obtain ⟨cs, hcs⟩ := hnodes path (b.classes.mem_members_self path)
  obtain ⟨r, hr, -⟩ := Grammar.wellFormed_node_iff.mp (hcr.sound.wellFormed.get? hcs)
  refine meets_joinAndShow hr ?_ fun _ => hshow (.refl c)
  refine Does.bind (does_joinChildren hfill hT hb hs hc fun member hm => ?_) fun _ d hd _ => hshow hd
  obtain ⟨ds, hds⟩ := hnodes member hm
  obtain ⟨r', hr', -, -, hlen, -⟩ := Grammar.wellFormed_node_iff.mp (hcr.sound.wellFormed.get? hds)
  obtain rfl := Option.some.inj (hr.symm.trans hr')
  exact ⟨rule, ds, hds, hlen⟩

-- Any number of steps fills a class when it is enough for its rank.
theorem fills_fillClass (hg : p.grammar.Regular) (hT : ∀ t, T t → p.Solves t) (steps : Nat) :
    Fills p T steps (fillClass p steps) := by
  induction steps with
  | zero => exact fun b _ _ _ _ _ _ _ => ⟨.refl, fun _ _ => Nat.zero_le _⟩
  | succ steps ih =>
      intro b unifying path rule s hb hs hroot
      unfold fillClass Settles
      rw [does_get_bind]
      refine .settle (Does.bind (does_fillMembers hg hT hb (fun member hm => hb.sound.member hs hm)
        fun t ht hc member hm => ?_) fun opened m hm ⟨hopened, hnodes⟩ => ?_)
      · obtain ⟨n, cs, hn, hmem⟩ := hroot t ht hc
        exact ⟨n, cs, ((hb.loyal t ht hc).members hm) ▸ hn, hmem⟩
      · refine .whenFeasible (fun hf => ?_) fun hf => ⟨fun h => absurd (hf.symm.trans h) nofun,
          fun h => absurd (hf.symm.trans h) nofun⟩
        refine ((does_joinAndShow hg hT ih hb hs hm.moves hopened (hnodes hf)).post
          fun _ d hd hall => ⟨hopened.settle hd hall, fun hfd => ?_⟩).owe fun _ => False.elim
        obtain ⟨cs, hcs⟩ := hnodes hf path (b.classes.mem_members_self path)
        obtain ⟨v, hv, hr⟩ := hd.moves.proceeds.refines.get? hcs
        obtain ⟨ds, rfl, -⟩ := Tree.refines_node_iff.mp hr
        exact ⟨ds, hv⟩

end BranchM

end Filled

end TreeSearch
