import TreeSearch.Proofs.Constraint.Actions

namespace TreeSearch

variable {p : Problem} {t : Tree} {path : Path}

section Excluding

-- A constraint that holds exactly where its position has another rule.
def Excludes (p : Problem) (t : Tree) (w : Watch) (rule : Int) : Prop :=
  ∀ u, p.Completes u t → ∀ (n : Nat) (cs : List Tree), u.get? w.path = some (.node n cs) →
    (w.constraint.HoldsAt u w.path ↔ (n : Int) ≠ rule)

variable {w : Watch} {rule : Int} {s : Tree}

-- It is settled where the position can no longer have the rule.
theorem Excludes.retired_of_node (h : Excludes p t w rule) {n : Nat} {cs : List Tree}
    (hs : t.get? w.path = some (.node n cs)) (hne : (n : Int) ≠ rule) : Answers p t w [.retire] := by
  refine .retired fun u hu => ?_
  obtain ⟨ds, hds, -⟩ := hu.root hs
  exact (h u hu n ds hds).mpr hne

theorem Excludes.retired_of_hole (h : Excludes p t w rule) {category : String} {d : Domain}
    (hs : t.get? w.path = some (.hole category d)) (hne : ∀ n ∈ d, ((n : Nat) : Int) ≠ rule) :
    Answers p t w [.retire] := by
  refine .retired fun u hu => ?_
  obtain ⟨n, cs, hn, hm⟩ := hu.rootIn hs
  exact (h u hu n cs hn).mpr (hne n hm)

theorem Excludes.struck (h : Excludes p t w rule) (hs : t.get? w.path = some s) (hr : 0 ≤ rule) :
    Answers p t w [.retire, .strike w.path rule] := by
  refine ⟨by simpa [Action.Placed] using ⟨⟨s, hs⟩, hr⟩, fun u hu _ hh => ?_,
    .settled (by simp [Action.Narrows]) fun u hu hmet => ?_⟩
  · obtain ⟨n, cs, hn⟩ := hu.root_nat hs
    simpa [Action.Met] using ⟨n, ⟨cs, hn⟩, (h u hu n cs hn).mp hh⟩
  · obtain ⟨n, ⟨cs, hn⟩, hne⟩ : ∃ n : Nat, (∃ cs, u.get? w.path = some (.node n cs)) ∧
        ¬ (n : Int) = rule := by
      simpa [Action.Met] using hmet
    exact (h u hu n cs hn).mpr hne

-- It fails where the rule is certain.
theorem Excludes.fails {k : Nat} (h : Excludes p t w k) (hs : t.get? w.path = some s)
    (hc : Problem.Certain k s) {u : Tree} (hu : p.Completes u t) :
    ¬ w.constraint.HoldsAt u w.path := by
  obtain ⟨cs, hcs⟩ := hu.certain hs hc
  exact fun hh => (h u hu k cs hcs).mp hh rfl

end Excluding

section Sequence

-- Above a position nothing changes, so its rule decides whether a sequence ends there.
theorem Problem.Completes.sequenceEnds_iff {u s : Tree} (hu : p.Completes u t)
    (hs : t.get? path = some s) {n : Nat} {cs : List Tree} (hn : u.get? path = some (.node n cs))
    (ignore init : List Int) (last : Int) :
    Constraint.HoldsAt u path (.forbiddenSequence (init ++ [last]) ignore) ↔
      ¬ ((n : Int) = last ∧ climbs ignore init.reverse (t.rulesAlong path).reverse = true) := by
  rw [← TreeSearch.sequenceEnds_iff, ← hu.refines.rulesAlong hs]
  constructor
  · exact fun h => h _ ((Tree.rulesTo_iff hn _).mpr rfl)
  · rintro h rules hr
    rwa [(Tree.rulesTo_iff hn rules).mp hr]

theorem forbiddenSequenceActions_spec (hw : p.grammar.WellFormed none t)
    {sequence ignore : List Int} (hne : sequence ≠ []) (hnonneg : ∀ r ∈ sequence, 0 ≤ r) {s : Tree}
    (hs : t.get? path = some s) :
    ∃ acts, forbiddenSequenceActions t path sequence ignore = .ok acts ∧
      Answers p t ⟨path, .forbiddenSequence sequence ignore⟩ acts := by
  rw [forbiddenSequenceActions, Tree.get_eq_ok hs, Except.ok_bind]
  obtain ⟨init, last, rfl⟩ := (List.eq_nil_or_concat' sequence).resolve_left hne
  obtain ⟨k, rfl⟩ := Int.eq_ofNat_of_zero_le (hnonneg last (by simp))
  simp only [List.getLast?_append, List.getLast?_singleton, Option.some_or, List.dropLast_concat]
  cases hc : climbs ignore init.reverse (t.rulesAlong path).reverse with
  | false =>
      refine ⟨[.retire], ?_, .retired fun u hu => ?_⟩
      · cases s with
        | node r cs => simp
        | hole category d => simp [Tree.domain?, Domain.has_natCast]
        | choice => cases hw.get? hs
        | var => cases hw.get? hs
      · obtain ⟨n, cs, hn⟩ := hu.root_nat hs
        rw [hu.sequenceEnds_iff hs hn, hc]
        simp
  | true =>
      -- The rules above are those of the sequence, so only its last rule matters.
      have hexcludes : Excludes p t ⟨path, .forbiddenSequence (init ++ [(k : Int)]) ignore⟩ k := by
        intro u hu n cs hn
        rw [hu.sequenceEnds_iff hs hn, hc]
        simp
      cases (hw.get? hs).concrete with
      | node m cs =>
          by_cases hmk : m = k
          · subst hmk
            exact ⟨[.fail], by simp [Tree.decided?],
              .failed fun u hu _ => hexcludes.fails hs (Or.inl ⟨cs, rfl⟩) hu⟩
          · have hne : (m : Int) ≠ k := by omega
            exact ⟨[.retire], by simp [hne], hexcludes.retired_of_node hs hne⟩
      | hole category d =>
          simp only [Tree.domain?, Option.getD_some, Domain.has_natCast, Except.ok_bind,
            Bool.and_true]
          by_cases hk : k ∈ d
          · by_cases hd : (Tree.hole category d).decided? = some (k : Int)
            · obtain ⟨m, rfl, he⟩ := Tree.decided?_hole_eq_some.mp hd
              obtain rfl : k = m := Int.ofNat_inj.mp he
              exact ⟨[.fail], by simp [hk, hd],
                .failed fun u hu _ => hexcludes.fails hs (Or.inr ⟨category, rfl⟩) hu⟩
            · exact ⟨[.retire, .strike path k], by simp [hk, hd], hexcludes.struck hs (by omega)⟩
          · refine ⟨[.retire], by simp [hk], hexcludes.retired_of_hole hs fun n hn he => hk ?_⟩
            obtain rfl : n = k := by omega
            exact hn

end Sequence

section Single

-- Two different members make a list longer than one.
theorem one_lt_length {α : Type} {l : List α} {a b : α} (ha : a ∈ l) (hb : b ∈ l) (h : a ≠ b) :
    1 < l.length := by
  match l with
  | [] => cases ha
  | [c] =>
      obtain rfl := List.mem_singleton.mp ha
      obtain rfl := List.mem_singleton.mp hb
      exact absurd rfl h
  | _ :: _ :: _ => simp

-- The actions once it is known which positions certainly have the rule.
def uniqueAnswer (t : Tree) (k : Nat) : List (Path × Tree) → List Action
  | [] => []
  | [_] => (t.holes.filter fun (_, _, rules) => rules ≠ {k} ∧ k ∈ rules).map
      fun (path, _, _) => .strike path k
  | _ => [.fail]

theorem uniqueActions_eq (t : Tree) (k : Nat) : uniqueActions t k =
    .ok (uniqueAnswer t k ((t.positions []).filter fun x => x.2.isCertain k {k})) := by
  rw [uniqueActions, Domain.single_natCast, Except.ok_bind]
  simp only
  generalize (t.positions []).filter (·.2.isCertain k {k}) = certain
  cases certain with
  | nil => rfl
  | cons x rest =>
      cases rest with
      | nil => rfl
      | cons y rest => rfl

-- Where one position certainly has the rule, no other may have it.
theorem strikeOthers_spec {k : Nat} {first : Path} {s : Tree} (hs : t.get? first = some s)
    (hcertain : Problem.Certain k s)
    (hquiet : ∀ s, t.get? [] = some s → s.Complete → Constraint.HoldsAt t [] (.unique k)) :
    Answers p t ⟨[], .unique k⟩ (uniqueAnswer t k [(first, s)]) := by
  have hother (path : Path) (category : String) (rules : Domain)
      (hh : t.get? path = some (.hole category rules)) (hne : rules ≠ {k}) : first ≠ path := by
    rintro rfl
    obtain rfl := Option.some.inj (hs.symm.trans hh)
    rcases hcertain with ⟨cs, ⟨⟩⟩ | ⟨category, he⟩
    exact hne (Tree.hole.inj he).2
  have hact (a : Action) (ha : a ∈ uniqueAnswer t k [(first, s)]) :
      ∃ path category rules, a = .strike path k ∧ t.get? path = some (.hole category rules) ∧
        first ≠ path := by
    obtain ⟨⟨path, category, rules⟩, hm, rfl⟩ := List.mem_map.mp ha
    obtain ⟨hm, hcond⟩ := List.mem_filter.mp hm
    have hh := (Tree.mem_holes t path category rules).mp hm
    have hcond : rules ≠ {k} ∧ k ∈ rules := by simpa using hcond
    exact ⟨path, category, rules, rfl, hh, hother path category rules hh hcond.1⟩
  refine ⟨fun a ha => ?_, fun u hu _ hh a ha => ?_, .unsettled (fun a ha => ?_) trivial hquiet⟩
  · obtain ⟨path, category, rules, rfl, hpath, -⟩ := hact a ha
    exact ⟨⟨_, hpath⟩, by omega⟩
  · obtain ⟨path, category, rules, rfl, hpath, hne⟩ := hact a ha
    obtain ⟨cs, hcs⟩ := hu.certain hs hcertain
    obtain ⟨n, ds, hn⟩ := hu.root_nat hpath
    refine ⟨n, ds, hn, fun he => hne (hh rfl first path cs ds hcs ?_)⟩
    rw [← he]
    exact hn
  · obtain ⟨path, category, rules, rfl, -⟩ := hact a ha
    trivial

theorem uniqueActions_spec (hw : p.grammar.WellFormed none t) {rule : Int} (hr : 0 ≤ rule) :
    ∃ acts, uniqueActions t rule = .ok acts ∧ Answers p t ⟨[], .unique rule⟩ acts := by
  obtain ⟨k, rfl⟩ := Int.eq_ofNat_of_zero_le hr
  have hmem (path : Path) (s : Tree) :
      (path, s) ∈ (t.positions []).filter (fun x => x.2.isCertain k {k}) ↔
        t.get? path = some s ∧ Problem.Certain k s := by
    rw [List.mem_filter, Tree.mem_positions_nil]
    exact and_congr_right fun hs => Problem.isCertain_iff hw hs
  have hnodup : ((t.positions []).filter fun x => x.2.isCertain k {k}).Nodup :=
    (Tree.nodup_positions t []).filter _
  have hquiet (hone : ((t.positions []).filter fun x => x.2.isCertain k {k}).length ≤ 1)
      (s : Tree) (hs : t.get? [] = some s) (hc : s.Complete) :
      Constraint.HoldsAt t [] (.unique k) := by
    obtain rfl : t = s := by simpa using hs
    intro _ first second cs ds hfirst hsecond
    by_contra hne
    have := one_lt_length ((hmem first _).mpr ⟨hfirst, Or.inl ⟨cs, rfl⟩⟩)
      ((hmem second _).mpr ⟨hsecond, Or.inl ⟨ds, rfl⟩⟩) (by simpa using fun h => absurd h hne)
    omega
  rw [uniqueActions_eq]
  match hl : (t.positions []).filter fun x => x.2.isCertain k {k} with
  | [] =>
      rw [hl] at hquiet ⊢
      exact ⟨[], rfl, .idle trivial (hquiet (by simp))⟩
  | [(first, s)] =>
      rw [hl] at hquiet hmem ⊢
      obtain ⟨hs, hcertain⟩ := (hmem first s).mp List.mem_cons_self
      exact ⟨_, rfl, strikeOthers_spec hs hcertain (hquiet (by simp))⟩
  | (first, s) :: (second, v) :: rest =>
      rw [hl] at hnodup hmem ⊢
      refine ⟨[.fail], rfl, .failed fun u hu _ hh => ?_⟩
      obtain ⟨hs, hcs⟩ := (hmem first s).mp List.mem_cons_self
      obtain ⟨hv, hcv⟩ := (hmem second v).mp (List.mem_cons_of_mem _ List.mem_cons_self)
      obtain ⟨cs, hcs⟩ := hu.certain hs hcs
      obtain ⟨ds, hds⟩ := hu.certain hv hcv
      obtain rfl := hh rfl first second cs ds hcs hds
      obtain rfl : s = v := Option.some.inj (hs.symm.trans hv)
      exact absurd List.mem_cons_self (List.nodup_cons.mp hnodup).1

theorem rootOnlyActions_spec (hw : p.grammar.WellFormed none t) {rule : Int} {s : Tree}
    (hs : t.get? path = some s) (hpath : path ≠ []) :
    ∃ acts, rootOnlyActions t path rule = .ok acts ∧ Answers p t ⟨path, .rootOnly rule⟩ acts := by
  have hexcludes : Excludes p t ⟨path, .rootOnly rule⟩ rule := by
    intro u _ n cs hn
    constructor
    · rintro h rfl
      exact hpath (h cs hn)
    · intro h ds hd
      rw [hn, Option.some.injEq, Tree.node.injEq] at hd
      exact absurd hd.1 h
  rw [rootOnlyActions, Tree.get_eq_ok hs, Except.ok_bind]
  cases (hw.get? hs).concrete with
  | node m cs =>
      by_cases hm : (m : Int) = rule
      · subst hm
        refine ⟨[.retire, .fail], by simp, by simp [Action.Placed], fun u hu _ hh => ?_,
          .settled (by simp [Action.Narrows]) fun u _ hmet => ?_⟩
        · exact absurd hh (hexcludes.fails hs (Or.inl ⟨cs, rfl⟩) hu)
        · exact absurd (hmet .fail (by simp)) id
      · exact ⟨[.retire], by simp [hm], hexcludes.retired_of_node hs hm⟩
  | hole category d =>
      simp only [Tree.domain?, Option.getD_some]
      by_cases hpossible : 0 ≤ rule ∧ rule.toNat ∈ d
      · exact ⟨[.retire, .strike path rule], by simp [hpossible], hexcludes.struck hs hpossible.1⟩
      · refine ⟨[.retire], by simp [hpossible], hexcludes.retired_of_hole hs fun n hn he => ?_⟩
        subst he
        exact hpossible ⟨by omega, hn⟩

end Single

-- Every watched constraint has an answer for every tree with its position, as far as the numbers
-- that it takes can be worked out. None are taken below the root.
theorem Watch.actions_spec (hg : p.grammar.Regular) (hw : p.grammar.WellFormed none t) {w : Watch}
    (htame : w.constraint.Tame) (hfits : w.Fits) {s : Tree} (hs : t.get? w.path = some s) {P : Prop}
    (hstrained : w.path = [] → p.Strained t → P) (htable : w.path = [] → ∀ targets,
      w.constraint.targets? = some targets → p.contain targets = .error .overflow → P) :
    ∃ acts, ReckonsUnless P (w.actions p t) acts ∧ Answers p t w acts := by
  have hplain {result : Except Fault (List Action)} (h : ∃ acts, result = .ok acts ∧ Answers p t w acts) :
      ∃ acts, ReckonsUnless P (result.mapError .fault) acts ∧ Answers p t w acts := by
    obtain ⟨acts, rfl, hanswers⟩ := h
    exact ⟨acts, .pure _, hanswers⟩
  obtain ⟨path, constraint⟩ := w
  cases constraint with
  | forbidden template => exact hplain (Problem.forbiddenActions_spec hw htame hs)
  | contains rule =>
      obtain rfl : path = [] := hfits
      exact Problem.containsActions_spec hg hw htame (hstrained rfl) (htable rfl)
  | containsSubtree template =>
      obtain rfl : path = [] := hfits
      exact Problem.containsSubtreeActions_spec hg hw htame (hstrained rfl) (htable rfl)
  | ordered template names => exact hplain (Problem.orderedActions_spec hw htame.1 htame.2 hs)
  | forbiddenSequence sequence ignore =>
      exact hplain (forbiddenSequenceActions_spec hw htame.1 htame.2 hs)
  | unique rule =>
      obtain rfl : path = [] := hfits
      exact hplain (uniqueActions_spec hw htame)
  | rootOnly rule => exact hplain (rootOnlyActions_spec hw hs hfits)

-- A constraint of the grammar meets no number that is too large unless the tree is strained.
theorem Watch.actions_spec_of_mem (hg : p.grammar.Regular) (hw : p.grammar.WellFormed none t) {w : Watch}
    (hin : w.constraint ∈ p.grammar.constraints) (hfits : w.Fits) {s : Tree}
    (hs : t.get? w.path = some s) :
    ∃ acts, ReckonsUnless (p.Strained t) (w.actions p t) acts ∧ Answers p t w acts :=
  w.actions_spec hg hw (hg.tame _ hin) hfits hs (fun _ => id) fun _ targets htargets ho => Or.inl fun hrange =>
    nomatch ho.symm.trans (hrange.tables _ hin targets htargets)

-- A new position is either watched, or the constraint holds there whatever becomes of the
-- tree.
theorem Constraint.watchAt_spec (hw : p.grammar.WellFormed none t) {c : Constraint} (htame : c.Tame)
    {s : Tree} (hs : t.get? path = some s) :
    (c.watchAt p t path = .ok (some ⟨path, c⟩) ∧ Watch.Fits ⟨path, c⟩) ∨
      (c.watchAt p t path = .ok none ∧ ∀ u, p.Completes u t → c.HoldsAt u path) := by
  cases c with
  | forbidden template =>
      obtain ⟨verdict, hv, hjudged⟩ := Pattern.match?_spec hw htame hs
      rw [watchAt, Tree.get_eq_ok hs, Except.ok_bind, hv]
      by_cases hr : verdict = .refuted
      · subst hr
        exact Or.inr ⟨rfl, fun u hu value => hjudged u value hu⟩
      · exact Or.inl ⟨by simp [hr], trivial⟩
  | ordered template names =>
      obtain ⟨verdict, hv, hjudged⟩ := Pattern.match?_spec hw htame.1 hs
      rw [watchAt, Tree.get_eq_ok hs, Except.ok_bind, hv]
      by_cases hr : verdict = .refuted
      · subst hr
        exact Or.inr ⟨rfl, fun u hu value hm => absurd hm (hjudged u value hu)⟩
      · exact Or.inl ⟨by simp [hr], trivial⟩
  | contains rule =>
      cases path with
      | nil => exact Or.inl ⟨rfl, rfl⟩
      | cons i path => exact Or.inr ⟨rfl, nofun⟩
  | containsSubtree template =>
      cases path with
      | nil =>
          obtain ⟨rules, hrules, hvar, -⟩ := Problem.rootRules?_spec htame
          rw [watchAt, hrules]
          cases rules with
          | none =>
              obtain ⟨name, rfl⟩ := hvar rfl
              exact Or.inr ⟨rfl, fun u _ _ => ⟨[], fun _ => u, u, by simp, .var rfl⟩⟩
          | some rules => exact Or.inl ⟨rfl, rfl⟩
      | cons i path => exact Or.inr ⟨rfl, nofun⟩
  | forbiddenSequence sequence ignore => exact Or.inl ⟨rfl, trivial⟩
  | unique rule =>
      cases path with
      | nil => exact Or.inl ⟨rfl, rfl⟩
      | cons i path => exact Or.inr ⟨rfl, nofun⟩
  | rootOnly rule =>
      cases path with
      | nil => exact Or.inr ⟨rfl, fun _ _ _ _ => rfl⟩
      | cons i path => exact Or.inl ⟨rfl, List.cons_ne_nil i path⟩

end TreeSearch
