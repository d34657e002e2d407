import TreeSearch.Proofs.Constraint.Sequences
import TreeSearch.Proofs.Reckoning

namespace TreeSearch

namespace Problem

variable {p : Problem} {t : Tree}

section Templates

variable {path : Path} {template s : Tree}

-- A rule is either among those of a mask or among the others.
theorem rootIn_except_iff {u : Tree} {n : Nat} {cs : List Tree} {d : Domain}
    (hn : u.get? path = some (.node n cs)) :
    u.RootIn path (.except d) ↔ ¬ u.RootIn path (.only d) := by
  constructor
  · rintro ⟨m, ds, hm, hout⟩ ⟨k, es, hk, hin⟩
    rw [hm, Option.some.injEq, Tree.node.injEq] at hk
    obtain rfl : m = k := by omega
    exact hout hin
  · exact fun h => ⟨n, cs, hn, fun hin => h ⟨n, cs, hn, hin⟩⟩

theorem forbiddenActions_spec (hw : p.grammar.WellFormed none t) (hp : template.IsPattern)
    (hs : t.get? path = some s) : ∃ acts, p.forbiddenActions t path template = .ok acts ∧
      Answers p t ⟨path, .forbidden template⟩ acts := by
  obtain ⟨verdict, hv, hjudged⟩ := Pattern.match?_spec hw hp hs
  rw [forbiddenActions, Tree.get_eq_ok hs, Except.ok_bind, hv, Except.ok_bind]
  cases verdict with
  | refuted =>
      exact ⟨[.retire], rfl, .retired fun u hu value => hjudged u value hu⟩
  | matched bindings =>
      refine ⟨[.fail], rfl, .failed fun u hu _ hholds => ?_⟩
      obtain ⟨value, hm⟩ := hjudged.exists_matchesAt hu
      exact hholds value hm
  | undecided found =>
      have ⟨_, _, hplaced, hopen⟩ := hjudged
      cases hsole : (Verdict.undecided found).soleRequirement? with
      | none =>
          refine ⟨[], by simp [hsole], .waiting trivial fun s' hs' => ?_⟩
          obtain rfl : s = s' := Option.some.inj (hs.symm.trans hs')
          exact hopen
      | some r =>
          obtain ⟨hrequired, -⟩ := Verdict.soleRequirement?_eq_some hsole
          obtain ⟨v, hv⟩ := hplaced.requirements r (by simp [hrequired])
          have hiff (u : Tree) (hu : p.Completes u t) :
              u.RootIn r.path (.except r.rules) ↔ ∀ value, ¬ Pattern.MatchesAt template path value u := by
            obtain ⟨n, cs, hn⟩ := hu.root_nat hv
            rw [rootIn_except_iff hn, ← hjudged.matchesAt_iff_rootIn hsole hu, not_exists]
          refine ⟨[.retire, .keep r.path (.except r.rules)], by simp [hsole], ?_,
            fun u hu _ hholds => ?_, .settled (by simp [Action.Narrows]) fun u hu hkept => ?_⟩
          · simpa [Action.Placed] using ⟨v, hv⟩
          · simpa [Action.Met] using (hiff u hu).mpr hholds
          · exact (hiff u hu).mp (by simpa [Action.Met] using hkept)

theorem orderedActions_spec (hw : p.grammar.WellFormed none t) (hp : template.IsPattern)
    {names : List String} (hnames : ∀ name ∈ names, name ∈ template.occurrences)
    (hs : t.get? path = some s) : ∃ acts, p.orderedActions t path template names = .ok acts ∧
      Answers p t ⟨path, .ordered template names⟩ acts := by
  obtain ⟨verdict, hv, hjudged⟩ := Pattern.match?_spec hw hp hs
  rw [orderedActions, Tree.get_eq_ok hs, Except.ok_bind, hv, Except.ok_bind]
  cases verdict with
  | refuted =>
      exact ⟨[.retire], rfl, .retired fun u hu value hm => absurd hm (hjudged u value hu)⟩
  | matched bindings =>
      obtain ⟨hiff, hplaced, hbound, hdecided⟩ := hjudged
      refine ⟨[.order bindings names], rfl, ?_, fun u hu _ hholds => ?_,
        .ordered trivial ?_ fun s' hs' hc => ?_⟩
      · simpa [Action.Placed] using ⟨hplaced, fun name hn => hbound name (hnames name hn)⟩
      · obtain ⟨value, hb⟩ := Pattern.exists_binds hu hplaced
        have hordered := hholds value ((hiff u value hu).mpr hb)
        have hmet : (Action.order bindings names).Met u := by
          refine hordered.imp fun {a b} hab first second v w hfirst hsecond hv hw => ?_
          obtain rfl : v = value a := Option.some.inj (hv.symm.trans (hb a first hfirst))
          obtain rfl : w = value b := Option.some.inj (hw.symm.trans (hb b second hsecond))
          exact hab
        simpa using hmet
      · intro u hu hmet value hm
        have hb := (hiff u value hu).mp hm
        refine List.Pairwise.imp_of_mem ?_ hmet
        intro a b ha hb' hab
        obtain ⟨first, hfirst⟩ := hbound a (hnames a ha)
        obtain ⟨second, hsecond⟩ := hbound b (hnames b hb')
        exact hab first second _ _ hfirst hsecond (hb a first hfirst) (hb b second hsecond)
      · obtain rfl : s = s' := Option.some.inj (hs.symm.trans hs')
        exact hdecided hc
  | undecided found =>
      obtain ⟨-, -, -, hopen⟩ := hjudged
      refine ⟨[], rfl, .waiting trivial fun s' hs' => ?_⟩
      obtain rfl : s = s' := Option.some.inj (hs.symm.trans hs')
      exact hopen

end Templates

section Certain

-- A position that certainly has a rule.
def Certain (rule : Nat) (s : Tree) : Prop :=
  (∃ cs, s = .node rule cs) ∨ ∃ category, s = .hole category {rule}

theorem isCertain_iff (hw : p.grammar.WellFormed none t) {rule : Nat} {path : Path} {s : Tree}
    (hs : t.get? path = some s) : s.isCertain rule {rule} = true ↔ Certain rule s := by
  cases (hw.get? hs).concrete with
  | node r cs => simp [Tree.isCertain, Certain]
  | hole category d => simp [Tree.isCertain, Certain, Tree.domain?]

theorem Completes.certain {u s : Tree} {path : Path} {rule : Nat} (hu : p.Completes u t)
    (hs : t.get? path = some s) (h : Certain rule s) :
    ∃ cs, u.get? path = some (.node rule cs) := by
  rcases h with ⟨cs, rfl⟩ | ⟨category, rfl⟩
  · obtain ⟨ds, hds, -⟩ := hu.root hs
    exact ⟨ds, hds⟩
  · obtain ⟨n, cs, hn, hm⟩ := hu.rootIn hs
    obtain rfl := (Domain.mem_singleton n rule).mp hm
    exact ⟨cs, hn⟩

end Certain

section Hosts

variable {targets : Domain} {P : Prop}

-- A hole as far as it can host a target rule, by the exact numbers.
def hostOf (p : Problem) (targets : Domain) (total : Cost) (path : Path) : Tree → Option Host
  | .hole _ rules =>
      let viable := p.viableHosts targets path rules total
      if viable.isEmpty then none else some ⟨path, rules, viable⟩
  | _ => none

theorem hostOf_eq_some {total : Cost} {path : Path} {s : Tree} {host : Host}
    (h : p.hostOf targets total path s = some host) : ∃ category rules, s = .hole category rules ∧
      host = ⟨path, rules, p.viableHosts targets path rules total⟩ := by
  cases s with
  | hole category rules =>
      unfold hostOf at h
      simp only at h
      split at h
      · cases h
      · exact ⟨category, rules, rfl, (Option.some.inj h).symm⟩
  | node => cases h
  | choice => cases h
  | var => cases h

theorem host?_reckons (hg : p.grammar.Regular) {path : Path} {s : Tree} (hs : t.get? path = some s)
    (hstrained : p.Strained t → P) (htable : p.contain targets = .error .overflow → P) :
    ReckonsUnless P (p.host? targets (p.leastSize t) path s) (p.hostOf targets (p.leastSize t) path s) := by
  cases s with
  | hole category rules => exact (hosts_reckons_at hg hs hstrained htable).bind (.pure _)
  | node => exact .pure _
  | choice => exact .pure _
  | var => exact .pure _

-- Where a target occurs in a completion, at or below an open position, that position is a
-- host for it.
theorem exists_host (hg : p.grammar.Regular) {u : Tree} {path : Path} {category : String}
    {rules : Domain} (hu : p.Completes u t) (hb : p.bounds.Admits u)
    (ht : t.get? path = some (.hole category rules)) {s : Tree} (hs : u.get? path = some s)
    (hcarries : s.Carries targets) :
    ∃ host, p.hostOf targets (p.leastSize t) path (.hole category rules) = some host ∧
      u.RootIn host.path (.only host.viable) := by
  obtain ⟨n, cs, hn⟩ := hu.root_nat ht
  obtain rfl : .node n cs = s := Option.some.inj (hn.symm.trans hs)
  have hviable := mem_viableHosts hg hu hb ht hn hcarries
  refine ⟨⟨path, rules, p.viableHosts targets path rules (p.leastSize t)⟩, ?_, n, cs, hn, hviable⟩
  have hne : (p.viableHosts targets path rules (p.leastSize t)).isEmpty = false :=
    (Domain.isEmpty_eq_false_iff _).mpr ⟨n, hviable⟩
  simp [hostOf, hne]

-- A tree with an open position is open.
theorem root_open {path : Path} {category : String} {rules : Domain}
    (h : t.get? path = some (.hole category rules)) (s : Tree) (hs : t.get? [] = some s) :
    ¬ s.Complete := by
  obtain rfl : t = s := by simpa using hs
  intro hc
  cases hc.get? h

theorem settle_spec {w : Watch} {host : Host} {s : Tree} (hhost : t.get? host.path = some s)
    (hs : w.Sensitive)
    (hnec : ∀ u, p.Completes u t → p.bounds.Admits u → w.constraint.HoldsAt u w.path →
      u.RootIn host.path (.only host.viable))
    (hopen : ∀ s, t.get? w.path = some s → ¬ s.Complete) : Answers p t w host.settle := by
  unfold Host.settle
  split
  · exact .waiting hs hopen
  · refine ⟨?_, fun u hu hb hh => ?_, .unsettled ?_ hs fun s hs hc => absurd hc (hopen s hs)⟩
    · simpa [Action.Placed] using ⟨s, hhost⟩
    · simpa [Action.Met] using hnec u hu hb hh
    · simp [Action.Plain]

-- The occurrence of a rule that is certain nowhere has an open position at or above it.
theorem exists_host_of_contains (hg : p.grammar.Regular) (hw : p.grammar.WellFormed none t) {n : Nat}
    (hany : ¬ ∃ path s, t.get? path = some s ∧ Certain n s) {u : Tree} (hu : p.Completes u t)
    (hb : p.bounds.Admits u) (hh : Constraint.HoldsAt u [] (.contains n)) :
    ∃ host ∈ (t.positions []).filterMap (fun x => p.hostOf {n} (p.leastSize t) x.1 x.2),
      u.RootIn host.path (.only host.viable) := by
  obtain ⟨path, cs, hcs⟩ := hh rfl
  have hself : (Tree.node n cs).Carries {n} :=
    ⟨[], n, cs, by simp, (Domain.mem_singleton n n).mpr rfl⟩
  rcases hu.refines.locate_open hw hcs with ⟨r, ds, ht⟩ | ⟨above, rest, category, d, rfl, ht⟩
  · obtain ⟨es, hes, -⟩ := hu.root ht
    obtain ⟨rfl, rfl⟩ := Tree.node.inj (Option.some.inj (hcs.symm.trans hes))
    exact absurd ⟨path, _, ht, Or.inl ⟨ds, rfl⟩⟩ hany
  · obtain ⟨v, hv, hrest⟩ := Tree.get?_of_append hcs
    obtain ⟨host, hhost, hin⟩ := exists_host hg hu hb ht hv (hself.of_get? hrest)
    exact ⟨host, List.mem_filterMap.mpr
      ⟨_, (Tree.mem_positions_nil t above _).mpr ht, hhost⟩, hin⟩

-- Hosts are open positions.
theorem hole_of_mem_hosts {total : Cost} {host : Host}
    (h : host ∈ (t.positions []).filterMap fun x => p.hostOf targets total x.1 x.2) :
    ∃ category rules, t.get? host.path = some (.hole category rules) := by
  obtain ⟨⟨path, s⟩, hs, he⟩ := List.mem_filterMap.mp h
  obtain ⟨category, rules, rfl, rfl⟩ := hostOf_eq_some he
  exact ⟨category, rules, (Tree.mem_positions_nil t path _).mp hs⟩

-- The walk over the positions ends early where the rule is certain.
theorem hostsBefore_reckons (hg : p.grammar.Regular) {rule : Int} (hstrained : p.Strained t → P)
    (htable : p.contain targets = .error .overflow → P) {positions : List (Path × Tree)}
    (hpos : ∀ x ∈ positions, t.get? x.1 = some x.2) :
    ReckonsUnless P (p.hostsBefore rule targets (p.leastSize t) positions)
      (if positions.any (·.2.isCertain rule targets) then none else
        some (positions.filterMap fun x => p.hostOf targets (p.leastSize t) x.1 x.2)) := by
  induction positions with
  | nil => exact .pure _
  | cons x positions ih =>
      obtain ⟨path, s⟩ := x
      rw [hostsBefore, List.any_cons]
      by_cases hcertain : s.isCertain rule targets = true
      · rw [if_pos hcertain, if_pos (by simp [hcertain])]
        exact .pure _
      · rw [if_neg hcertain]
        refine (host?_reckons hg (hpos _ List.mem_cons_self) hstrained htable).bind
          ((ih fun y hy => hpos y (List.mem_cons_of_mem _ hy)).bind ?_)
        simp only [hcertain, Bool.false_or]
        split
        · exact .pure _
        · rw [List.filterMap_cons]
          cases p.hostOf targets (p.leastSize t) path s <;> exact .pure _

-- The actions once it is known that the rule is certain nowhere.
def containsAnswer : List Host → List Action
  | [] => [.fail]
  | [host] => host.settle
  | _ => []

theorem containsActions_reckons (hg : p.grammar.Regular) {n : Nat} (hstrained : p.Strained t → P)
    (htable : p.contain {n} = .error .overflow → P) : ReckonsUnless P (p.containsActions t n)
      (if (t.positions []).any (·.2.isCertain n {n}) then [.retire] else
        containsAnswer ((t.positions []).filterMap fun x => p.hostOf {n} (p.leastSize t) x.1 x.2)) := by
  have hsingle : (Domain.single n).mapError Halt.fault = .ok {n} := by rw [Domain.single_natCast]; rfl
  rw [containsActions, hsingle, Except.ok_bind]
  refine ((measure_reckons hg t).mono hstrained).bind ((hostsBefore_reckons hg hstrained htable
    fun x hx => (Tree.mem_positions_nil t x.1 x.2).mp hx).bind ?_)
  cases (t.positions []).any (·.2.isCertain n {n}) with
  | true => exact .pure _
  | false =>
      generalize (t.positions []).filterMap (fun x => p.hostOf {n} (p.leastSize t) x.1 x.2) = hosts
      match hosts with
      | [] => exact .pure _
      | [host] => exact .pure _
      | _ :: _ :: _ => exact .pure _

-- With no host the rule cannot occur, and with one it has to occur there.
theorem containsAnswer_spec {rule : Int} {hosts : List Host}
    (hplace : ∀ host ∈ hosts, ∃ category rules, t.get? host.path = some (.hole category rules))
    (hhost : ∀ u, p.Completes u t → p.bounds.Admits u → Constraint.HoldsAt u [] (.contains rule) →
      ∃ host ∈ hosts, u.RootIn host.path (.only host.viable)) :
    Answers p t ⟨[], .contains rule⟩ (containsAnswer hosts) := by
  match hosts with
  | [] =>
      refine .failed fun u hu hb hh => ?_
      obtain ⟨host, hm, -⟩ := hhost u hu hb hh
      cases hm
  | [host] =>
      obtain ⟨category, rules, hh⟩ := hplace host List.mem_cons_self
      refine settle_spec hh trivial (fun u hu hb hholds => ?_) (root_open hh)
      obtain ⟨other, hm, hin⟩ := hhost u hu hb hholds
      obtain rfl := List.mem_singleton.mp hm
      exact hin
  | host :: _ :: _ =>
      obtain ⟨category, rules, hh⟩ := hplace host List.mem_cons_self
      exact .waiting trivial (root_open hh)

theorem containsActions_spec (hg : p.grammar.Regular) (hw : p.grammar.WellFormed none t)
    {rule : Int} (hr : 0 ≤ rule) (hstrained : p.Strained t → P)
    (htable : ∀ targets, Constraint.targets? (.contains rule) = some targets →
      p.contain targets = .error .overflow → P) : ∃ acts, ReckonsUnless P (p.containsActions t rule) acts ∧
      Answers p t ⟨[], .contains rule⟩ acts := by
  obtain ⟨n, rfl⟩ := Int.eq_ofNat_of_zero_le hr
  have htargets : Constraint.targets? (.contains n) = some {n} := by
    rw [Constraint.targets?, Domain.single_natCast]
    rfl
  refine ⟨_, containsActions_reckons hg hstrained (htable {n} htargets), ?_⟩
  split
  · rename_i hany
    obtain ⟨⟨path, s⟩, hm, hc⟩ := List.any_eq_true.mp hany
    have hs := (Tree.mem_positions_nil t path s).mp hm
    refine .retired fun u hu _ => ?_
    obtain ⟨cs, hcs⟩ := hu.certain hs ((isCertain_iff hw hs).mp hc)
    exact ⟨path, cs, hcs⟩
  · rename_i hnone
    refine containsAnswer_spec (fun _ => hole_of_mem_hosts) fun u hu hb hh =>
      exists_host_of_contains hg hw ?_ hu hb hh
    rintro ⟨path, s, hs, hcertain⟩
    refine hnone (List.any_eq_true.mpr ⟨(path, s), (Tree.mem_positions_nil t path s).mpr hs, ?_⟩)
    exact (isCertain_iff hw hs).mpr hcertain

-- What is gathered for a template in some positions: every match of a completion is at or below
-- a host, or meets the findings at its position.
structure Gathered (p : Problem) (t template : Tree) (targets : Domain)
    (positions : List (Path × Tree)) (partials : List Findings) (hosts : List Host) : Prop where
  covered : ∀ x ∈ positions, (∃ category rules, x.2 = .hole category rules ∧
      ∀ host, p.hostOf targets (p.leastSize t) x.1 x.2 = some host → host ∈ hosts) ∨
    (∃ r cs, x.2 = .node r cs) ∧ ∀ u value, p.Completes u t →
      Pattern.MatchesAt template x.1 value u → ∃ f ∈ partials, f.Met u
  placed : ∀ f ∈ partials, f.Placed t ∧ ¬ t.Complete
  origin : ∀ host ∈ hosts, ∃ category rules, t.get? host.path = some (.hole category rules)

namespace Gathered

variable {template : Tree} {positions : List (Path × Tree)} {partials : List Findings}
  {hosts : List Host} {path : Path}

-- A hole may become a host.
theorem hole (h : Gathered p t template targets positions partials hosts) {category : String}
    {rules : Domain} (hs : t.get? path = some (.hole category rules)) :
    Gathered p t template targets ((path, .hole category rules) :: positions) partials
      ((p.hostOf targets (p.leastSize t) path (.hole category rules)).toList ++ hosts) := by
  refine ⟨fun x hx => ?_, h.placed, fun host hh => ?_⟩
  · rcases List.mem_cons.mp hx with rfl | hx
    · exact Or.inl ⟨category, rules, rfl, fun host hh => by simp [hh]⟩
    · refine (h.covered x hx).imp_left ?_
      rintro ⟨c, d, he, hh⟩
      exact ⟨c, d, he, fun host hin => List.mem_append_right _ (hh host hin)⟩
  · rcases List.mem_append.mp hh with hh | hh
    · obtain ⟨_, _, he, rfl⟩ := hostOf_eq_some (Option.mem_toList.mp hh)
      exact ⟨category, rules, hs⟩
    · exact h.origin host hh

-- A node where the template cannot match adds nothing.
theorem refuted (h : Gathered p t template targets positions partials hosts) {r : Int}
    {cs : List Tree} (hno : ∀ u value, p.Completes u t → ¬ Pattern.MatchesAt template path value u) :
    Gathered p t template targets ((path, .node r cs) :: positions) partials hosts := by
  refine ⟨fun x hx => ?_, h.placed, h.origin⟩
  rcases List.mem_cons.mp hx with rfl | hx
  · exact Or.inr ⟨⟨r, cs, rfl⟩, fun u value hu hm => absurd hm (hno u value hu)⟩
  · exact h.covered x hx

-- A node where it may match adds what a match takes.
theorem undecided (h : Gathered p t template targets positions partials hosts) {r : Int}
    {cs : List Tree} {found : Findings} (hfound : found.Placed t) (hopen : ¬ t.Complete)
    (hnec : ∀ u value, p.Completes u t → Pattern.MatchesAt template path value u → found.Met u) :
    Gathered p t template targets ((path, .node r cs) :: positions) (found :: partials) hosts := by
  refine ⟨fun x hx => ?_, fun f hf => ?_, h.origin⟩
  · rcases List.mem_cons.mp hx with rfl | hx
    · exact Or.inr ⟨⟨r, cs, rfl⟩, fun u value hu hm =>
        ⟨found, List.mem_cons_self, hnec u value hu hm⟩⟩
    · refine (h.covered x hx).imp_right ?_
      rintro ⟨hnode, hmet⟩
      refine ⟨hnode, fun u value hu hm => ?_⟩
      obtain ⟨f, hf, hfm⟩ := hmet u value hu hm
      exact ⟨f, List.mem_cons_of_mem _ hf, hfm⟩
  · rcases List.mem_cons.mp hf with rfl | hf
    · exact ⟨hfound, hopen⟩
    · exact h.placed f hf

end Gathered

theorem candidates_spec (hg : p.grammar.Regular) (hw : p.grammar.WellFormed none t) {template : Tree}
    (hp : template.IsPattern) (hstrained : p.Strained t → P)
    (htable : p.contain targets = .error .overflow → P) (positions : List (Path × Tree))
    (hpos : ∀ x ∈ positions, t.get? x.1 = some x.2) :
    ∃ out, ReckonsUnless P (p.candidates template targets (p.leastSize t) positions) out ∧
      (out = none → ∃ path, ∀ u, p.Completes u t → ∃ value, Pattern.MatchesAt template path value u) ∧
      ∀ partials hosts, out = some (partials, hosts) →
        Gathered p t template targets positions partials hosts := by
  induction positions with
  | nil =>
      refine ⟨some ([], []), .pure _, nofun, fun partials hosts he => ?_⟩
      obtain ⟨rfl, rfl⟩ := Prod.mk.inj (Option.some.inj he)
      exact ⟨nofun, nofun, nofun⟩
  | cons x positions ih =>
      obtain ⟨path, s⟩ := x
      have hs : t.get? path = some s := hpos _ List.mem_cons_self
      obtain ⟨verdict, hv, hjudged⟩ := Pattern.match?_spec hw hp hs
      obtain ⟨out, hout, hnone, hsome⟩ := ih fun x hx => hpos x (List.mem_cons_of_mem _ hx)
      have hhost := host?_reckons hg hs hstrained htable
      rw [candidates, hv, Except.mapError, Except.ok_bind]
      cases verdict with
      | matched bindings =>
          exact ⟨none, .pure _, fun _ => ⟨path, fun u hu => hjudged.exists_matchesAt hu⟩, nofun⟩
      | refuted =>
          cases out with
          | none => exact ⟨none, hhost.bind (hout.bind (.pure _)), fun _ => hnone rfl, nofun⟩
          | some found =>
              have hrest := hsome found.1 found.2 rfl
              cases (hw.get? hs).concrete with
              | node r cs =>
                  refine ⟨some (found.1, found.2), hhost.bind (hout.bind (.pure _)), nofun, ?_⟩
                  rintro _ _ ⟨⟩
                  exact hrest.refuted hjudged
              | hole category rules =>
                  refine ⟨some (found.1, (p.hostOf targets (p.leastSize t) path (.hole category rules)).toList
                    ++ found.2), hhost.bind (hout.bind (.pure _)), nofun, ?_⟩
                  rintro _ _ ⟨⟩
                  exact hrest.hole hs
      | undecided findings =>
          obtain ⟨hnec, -, hfound, hopen⟩ := hjudged
          cases out with
          | none => exact ⟨none, hhost.bind (hout.bind (.pure _)), fun _ => hnone rfl, nofun⟩
          | some found =>
              have hrest := hsome found.1 found.2 rfl
              cases (hw.get? hs).concrete with
              | node r cs =>
                  refine ⟨some (findings :: found.1, found.2), hhost.bind (hout.bind (.pure _)), nofun, ?_⟩
                  rintro _ _ ⟨⟩
                  exact hrest.undecided hfound (fun hc => hopen (hc.get? hs)) hnec
              | hole category rules =>
                  refine ⟨some (found.1, (p.hostOf targets (p.leastSize t) path (.hole category rules)).toList
                    ++ found.2), hhost.bind (hout.bind (.pure _)), nofun, ?_⟩
                  rintro _ _ ⟨⟩
                  exact hrest.hole hs

-- The rules that a template asks for at its root.
theorem rootRules?_spec {template : Tree} (hp : template.IsPattern) :
    ∃ rules, template.rootRules? = .ok rules ∧ (rules = none → ∃ name, template = .var name) ∧
      ∀ d, rules = some d → ∀ path value u, Pattern.MatchesAt template path value u →
        ∃ s, u.get? path = some s ∧ s.Carries d := by
  cases hp with
  | var name => exact ⟨none, rfl, fun _ => ⟨name, rfl⟩, nofun⟩
  | @node rule parts nonneg =>
      obtain ⟨n, rfl⟩ := Int.eq_ofNat_of_zero_le nonneg
      refine ⟨some {n}, by rw [Tree.rootRules?, Domain.single_natCast]; rfl, nofun, ?_⟩
      rintro d ⟨⟩ path value u hm
      rw [Pattern.matchesAt_node] at hm
      obtain ⟨m, cs, hs, hm, -⟩ := hm
      exact ⟨_, hs, [], m, cs, by simp, hm⟩
  | @choice allowed parts =>
      refine ⟨some allowed, rfl, nofun, ?_⟩
      rintro d ⟨⟩ path value u hm
      rw [Pattern.matchesAt_choice] at hm
      obtain ⟨m, cs, hs, hm, -⟩ := hm
      exact ⟨_, hs, [], m, cs, by simp, hm⟩

theorem enforce_spec {found : Findings} {w : Watch} (hplaced : found.Placed t) (hs : w.Sensitive)
    (hnec : ∀ u, p.Completes u t → p.bounds.Admits u → w.constraint.HoldsAt u w.path → found.Met u)
    (hopen : ∀ s, t.get? w.path = some s → ¬ s.Complete) : Answers p t w (enforce found) := by
  have hmem (a : Action) : a ∈ enforce found ↔
      (∃ r ∈ found.requirements, a = .keep r.path (.only r.rules)) ∨
        ∃ e ∈ found.equalities, a = .equate e.1 e.2 := by
    simp [enforce, eq_comm]
  refine ⟨fun a ha => ?_, fun u hu hb hh a ha => ?_,
    .unsettled (fun a ha => ?_) hs fun s hs hc => absurd hc (hopen s hs)⟩
  · rcases (hmem a).mp ha with ⟨r, hr, rfl⟩ | ⟨e, he, rfl⟩
    · exact hplaced.requirements r hr
    · exact hplaced.equalities e he
  · have hmet := hnec u hu hb hh
    rcases (hmem a).mp ha with ⟨r, hr, rfl⟩ | ⟨e, he, rfl⟩
    · exact hmet.1 r hr
    · exact hmet.2 e he
  · rcases (hmem a).mp ha with ⟨r, hr, rfl⟩ | ⟨e, he, rfl⟩
    · trivial
    · trivial

-- A bare variable matches at once.
theorem candidates_var (name : String) (targets : Domain) (total : Cost) (t : Tree) :
    p.candidates (.var name) targets total (t.positions []) = .ok none := by
  cases t <;> rfl

theorem containsSubtreeActions_var (hg : p.grammar.Regular) (name : String) (t : Tree) :
    ReckonsUnless (p.Strained t) (p.containsSubtreeActions t (.var name)) [.retire] := by
  refine (measure_reckons hg t).bind ?_
  rw [candidates_var]
  exact .pure _

section Candidates

variable {template : Tree} {partials : List Findings} {hosts : List Host}
  (h : Gathered p t template targets (t.positions []) partials hosts)

include h

-- What is gathered in all positions accounts for every match.
theorem Gathered.candidate (hg : p.grammar.Regular) (hw : p.grammar.WellFormed none t)
    (hcarries : ∀ path value u, Pattern.MatchesAt template path value u →
      ∃ s, u.get? path = some s ∧ s.Carries targets)
    {u : Tree} (hu : p.Completes u t) (hb : p.bounds.Admits u)
    (hmatch : ∃ path value, Pattern.MatchesAt template path value u) :
    (∃ f ∈ partials, f.Met u) ∨ ∃ host ∈ hosts, u.RootIn host.path (.only host.viable) := by
  have hall (path : Path) (s : Tree) (hs : t.get? path = some s) :=
    h.covered (path, s) ((Tree.mem_positions_nil t path s).mpr hs)
  obtain ⟨path, value, hm⟩ := hmatch
  obtain ⟨s, hs, hc⟩ := hcarries path value u hm
  rcases hu.refines.locate_open hw hs with ⟨r, cs, ht⟩ | ⟨above, rest, category, d, rfl, ht⟩
  · rcases hall path _ ht with ⟨_, _, ⟨⟩, -⟩ | ⟨-, hmet⟩
    exact Or.inl (hmet u value hu hm)
  · obtain ⟨v, hv, hrest⟩ := Tree.get?_of_append hs
    obtain ⟨host, hhost, hin⟩ := exists_host hg hu hb ht hv (hc.of_get? hrest)
    rcases hall above _ ht with ⟨_, _, he, hmem⟩ | ⟨⟨_, _, ⟨⟩⟩, -⟩
    cases he
    exact Or.inr ⟨host, hmem host hhost, hin⟩

end Candidates

section Subtree

-- The actions once it is known that the template matches nowhere yet.
def subtreeAnswer : List Findings → List Host → List Action
  | [], [] => [.fail]
  | [found], [] => enforce found
  | [], [host] => host.settle
  | _, _ => []

theorem containsSubtreeActions_reckons (hg : p.grammar.Regular) {template : Tree}
    (hstrained : p.Strained t → P) (hrules : template.rootRules? = .ok (some targets))
    {out : Option (List Findings × List Host)}
    (hout : ReckonsUnless P (p.candidates template targets (p.leastSize t) (t.positions [])) out) :
    ReckonsUnless P (p.containsSubtreeActions t template) (match out with
      | none => [.retire]
      | some (partials, hosts) => subtreeAnswer partials hosts) := by
  rw [containsSubtreeActions, hrules]
  refine ((measure_reckons hg t).mono hstrained).bind (hout.bind ?_)
  match out with
  | none => exact .pure _
  | some ([], []) => exact .pure _
  | some ([found], []) => exact .pure _
  | some ([], [host]) => exact .pure _
  | some ([], _ :: _ :: _) => exact .pure _
  | some ([_], _ :: _) => exact .pure _
  | some (_ :: _ :: _, _) => exact .pure _

-- With one undecided match or one host left, the match must come about there.
theorem subtreeAnswer_spec {template : Tree} {partials : List Findings}
    {hosts : List Host}
    (h : Gathered p t template targets (t.positions []) partials hosts)
    (hcandidate : ∀ u, p.Completes u t → p.bounds.Admits u →
      Constraint.HoldsAt u [] (.containsSubtree template) →
        (∃ f ∈ partials, f.Met u) ∨ ∃ host ∈ hosts, u.RootIn host.path (.only host.viable)) :
    Answers p t ⟨[], .containsSubtree template⟩ (subtreeAnswer partials hosts) := by
  have hwaiting (found : Findings) (hm : found ∈ partials) :
      Answers p t ⟨[], .containsSubtree template⟩ [] :=
    .waiting trivial (by simpa using (h.placed found hm).2)
  match partials, hosts with
  | [], [] =>
      refine .failed fun u hu hb hh => ?_
      rcases hcandidate u hu hb hh with ⟨f, hf, -⟩ | ⟨host, hm, -⟩
      · cases hf
      · cases hm
  | [found], [] =>
      obtain ⟨hplaced, hopen⟩ := h.placed found List.mem_cons_self
      refine enforce_spec hplaced trivial (fun u hu hb hh => ?_) (by simpa using hopen)
      rcases hcandidate u hu hb hh with ⟨f, hf, hmet⟩ | ⟨host, hm, -⟩
      · obtain rfl := List.mem_singleton.mp hf
        exact hmet
      · cases hm
  | [], [host] =>
      obtain ⟨category, rules, hh⟩ := h.origin _ List.mem_cons_self
      refine settle_spec hh trivial (fun u hu hb hholds => ?_) (root_open hh)
      rcases hcandidate u hu hb hholds with ⟨f, hf, -⟩ | ⟨other, hm, hin⟩
      · cases hf
      · obtain rfl := List.mem_singleton.mp hm
        exact hin
  | [], _ :: _ :: _ =>
      obtain ⟨category, rules, hh⟩ := h.origin _ List.mem_cons_self
      exact .waiting trivial (root_open hh)
  | [found], _ :: _ => exact hwaiting found List.mem_cons_self
  | found :: _ :: _, _ => exact hwaiting found List.mem_cons_self

theorem containsSubtreeActions_spec (hg : p.grammar.Regular) (hw : p.grammar.WellFormed none t)
    {template : Tree} (hp : template.IsPattern) (hstrained : p.Strained t → P)
    (htable : ∀ targets, Constraint.targets? (.containsSubtree template) = some targets →
      p.contain targets = .error .overflow → P) :
    ∃ acts, ReckonsUnless P (p.containsSubtreeActions t template) acts ∧
      Answers p t ⟨[], .containsSubtree template⟩ acts := by
  obtain ⟨rules, hrules, hvar, hcarries⟩ := rootRules?_spec hp
  cases rules with
  | none =>
      obtain ⟨name, rfl⟩ := hvar rfl
      exact ⟨[.retire], (containsSubtreeActions_var hg name t).mono hstrained,
        .retired fun u _ _ => ⟨[], fun _ => u, u, by simp, .var rfl⟩⟩
  | some targets =>
      have htargets : Constraint.targets? (.containsSubtree template) = some targets := by
        rw [Constraint.targets?, hrules]
        rfl
      obtain ⟨out, hout, hnone, hsome⟩ := candidates_spec hg hw hp hstrained (htable targets htargets)
        (t.positions []) fun x hx => (Tree.mem_positions_nil t x.1 x.2).mp hx
      refine ⟨_, containsSubtreeActions_reckons hg hstrained hrules hout, ?_⟩
      cases out with
      | none =>
          obtain ⟨path, hmatch⟩ := hnone rfl
          refine .retired fun u hu _ => ?_
          obtain ⟨value, hm⟩ := hmatch u hu
          exact ⟨path, value, hm⟩
      | some found =>
          have hall := hsome found.1 found.2 rfl
          exact subtreeAnswer_spec hall fun u hu hb hh =>
            hall.candidate hg hw (hcarries targets rfl) hu hb (hh rfl)

end Subtree

end Hosts

end Problem

end TreeSearch
