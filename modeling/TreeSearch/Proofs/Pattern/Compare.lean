import TreeSearch.Pattern.Match
import TreeSearch.Proofs.Limits

namespace TreeSearch

-- A tree has one of some rules at a path.
def Tree.RootIn (u : Tree) (path : Path) (mask : Mask) : Prop :=
  ∃ (n : Nat) (cs : List Tree), u.get? path = some (.node n cs) ∧ n ∈ mask

namespace Findings

-- A complete tree meets all conditions.
def Met (found : Findings) (u : Tree) : Prop :=
  (∀ r ∈ found.requirements, u.RootIn r.path (.only r.rules)) ∧
    ∀ e ∈ found.equalities, u.get? e.1 = u.get? e.2

-- All paths lead to positions of the tree that was matched.
structure Placed (whole : Tree) (found : Findings) : Prop where
  requirements : ∀ r ∈ found.requirements, ∃ s, whole.get? r.path = some s
  equalities : ∀ e ∈ found.equalities, (∃ s, whole.get? e.1 = some s) ∧ ∃ s, whole.get? e.2 = some s
  bindings : ∀ b ∈ found.bindings, whole.get? b.path = some b.tree

-- What was found stays found.
structure Grows (whole : Tree) (found f : Findings) : Prop where
  requirements : ∀ r ∈ found.requirements, r ∈ f.requirements
  equalities : ∀ e ∈ found.equalities, e ∈ f.equalities
  bound : ∀ name b, found.binding? name = some b → f.binding? name = some b
  placed : found.Placed whole → f.Placed whole

variable {whole u : Tree} {found f g : Findings}

theorem Grows.refl (whole : Tree) (found : Findings) : Grows whole found found :=
  ⟨fun _ h => h, fun _ h => h, fun _ _ h => h, fun h => h⟩

theorem Grows.trans (h : Grows whole found f) (h' : Grows whole f g) : Grows whole found g :=
  ⟨fun r hr => h'.requirements r (h.requirements r hr),
    fun e he => h'.equalities e (h.equalities e he),
    fun name b hb => h'.bound name b (h.bound name b hb), fun hp => h'.placed (h.placed hp)⟩

theorem Grows.met (h : Grows whole found f) (hm : f.Met u) : found.Met u :=
  ⟨fun r hr => hm.1 r (h.requirements r hr), fun e he => hm.2 e (h.equalities e he)⟩

@[simp]
theorem met_none (u : Tree) : none.Met u := ⟨nofun, nofun⟩

theorem met_require (found : Findings) (path : Path) (rules : Domain) (settled : Bool) (u : Tree) :
    (found.require path rules settled).Met u ↔ found.Met u ∧ u.RootIn path (.only rules) := by
  simp only [Met, require, List.mem_append, List.mem_singleton]
  constructor
  · intro h
    exact ⟨⟨fun r hr => h.1 r (Or.inl hr), h.2⟩, h.1 ⟨path, rules, settled⟩ (Or.inr rfl)⟩
  · rintro ⟨h, hr⟩
    refine ⟨?_, h.2⟩
    rintro r (hm | rfl)
    · exact h.1 r hm
    · exact hr

theorem met_equate (found : Findings) (first second : Path) (u : Tree) :
    (found.equate first second).Met u ↔ found.Met u ∧ u.get? first = u.get? second := by
  simp only [Met, equate, List.mem_append, List.mem_singleton]
  constructor
  · intro h
    exact ⟨⟨h.1, fun e he => h.2 e (Or.inl he)⟩, h.2 (first, second) (Or.inr rfl)⟩
  · rintro ⟨h, he⟩
    refine ⟨h.1, ?_⟩
    rintro e (hm | rfl)
    · exact h.2 e hm
    · exact he

theorem grows_require {path : Path} {s : Tree} (hs : whole.get? path = some s) (rules : Domain)
    (settled : Bool) : Grows whole found (found.require path rules settled) := by
  refine ⟨fun r hr => List.mem_append_left _ hr, fun _ h => h, fun _ _ h => h, fun h => ?_⟩
  refine ⟨fun r hr => ?_, h.equalities, h.bindings⟩
  rcases List.mem_append.mp hr with hr | hr
  · exact h.requirements r hr
  · obtain rfl := List.mem_singleton.mp hr
    exact ⟨s, hs⟩

theorem grows_equate {first second : Path} {s t : Tree} (hs : whole.get? first = some s)
    (ht : whole.get? second = some t) : Grows whole found (found.equate first second) := by
  refine ⟨fun _ h => h, fun e he => List.mem_append_left _ he, fun _ _ h => h, fun h => ?_⟩
  refine ⟨h.requirements, fun e he => ?_, h.bindings⟩
  rcases List.mem_append.mp he with he | he
  · exact h.equalities e he
  · obtain rfl := List.mem_singleton.mp he
    exact ⟨⟨s, hs⟩, t, ht⟩

end Findings

namespace Tree

-- Two nodes with the same rule are equal when their children are.
theorem get?_eq_iff {u : Tree} {first second : Path} {r : Int} {cs ds : List Tree}
    (hc : u.get? first = some (node r cs)) (hd : u.get? second = some (node r ds))
    (hlen : cs.length = ds.length) :
    u.get? first = u.get? second ↔
      ∀ i < cs.length, u.get? (first ++ [(i : Int)]) = u.get? (second ++ [(i : Int)]) := by
  simp only [get?_below hc, get?_below hd, hc, hd, Option.some.injEq, node.injEq, true_and]
  constructor
  · rintro rfl i -
    rfl
  · intro h
    refine List.ext_getElem hlen fun i hi hi' => ?_
    have := h i hi
    rwa [List.getElem?_eq_getElem hi, List.getElem?_eq_getElem hi', Option.some.injEq] at this

end Tree

namespace Problem

variable {p : Problem} {whole : Tree}

theorem Completes.root {u : Tree} {path : Path} {r : Int} {cs : List Tree}
    (hu : p.Completes u whole) (h : whole.get? path = some (.node r cs)) :
    ∃ ds : List Tree, u.get? path = some (.node r ds) ∧ ds.length = cs.length := by
  obtain ⟨v, hv, hc⟩ := hu.get? h
  obtain ⟨ds, rfl, hlen, -⟩ := hc.node
  exact ⟨ds, hv, hlen⟩

theorem Completes.rootIn {u : Tree} {path : Path} {category : String} {d : Domain}
    (hu : p.Completes u whole) (h : whole.get? path = some (.hole category d)) :
    ∃ (n : Nat) (cs : List Tree), u.get? path = some (.node n cs) ∧ n ∈ d := by
  obtain ⟨v, hv, hc⟩ := hu.get? h
  obtain ⟨n, cs, rfl, hn⟩ := hc.hole
  exact ⟨n, cs, hv, hn⟩

-- Two nodes of one terminal rule are the same tree.
theorem Completes.terminal_eq {u : Tree} {a b : Path} {n : Nat} {cs ds : List Tree} {rule : Rule}
    (hu : p.Completes u whole) (hr : p.grammar.rule? n = some rule) (ht : rule.children = [])
    (ha : u.get? a = some (.node n cs)) (hb : u.get? b = some (.node n ds)) :
    u.get? a = u.get? b := by
  have hnil {path : Path} {es : List Tree} (h : u.get? path = some (.node n es)) : es = [] := by
    obtain ⟨q, hq, -, -, hlen, -⟩ := Grammar.wellFormed_node_iff.mp (hu.wellFormed.get? h)
    obtain rfl : rule = q := Option.some.inj (hr.symm.trans hq)
    simpa [ht] using hlen
  rw [ha, hb, hnil ha, hnil hb]

-- A node without children is equal to whatever takes its rule.
theorem Completes.leaf_eq_iff {u : Tree} {a b : Path} {n : Nat} (hu : p.Completes u whole)
    (hw : p.grammar.WellFormed none whole) (ha : whole.get? a = some (.node n [])) :
    u.get? a = u.get? b ↔ u.RootIn b (.only {n}) := by
  obtain ⟨rule, hr, -, -, hlen, -⟩ := Grammar.wellFormed_node_iff.mp (hw.get? ha)
  have hterm : rule.children = [] := by simpa using hlen.symm
  obtain ⟨cs, hcs, -⟩ := hu.root ha
  constructor
  · intro he
    exact ⟨n, cs, he ▸ hcs, (Domain.mem_singleton n n).mpr rfl⟩
  · rintro ⟨m, ds, hds, hm⟩
    obtain rfl := (Domain.mem_singleton m n).mp hm
    exact hu.terminal_eq hr hterm hcs hds

end Problem

namespace Pattern

-- The outcome of a comparison at two positions of a tree. Nothing is found where
-- everything is decided.
structure Compared (p : Problem) (whole : Tree) (first second : Path) (decided : Prop)
    (found : Findings) (out : Option Findings) : Prop where
  met : ∀ u, p.Completes u whole →
    ((∃ f, out = some f ∧ f.Met u) ↔ found.Met u ∧ u.get? first = u.get? second)
  grows : ∀ f, out = some f → found.Grows whole f
  bindings : ∀ f, out = some f → f.bindings = found.bindings
  settled : ∀ f, out = some f → ∀ r ∈ f.requirements, r ∈ found.requirements ∨ r.settled = true
  decided : decided → ∀ f, out = some f → f = found

variable {p : Problem} {whole : Tree} {first second : Path} {found : Findings} {decided : Prop}

theorem Compared.none (h : ∀ u, p.Completes u whole → u.get? first ≠ u.get? second) :
    Compared p whole first second decided found none :=
  ⟨fun u hu => by simp [h u hu], nofun, nofun, nofun, nofun⟩

theorem Compared.same (h : ∀ u, p.Completes u whole → u.get? first = u.get? second) :
    Compared p whole first second decided found (some found) := by
  refine ⟨fun u hu => by simp [h u hu], ?_, ?_, ?_, ?_⟩
  · rintro f ⟨⟩
    exact .refl whole found
  · rintro f ⟨⟩
    rfl
  · rintro f ⟨⟩ r hr
    exact Or.inl hr
  · rintro - f ⟨⟩
    rfl

theorem Compared.equate {s t : Tree} (hs : whole.get? first = some s)
    (ht : whole.get? second = some t) (hd : ¬ decided) :
    Compared p whole first second decided found (some (found.equate first second)) := by
  refine ⟨fun u _ => by simp [Findings.met_equate], ?_, ?_, ?_, fun h => absurd h hd⟩
  · rintro f ⟨⟩
    exact Findings.grows_equate hs ht
  · rintro f ⟨⟩
    rfl
  · rintro f ⟨⟩ r hr
    exact Or.inl hr

-- Equality comes to a condition on the rules of one position.
theorem Compared.require {s : Tree} {path : Path} {rules : Domain} (hs : whole.get? path = some s)
    (h : ∀ u, p.Completes u whole →
      (u.get? first = u.get? second ↔ u.RootIn path (.only rules))) (hd : ¬ decided) :
    Compared p whole first second decided found (some (found.require path rules true)) := by
  refine ⟨fun u hu => by simp [Findings.met_require, h u hu], ?_, ?_, ?_, fun h => absurd h hd⟩
  · rintro f ⟨⟩
    exact Findings.grows_require hs _ _
  · rintro f ⟨⟩
    rfl
  · rintro f ⟨⟩ r hr
    rcases List.mem_append.mp hr with hr | hr
    · exact Or.inl hr
    · obtain rfl := List.mem_singleton.mp hr
      exact Or.inr rfl

-- Equality is symmetric.
theorem Compared.symm {out : Option Findings} (h : Compared p whole first second decided found out) :
    Compared p whole second first decided found out :=
  { h with met := fun u hu => by rw [h.met u hu, eq_comm] }

-- The outcome of comparing so many children of two positions, from one place on.
structure ComparedAll (p : Problem) (whole : Tree) (first second : Path) (index count : Nat)
    (decided : Prop) (found : Findings) (out : Option Findings) : Prop where
  met : ∀ u, p.Completes u whole → ((∃ f, out = some f ∧ f.Met u) ↔ found.Met u ∧
    ∀ i < count, u.get? (first ++ [((index + i : Nat) : Int)]) =
      u.get? (second ++ [((index + i : Nat) : Int)]))
  grows : ∀ f, out = some f → found.Grows whole f
  bindings : ∀ f, out = some f → f.bindings = found.bindings
  settled : ∀ f, out = some f → ∀ r ∈ f.requirements, r ∈ found.requirements ∨ r.settled = true
  decided : decided → ∀ f, out = some f → f = found

theorem ComparedAll.nil (index : Nat) :
    ComparedAll p whole first second index 0 decided found (some found) := by
  refine ⟨fun u _ => by simp, ?_, ?_, ?_, ?_⟩
  · rintro f ⟨⟩
    exact .refl whole found
  · rintro f ⟨⟩
    rfl
  · rintro f ⟨⟩ r hr
    exact Or.inl hr
  · rintro - f ⟨⟩
    rfl

section Children

variable {index count : Nat} {decided' : Prop} {f : Findings} {out : Option Findings}

-- The first pair of children cannot be equal.
theorem ComparedAll.stop
    (h : Compared p whole (first ++ [(index : Int)]) (second ++ [(index : Int)]) decided found none) :
    ComparedAll p whole first second index (count + 1) decided' found none := by
  refine ⟨fun u hu => ?_, nofun, nofun, nofun, nofun⟩
  have hno := (h.met u hu).not.mp (by simp)
  rw [Nat.forall_lt_succ_left]
  simp only [reduceCtorEq, false_and, exists_false, false_iff]
  exact fun h => hno ⟨h.1, by simpa using h.2.1⟩

-- The first pair of children, and then the others.
theorem ComparedAll.cons
    (h : Compared p whole (first ++ [(index : Int)]) (second ++ [(index : Int)]) decided found
      (some f))
    (hrest : ComparedAll p whole first second (index + 1) count decided' f out) :
    ComparedAll p whole first second index (count + 1) (decided ∧ decided') found out := by
  refine ⟨fun u hu => ?_, fun g hg => (h.grows f rfl).trans (hrest.grows g hg),
    fun g hg => (hrest.bindings g hg).trans (h.bindings f rfl), fun g hg r hr => ?_,
    fun hd g hg => ?_⟩
  · have hf : f.Met u ↔ found.Met u ∧
        u.get? (first ++ [(index : Int)]) = u.get? (second ++ [(index : Int)]) := by
      simpa using h.met u hu
    rw [hrest.met u hu, hf, and_assoc, Nat.forall_lt_succ_left]
    simp only [Nat.add_zero, ← Nat.add_assoc, Nat.add_right_comm index 1]
  · rcases hrest.settled g hg r hr with hr | hr
    · exact h.settled f rfl r hr
    · exact Or.inr hr
  · rw [hrest.decided hd.2 g hg]
    exact h.decided hd.1 f rfl

-- Two nodes of one rule are compared child by child.
theorem ComparedAll.compared {r : Int} {cs ds : List Tree}
    (h : ComparedAll p whole first second 0 cs.length decided' found out)
    (hs : whole.get? first = some (.node r cs)) (ht : whole.get? second = some (.node r ds))
    (hlen : cs.length = ds.length) (hd : decided → decided') :
    Compared p whole first second decided found out := by
  refine ⟨fun u hu => ?_, h.grows, h.bindings, h.settled, fun h' => h.decided (hd h')⟩
  obtain ⟨es, hes, hel⟩ := hu.root hs
  obtain ⟨fs, hfs, hfl⟩ := hu.root ht
  rw [h.met u hu, Tree.get?_eq_iff hes hfs (by omega), hel]
  simp

end Children

section Open

variable {n : Nat} {cs : List Tree} {category : String} {rules : Domain}

-- A filled position against an open one. It may be either of the two that stand for
-- the equation.
theorem compareOpen_spec (hw : p.grammar.WellFormed none whole) {filled opened a b : Path}
    (hf : whole.get? filled = some (.node n cs)) (ho : whole.get? opened = some (.hole category rules))
    (hab : a = filled ∧ b = opened ∨ a = opened ∧ b = filled) (hd : ¬ decided) :
    ∃ out, compareOpen n cs opened rules a b found = .ok out ∧
      Compared p whole a b decided found out := by
  have hsymm : ∀ out, Compared p whole filled opened decided found out →
      Compared p whole a b decided found out := by
    rintro out h
    rcases hab with ⟨rfl, rfl⟩ | ⟨rfl, rfl⟩
    · exact h
    · exact h.symm
  unfold compareOpen
  rw [Domain.has_natCast, Except.ok_bind]
  by_cases hn : n ∈ rules
  · by_cases hcs : cs = []
    · subst hcs
      rw [Domain.single_natCast]
      by_cases honly : rules = {n}
      · refine ⟨some found, by simp [honly], hsymm _ (.same fun u hu => ?_)⟩
        obtain ⟨m, es, hes, hm⟩ := hu.rootIn ho
        exact (hu.leaf_eq_iff hw hf).mpr ⟨m, es, hes, by rw [honly] at hm; exact hm⟩
      · exact ⟨some (found.require opened {n} true), by simp [hn, honly],
          hsymm _ (.require ho (fun u hu => hu.leaf_eq_iff hw hf) hd)⟩
    · refine ⟨some (found.equate a b), by simp [hn, hcs], ?_⟩
      rcases hab with ⟨rfl, rfl⟩ | ⟨rfl, rfl⟩
      · exact .equate hf ho hd
      · exact .equate ho hf hd
  · refine ⟨none, by simp [hn], hsymm _ (.none fun u hu he => hn ?_)⟩
    obtain ⟨ds, hds, -⟩ := hu.root hf
    obtain ⟨m, es, hes, hm⟩ := hu.rootIn ho
    rw [hds, hes, Option.some.injEq, Tree.node.injEq] at he
    obtain rfl : n = m := by omega
    exact hm

end Open

-- Two open positions with the same single rule, which ends there.
theorem sameTerminal_spec {category : String} {d e : Domain}
    (hd : ∀ r : Nat, r ∈ d → p.grammar.Produces r category) :
    ∃ b, sameTerminal (some p.grammar) d e = .ok b ∧
      (b = true ↔ ∃ (n : Nat) (rule : Rule), d = {n} ∧ e = {n} ∧ p.grammar.rule? n = some rule ∧
        rule.children = []) := by
  unfold sameTerminal
  cases hs : d.sole? with
  | none =>
      refine ⟨false, rfl, nofun, ?_⟩
      rintro ⟨n, -, hn, -⟩
      cases hs.symm.trans ((Domain.sole?_eq_some d n).mpr hn)
  | some n =>
      obtain rfl := (Domain.sole?_eq_some d n).mp hs
      by_cases he : ({n} : Domain) = e
      · obtain ⟨rule, hr, -, -⟩ := hd n ((Domain.mem_singleton n n).mpr rfl)
        refine ⟨rule.isTerminal, by simp [he, Grammar.isTerminal_eq_ok hr], fun ht => ?_, ?_⟩
        · exact ⟨n, rule, rfl, he.symm, hr, by simpa [Rule.isTerminal] using ht⟩
        · rintro ⟨m, other, hm, -, hother, hterminal⟩
          obtain rfl : n = m := (Domain.mem_singleton n m).mp (hm ▸ (Domain.mem_singleton n n).mpr rfl)
          obtain rfl := Option.some.inj (hr.symm.trans hother)
          simpa [Rule.isTerminal] using hterminal
      · refine ⟨false, by simp [he], nofun, ?_⟩
        rintro ⟨m, -, hm, he', -⟩
        exact absurd (hm.trans he'.symm) he

-- Two open positions.
theorem compareHoles_spec (found : Findings) (hw : p.grammar.WellFormed none whole)
    {category category' : String} {d e : Domain}
    (hs : whole.get? first = some (.hole category d))
    (ht : whole.get? second = some (.hole category' e)) (hd : ¬ decided) :
    ∃ out, compare (some p.grammar) first second (.hole category d) (.hole category' e) found = .ok out ∧
      Compared p whole first second decided found out := by
  obtain ⟨b, hb, hsame⟩ := sameTerminal_spec (e := e) (Grammar.wellFormed_hole_iff.mp (hw.get? hs)).2.2
  rw [compare]
  · simp only [Tree.domain?, hb]
    by_cases hdisjoint : (d ∩ e).isEmpty = true
    · refine ⟨none, by simp [hdisjoint], .none fun u hu he => ?_⟩
      obtain ⟨m, es, hes, hm⟩ := hu.rootIn hs
      obtain ⟨k, fs, hfs, hk⟩ := hu.rootIn ht
      rw [hes, hfs, Option.some.injEq, Tree.node.injEq] at he
      obtain rfl : m = k := by omega
      exact (Domain.isEmpty_iff _).mp hdisjoint m ((Domain.mem_inter m d e).mpr ⟨hm, hk⟩)
    · cases b with
      | true =>
          refine ⟨some found, by simp [hdisjoint], .same fun u hu => ?_⟩
          obtain ⟨n, rule, rfl, rfl, hr, hterm⟩ := hsame.mp rfl
          obtain ⟨m, es, hes, hm⟩ := hu.rootIn hs
          obtain ⟨k, fs, hfs, hk⟩ := hu.rootIn ht
          obtain rfl := (Domain.mem_singleton m n).mp hm
          obtain rfl := (Domain.mem_singleton k m).mp hk
          exact hu.terminal_eq hr hterm hes hfs
      | false => exact ⟨_, by simp [hdisjoint], .equate hs ht hd⟩
  · simp
  · simp
  · intro _ _ _ _ h
    cases h

-- The children of two nodes, one pair after the other.
theorem compareAll_spec {cs ds : List Tree} (index : Nat) (found : Findings) (hlen : cs.length = ds.length)
    (ih : ∀ c ∈ cs, ∀ (d : Tree) (a b : Path) (found : Findings), whole.get? a = some c →
      whole.get? b = some d → ∃ out, compare (some p.grammar) a b c d found = .ok out ∧
        Compared p whole a b (c.Complete ∧ d.Complete) found out)
    (hc : ∀ (i : Nat) (c : Tree), cs[i]? = some c →
      whole.get? (first ++ [((index + i : Nat) : Int)]) = some c)
    (hd : ∀ (i : Nat) (d : Tree), ds[i]? = some d →
      whole.get? (second ++ [((index + i : Nat) : Int)]) = some d) :
    ∃ out, compareAll (some p.grammar) first second index cs ds found = .ok out ∧
      ComparedAll p whole first second index cs.length
        ((∀ c ∈ cs, c.Complete) ∧ ∀ d ∈ ds, d.Complete) found out := by
  induction cs generalizing ds index found with
  | nil => exact ⟨some found, by simp [compareAll], .nil index⟩
  | cons c cs ihc =>
      cases ds with
      | nil => cases hlen
      | cons d ds =>
          obtain ⟨out, hout, hfirst⟩ := ih c List.mem_cons_self d _ _ found
            (by simpa using hc 0 c (by simp)) (by simpa using hd 0 d (by simp))
          cases out with
          | none => exact ⟨none, by simp [compareAll, hout], .stop hfirst⟩
          | some f =>
              have hshift (i : Nat) : index + 1 + i = index + (i + 1) := by omega
              obtain ⟨out, hout', hrest⟩ := ihc (index + 1) f (by simpa using hlen)
                (fun c hm => ih c (List.mem_cons_of_mem _ hm))
                (fun i c hi => by rw [hshift]; exact hc (i + 1) c (by simpa using hi))
                (fun i d hi => by rw [hshift]; exact hd (i + 1) d (by simpa using hi))
              refine ⟨out, by simp [compareAll, hout, hout'], ?_⟩
              simp only [List.forall_mem_cons, and_and_and_comm]
              exact .cons hfirst hrest

-- Two subtrees of a well-formed tree can always be compared, and the comparison finds
-- what their equality takes.
theorem compare_spec (found : Findings) (hw : p.grammar.WellFormed none whole) {s t : Tree}
    (hs : whole.get? first = some s) (ht : whole.get? second = some t) :
    ∃ out, compare (some p.grammar) first second s t found = .ok out ∧
      Compared p whole first second (s.Complete ∧ t.Complete) found out := by
  induction s using Tree.induction generalizing t first second found with
  | node r cs ih =>
      obtain ⟨n, rfl⟩ := Int.eq_ofNat_of_zero_le (hw.get? hs).root_nonneg
      cases t with
      | node q ds =>
          rw [compare]
          by_cases hsame : (n : Int) = q ∧ cs.length = ds.length
          · obtain ⟨rfl, hlen⟩ := hsame
            obtain ⟨out, hout, h⟩ := compareAll_spec 0 found hlen
              (fun c hc d a b found ha hb => ih c hc found ha hb)
              (fun i c hi => by simpa using Tree.get?_child hs hi)
              (fun i d hi => by simpa using Tree.get?_child ht hi)
            refine ⟨out, by simp [hlen, hout], h.compared hs ht hlen ?_⟩
            rintro ⟨hc, hd⟩
            obtain ⟨_, _, he, hcs⟩ := Tree.complete_iff.mp hc
            obtain ⟨_, _, he', hds⟩ := Tree.complete_iff.mp hd
            cases he
            cases he'
            exact ⟨hcs, hds⟩
          · refine ⟨none, by simp only [if_neg hsame], .none fun u hu he => hsame ?_⟩
            obtain ⟨es, hes, hel⟩ := hu.root hs
            obtain ⟨fs, hfs, hfl⟩ := hu.root ht
            rw [hes, hfs, Option.some.injEq, Tree.node.injEq] at he
            obtain ⟨rfl, rfl⟩ := he
            exact ⟨rfl, by omega⟩
      | hole category d =>
          rw [compare]
          · simp only [Tree.domain?]
            exact compareOpen_spec hw hs ht (Or.inl ⟨rfl, rfl⟩) (by rintro ⟨-, ⟨⟩⟩)
          · simp
      | choice => cases hw.get? ht
      | var => cases hw.get? ht
  | hole category d =>
      cases (hw.get? ht).concrete with
      | node n ds =>
          rw [compare]
          · simp only [Tree.domain?]
            exact compareOpen_spec hw ht hs (Or.inr ⟨rfl, rfl⟩) (by rintro ⟨⟨⟩, -⟩)
          · simp
      | hole => exact compareHoles_spec found hw hs ht (by rintro ⟨⟨⟩, -⟩)
  | choice => cases hw.get? hs
  | var => cases hw.get? hs

end Pattern

end TreeSearch
