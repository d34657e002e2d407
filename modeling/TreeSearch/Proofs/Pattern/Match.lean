import TreeSearch.Pattern.Matches
import TreeSearch.Proofs.Grammar.Regular
import TreeSearch.Proofs.Pattern.Compare

namespace TreeSearch

namespace Findings

-- Nothing of the template is left to check below the open positions.
def Settled (found : Findings) : Prop := ∀ r ∈ found.requirements, r.settled = true

-- The variables stand for the subtrees they are bound to.
def Binds (found : Findings) (value : String → Tree) (u : Tree) : Prop :=
  ∀ name b, found.binding? name = some b → u.get? b.path = some (value name)

variable {whole u : Tree} {found f : Findings}

theorem Grows.settled (h : found.Grows whole f) (hs : f.Settled) : found.Settled :=
  fun r hr => hs r (h.requirements r hr)

theorem Grows.binds (h : found.Grows whole f) {value : String → Tree} (hb : f.Binds value u) :
    found.Binds value u :=
  fun name b hn => hb name b (h.bound name b hn)

theorem binds_congr (h : f.bindings = found.bindings) (value : String → Tree) (u : Tree) :
    f.Binds value u ↔ found.Binds value u := by
  simp only [Binds, binding?, h]

theorem binding?_bind_self {name : String} (path : Path) (t : Tree)
    (h : found.binding? name = Option.none) :
    (found.bind name path t).binding? name = some ⟨name, path, t⟩ := by
  have h' : found.bindings.find? (fun b => decide (b.name = name)) = Option.none := h
  rw [binding?, bind, List.find?_append, h']
  simp

theorem grows_bind {name : String} {path : Path} {t : Tree} (ht : whole.get? path = some t) :
    found.Grows whole (found.bind name path t) := by
  refine ⟨fun _ h => h, fun _ h => h, fun other b hb => ?_, fun h => ?_⟩
  · rw [binding?, bind, List.find?_append, show found.bindings.find? _ = some b from hb]
    rfl
  · refine ⟨h.requirements, h.equalities, fun b hb => ?_⟩
    rcases List.mem_append.mp hb with hb | hb
    · exact h.bindings b hb
    · obtain rfl := List.mem_singleton.mp hb
      exact ht

end Findings

theorem Verdict.soleRequirement?_eq_some {found : Findings} {r : Requirement}
    (h : (Verdict.undecided found).soleRequirement? = some r) :
    found.requirements = [r] ∧ found.equalities = [] ∧ r.settled = true := by
  obtain ⟨requirements, equalities, bindings⟩ := found
  unfold soleRequirement? at h
  split at h
  · rename_i requirement bindings' he
    cases he
    split at h
    · rename_i hsettled
      cases h
      exact ⟨rfl, rfl, hsettled⟩
    · cases h
  · cases h

namespace Pattern

variable {p : Problem} {whole : Tree} {path : Path} {found : Findings}

-- The outcome of matching a part of a template at a position. A tree satisfies the part
-- under the values that its variables have.
structure Matched (p : Problem) (whole : Tree) (Satisfied : (String → Tree) → Tree → Prop)
    (names : List String) (decided : Prop) (found : Findings) (out : Option Findings) : Prop where
  necessary : ∀ u value, p.Completes u whole → Satisfied value u → found.Met u →
    found.Binds value u → ∃ f, out = some f ∧ f.Met u ∧ f.Binds value u
  sufficient : ∀ f, out = some f → f.Settled → ∀ u value, p.Completes u whole → f.Met u →
    f.Binds value u → Satisfied value u
  grows : ∀ f, out = some f → found.Grows whole f
  bound : ∀ f, out = some f → f.Settled → ∀ name ∈ names, ∃ b, f.binding? name = some b
  decided : decided → (∀ b ∈ found.bindings, b.tree.Complete) → ∀ f, out = some f →
    f.requirements = found.requirements ∧ f.equalities = found.equalities ∧
      ∀ b ∈ f.bindings, b.tree.Complete

section Matched

variable {Satisfied Satisfied' : (String → Tree) → Tree → Prop} {names names' : List String}
  {decided decided' : Prop} {out : Option Findings}

-- Nothing is found where no completion satisfies the part.
theorem Matched.refuted
    (h : ∀ u value, p.Completes u whole → Satisfied value u → found.Met u → ¬ found.Binds value u) :
    Matched p whole Satisfied names decided found none :=
  ⟨fun u value hu hs hm hb => absurd hb (h u value hu hs hm), nofun, nofun, nofun, nofun⟩

-- Nothing has to be found out about a part that every completion satisfies.
theorem Matched.idle (h : ∀ u value, p.Completes u whole → Satisfied value u) :
    Matched p whole Satisfied [] decided found (some found) := by
  refine ⟨fun u value _ _ hm hb => ⟨found, rfl, hm, hb⟩, ?_, ?_, ?_, ?_⟩
  · rintro f ⟨⟩ - u value hu - -
    exact h u value hu
  · rintro f ⟨⟩
    exact .refl whole found
  · rintro f ⟨⟩ - name hn
    cases hn
  · rintro - hb f ⟨⟩
    exact ⟨rfl, rfl, hb⟩

-- A condition on the rules at a position. It is enough for the part where it counts as settled.
theorem Matched.require {s : Tree} {rules : Domain} {settled : Bool} (hs : whole.get? path = some s)
    (hroot : ∀ u value, p.Completes u whole → Satisfied value u → u.RootIn path (.only rules))
    (hleaf : settled = true → names = [] ∧ ∀ u value, p.Completes u whole →
      u.RootIn path (.only rules) → Satisfied value u) (hd : ¬ decided) :
    Matched p whole Satisfied names decided found (some (found.require path rules settled)) := by
  have hmet := Findings.met_require found path rules settled
  have hsettled (h : (found.require path rules settled).Settled) : settled = true :=
    h ⟨path, rules, settled⟩ (List.mem_append_right _ (List.mem_singleton.mpr rfl))
  refine ⟨fun u value hu hsat hm hb => ?_, ?_, ?_, ?_, fun h => absurd h hd⟩
  · exact ⟨_, rfl, (hmet u).mpr ⟨hm, hroot u value hu hsat⟩, hb⟩
  · rintro f ⟨⟩ hf u value hu hm -
    exact (hleaf (hsettled hf)).2 u value hu ((hmet u).mp hm).2
  · rintro f ⟨⟩
    exact Findings.grows_require hs _ _
  · rintro f ⟨⟩ hf name hn
    rw [(hleaf (hsettled hf)).1] at hn
    cases hn

theorem Matched.congr (h : Matched p whole Satisfied names decided found out)
    (hs : ∀ u value, p.Completes u whole → (Satisfied value u ↔ Satisfied' value u))
    (hd : decided' → decided) : Matched p whole Satisfied' names decided' found out :=
  ⟨fun u value hu hsat => h.necessary u value hu ((hs u value hu).mpr hsat),
    fun f hf hsettled u value hu hm hb => (hs u value hu).mp (h.sufficient f hf hsettled u value hu hm hb),
    h.grows, h.bound, fun h' => h.decided (hd h')⟩

-- One part after another.
theorem Matched.seq {f : Findings} (h : Matched p whole Satisfied names decided found (some f))
    (h' : Matched p whole Satisfied' names' decided' f out) :
    Matched p whole (fun value u => Satisfied value u ∧ Satisfied' value u) (names ++ names')
      (decided ∧ decided') found out := by
  refine ⟨fun u value hu hs hm hb => ?_, fun g hg hsettled u value hu hm hb => ?_,
    fun g hg => (h.grows f rfl).trans (h'.grows g hg), fun g hg hsettled name hn => ?_,
    fun hd hb g hg => ?_⟩
  · obtain ⟨_, ⟨⟩, hm', hb'⟩ := h.necessary u value hu hs.1 hm hb
    exact h'.necessary u value hu hs.2 hm' hb'
  · have hgrows := h'.grows g hg
    exact ⟨h.sufficient f rfl (hgrows.settled hsettled) u value hu (hgrows.met hm) (hgrows.binds hb),
      h'.sufficient g hg hsettled u value hu hm hb⟩
  · have hgrows := h'.grows g hg
    rcases List.mem_append.mp hn with hn | hn
    · obtain ⟨b, hb⟩ := h.bound f rfl (hgrows.settled hsettled) name hn
      exact ⟨b, hgrows.bound name b hb⟩
    · exact h'.bound g hg hsettled name hn
  · obtain ⟨hr, he, hb⟩ := h.decided hd.1 hb f rfl
    obtain ⟨hr', he', hb'⟩ := h'.decided hd.2 hb g hg
    exact ⟨hr'.trans hr, he'.trans he, hb'⟩

end Matched

-- A template matches at a path.
def MatchesAt (template : Tree) (path : Path) (value : String → Tree) (u : Tree) : Prop :=
  ∃ s, u.get? path = some s ∧ template.MatchesUnder value s

-- The parts below a filled position, one after the other.
theorem matchAll_spec {parts cs : List Tree} (index : Nat) (found : Findings) (hlen : cs.length = parts.length)
    (ih : ∀ part ∈ parts, ∀ (path : Path) (c : Tree) (found : Findings),
      whole.get? path = some c → found.Placed whole →
      ∃ out, matchAt (some p.grammar) path part c found = .ok out ∧
        Matched p whole (MatchesAt part path) part.occurrences c.Complete found out)
    (hplaced : found.Placed whole)
    (hc : ∀ (i : Nat) (c : Tree), cs[i]? = some c →
      whole.get? (path ++ [((index + i : Nat) : Int)]) = some c) :
    ∃ out, matchAll (some p.grammar) path index parts cs found = .ok out ∧
      Matched p whole (fun value u => ∀ (i : Nat) (part : Tree), parts[i]? = some part →
        MatchesAt part (path ++ [((index + i : Nat) : Int)]) value u)
        (Tree.occurrencesIn parts) (∀ c ∈ cs, c.Complete) found out := by
  induction parts generalizing cs index found with
  | nil => exact ⟨some found, by simp [matchAll], .idle fun u value _ i part hi => nomatch hi⟩
  | cons part parts ihp =>
      cases cs with
      | nil => cases hlen
      | cons c cs =>
          have hshift (i : Nat) : index + (i + 1) = index + 1 + i := by omega
          obtain ⟨out, hout, hfirst⟩ := ih part List.mem_cons_self (path ++ [(index : Int)]) c found
            (by simpa using hc 0 c (by simp)) hplaced
          cases out with
          | none =>
              refine ⟨none, by simp [matchAll, hout], .refuted fun u value hu hs hm hb => ?_⟩
              obtain ⟨f, hf, -⟩ := hfirst.necessary u value hu (by simpa using hs 0 part (by simp)) hm hb
              cases hf
          | some f =>
              obtain ⟨out, hout', hrest⟩ := ihp (index + 1) f
                (by simpa using hlen) (fun part hm => ih part (List.mem_cons_of_mem _ hm))
                ((hfirst.grows f rfl).placed hplaced) (fun i c hi => by
                  have := hc (i + 1) c (by simpa using hi)
                  rwa [hshift] at this)
              refine ⟨out, by simp [matchAll, hout, hout'],
                (hfirst.seq hrest).congr (fun u value _ => ?_) List.forall_mem_cons.mp⟩
              constructor
              · rintro ⟨h, hbelow⟩ i q hi
                cases i with
                | zero =>
                    obtain rfl : part = q := by simpa using hi
                    simpa using h
                | succ i =>
                    rw [hshift]
                    exact hbelow i q (by simpa using hi)
              · intro h
                refine ⟨by simpa using h 0 part (by simp), fun i q hi => ?_⟩
                rw [← hshift]
                exact h (i + 1) q (by simpa using hi)

-- The root is one of some rules, and the parts match the children.
def MatchesParts (allowed : Domain) (parts : List Tree) (path : Path) (value : String → Tree)
    (u : Tree) : Prop :=
  ∃ (n : Nat) (cs : List Tree), u.get? path = some (.node n cs) ∧ n ∈ allowed ∧
    parts.length = cs.length ∧ ∀ (i : Nat) (part c : Tree), parts[i]? = some part →
      cs[i]? = some c → part.MatchesUnder value c

theorem matchesAt_node (n : Nat) (parts : List Tree) (path : Path) :
    MatchesAt (.node n parts) path = MatchesParts {n} parts path := by
  refine funext fun value => funext fun u => propext ?_
  constructor
  · rintro ⟨s, hs, hm⟩
    cases hm with
    | node length below => exact ⟨n, _, hs, (Domain.mem_singleton n n).mpr rfl, length, below⟩
  · rintro ⟨m, cs, hs, hm, length, below⟩
    obtain rfl := (Domain.mem_singleton m n).mp hm
    exact ⟨_, hs, .node length below⟩

theorem matchesAt_choice (allowed : Domain) (parts : List Tree) (path : Path) :
    MatchesAt (.choice allowed parts) path = MatchesParts allowed parts path := by
  refine funext fun value => funext fun u => propext ?_
  constructor
  · rintro ⟨s, hs, hm⟩
    cases hm with
    | choice mem length below => exact ⟨_, _, hs, mem, length, below⟩
  · rintro ⟨n, cs, hs, hn, length, below⟩
    exact ⟨_, hs, .choice hn length below⟩

section Parts

variable {allowed rules kept : Domain} {parts cs : List Tree} {u : Tree} {value : String → Tree}
  {n : Nat} {category : String}

-- At a filled position of a fitting rule each part is left to the child in its place.
theorem matchesParts_iff_children (hu : p.Completes u whole) (ht : whole.get? path = some (.node n cs))
    (hn : n ∈ allowed) (hlen : cs.length = parts.length) :
    MatchesParts allowed parts path value u ↔ ∀ (i : Nat) (part : Tree), parts[i]? = some part →
      MatchesAt part (path ++ [(i : Int)]) value u := by
  constructor
  · rintro ⟨m, es, hes, -, hlen', hbelow⟩ i part hi
    have hlt : i < es.length := hlen' ▸ (List.getElem?_eq_some_iff.mp hi).1
    have he := List.getElem?_eq_getElem hlt
    exact ⟨es[i], Tree.get?_child hes he, hbelow i part _ hi he⟩
  · intro h
    obtain ⟨ds, hds, hl⟩ := hu.root ht
    refine ⟨n, ds, hds, hn, by omega, fun i part d hi hd => ?_⟩
    obtain ⟨s, hs, hmatch⟩ := h i part hi
    cases hs.symm.trans (Tree.get?_child hds hd)
    exact hmatch

-- A filled position of another rule never matches.
theorem not_matchesParts (hu : p.Completes u whole) (ht : whole.get? path = some (.node n cs))
    (h : ¬ (n ∈ allowed ∧ cs.length = parts.length)) : ¬ MatchesParts allowed parts path value u := by
  rintro ⟨m, es, hes, hm, hlen, -⟩
  obtain ⟨ds, hds, hl⟩ := hu.root ht
  rw [hes, Option.some.injEq, Tree.node.injEq] at hds
  obtain ⟨hmn, rfl⟩ := hds
  obtain rfl : m = n := by omega
  exact h ⟨hm, by omega⟩

theorem withArity_spec (arity : Nat) (hlive : ∀ r : Nat, r ∈ rules → p.grammar.Produces r category) :
    ∃ kept, withArity (some p.grammar) rules arity = .ok kept ∧
      ∀ n : Nat, n ∈ kept ↔ n ∈ rules ∧ ∃ r, p.grammar.rule? n = some r ∧ r.children.length = arity := by
  refine ⟨rules.filter fun r : Nat => (p.grammar.rule? r).any (·.arity = arity), ?_, fun n => ?_⟩
  · have hnone : rules.rules.find? (fun r : Nat => (p.grammar.rule? r).isNone) = none := by
      refine List.find?_eq_none.mpr fun r hr => ?_
      obtain ⟨rule, hrule, -⟩ := hlive r ((Domain.mem_rules r rules).mp hr)
      simp [hrule]
    simp only [withArity, hnone]
  · rw [Domain.mem_filter]
    refine and_congr_right fun _ => ?_
    cases p.grammar.rule? n with
    | none => simp
    | some r => simp [Rule.arity, eq_comm]

-- Where an open position is to match, it takes one of the rules that it may have, that are
-- allowed, and that have as many children as there are parts.
theorem MatchesParts.rootIn (hu : p.Completes u whole)
    (ht : whole.get? path = some (.hole category rules))
    (hmem : ∀ n : Nat, n ∈ kept ↔ n ∈ rules ∩ allowed ∧
      ∃ r, p.grammar.rule? n = some r ∧ r.children.length = parts.length)
    (h : MatchesParts allowed parts path value u) : u.RootIn path (.only kept) := by
  obtain ⟨n, cs, hn, ha, hlen, -⟩ := h
  obtain ⟨r, hr, -, -, hl, -⟩ := Grammar.wellFormed_node_iff.mp (hu.wellFormed.get? hn)
  obtain ⟨m, es, hes, hm⟩ := hu.rootIn ht
  rw [hn, Option.some.injEq, Tree.node.injEq] at hes
  obtain rfl : n = m := by omega
  exact ⟨n, cs, hn, (hmem n).mpr ⟨(Domain.mem_inter n rules allowed).mpr ⟨hm, ha⟩, r, hr, by omega⟩⟩

-- That is all there is to it when there are no parts.
theorem matchesParts_of_rootIn (hu : p.Completes u whole)
    (hmem : ∀ n : Nat, n ∈ kept ↔ n ∈ rules ∩ allowed ∧
      ∃ r, p.grammar.rule? n = some r ∧ r.children.length = 0)
    (h : u.RootIn path (.only kept)) : MatchesParts allowed [] path value u := by
  obtain ⟨n, cs, hn, hk⟩ := h
  obtain ⟨hni, r, hr, hl⟩ := (hmem n).mp hk
  obtain ⟨q, hq, -, -, hlen, -⟩ := Grammar.wellFormed_node_iff.mp (hu.wellFormed.get? hn)
  obtain rfl : r = q := Option.some.inj (hr.symm.trans hq)
  obtain rfl : cs = [] := List.length_eq_zero_iff.mp (by omega)
  exact ⟨n, [], hn, ((Domain.mem_inter n rules allowed).mp hni).2, rfl, fun i part c hi => nomatch hi⟩

-- An open position under a part of the template whose root is one of some rules.
theorem matchOpen_spec (found : Findings) (allowed : Domain) (parts : List Tree)
    (hw : p.grammar.WellFormed none whole) (ht : whole.get? path = some (.hole category rules))
    {decided : Prop} (hd : ¬ decided) :
    ∃ out, matchOpen (some p.grammar) allowed parts.length path rules found = .ok out ∧
      Matched p whole (MatchesParts allowed parts path) (Tree.occurrencesIn parts) decided found
        out := by
  have hlive := (Grammar.wellFormed_hole_iff.mp (hw.get? ht)).2.2
  obtain ⟨kept, hkept, hmem⟩ := withArity_spec parts.length (p := p)
    fun (r : Nat) (hr : r ∈ rules ∩ allowed) => hlive r ((Domain.mem_inter r rules allowed).mp hr).1
  have hroot (u : Tree) (value : String → Tree) (hu : p.Completes u whole)
      (h : MatchesParts allowed parts path value u) : u.RootIn path (.only kept) := h.rootIn hu ht hmem
  unfold matchOpen
  rw [hkept, Except.ok_bind]
  by_cases hempty : kept.isEmpty = true
  · refine ⟨none, by simp [hempty], .refuted fun u value hu h _ _ => ?_⟩
    obtain ⟨n, _, _, hk⟩ := hroot u value hu h
    exact (Domain.isEmpty_iff kept).mp hempty n hk
  · cases parts with
    | nil =>
        by_cases hall : (rules \ kept).isEmpty = true
        · refine ⟨some found, by simp [hempty, hall], .idle fun u value hu => ?_⟩
          obtain ⟨m, es, hes, hm⟩ := hu.rootIn ht
          exact matchesParts_of_rootIn hu hmem
            ⟨m, es, hes, (Domain.isEmpty_sdiff rules kept).mp hall m hm⟩
        · exact ⟨some (found.require path kept true), by simp [hempty, hall], .require ht hroot
            (fun _ => ⟨rfl, fun u value hu h => matchesParts_of_rootIn hu hmem h⟩) hd⟩
    | cons part parts =>
        exact ⟨some (found.require path kept false), by simp [hempty], .require ht hroot nofun hd⟩

-- A part of the template with parts of its own.
theorem matchParts_spec (hw : p.grammar.WellFormed none whole) (allowed : Domain)
    {parts : List Tree} {t : Tree}
    (ih : ∀ part ∈ parts, ∀ (path : Path) (c : Tree) (found : Findings),
      whole.get? path = some c → found.Placed whole →
      ∃ out, matchAt (some p.grammar) path part c found = .ok out ∧
        Matched p whole (MatchesAt part path) part.occurrences c.Complete found out)
    (ht : whole.get? path = some t) (hplaced : found.Placed whole) :
    ∃ out, (do match ← matchRoot (some p.grammar) allowed parts.length path t found with
        | some (found, cs) => matchAll (some p.grammar) path 0 parts cs found
        | none => return none) = .ok out ∧
      Matched p whole (MatchesParts allowed parts path) (Tree.occurrencesIn parts) t.Complete
        found out := by
  cases (hw.get? ht).concrete with
  | node n cs =>
      rw [matchRoot, Domain.has_natCast, Except.ok_bind]
      by_cases hok : n ∈ allowed ∧ cs.length = parts.length
      · obtain ⟨out, hout, hall⟩ := matchAll_spec 0 found hok.2 ih hplaced
          (fun i c hi => by simpa using Tree.get?_child ht hi)
        simp only [Nat.zero_add] at hall
        refine ⟨out, by simpa [hok] using hout, hall.congr (fun u value hu => ?_) fun hc => ?_⟩
        · exact (matchesParts_iff_children hu ht hok.1 hok.2).symm
        · obtain ⟨_, _, he, hcs⟩ := Tree.complete_iff.mp hc
          cases he
          exact hcs
      · refine ⟨none, ?_, .refuted fun u value hu hs => absurd hs (not_matchesParts hu ht hok)⟩
        simp only [decide_eq_true_eq, if_neg hok]
        rfl
  | hole category rules =>
      have hopen : ¬ (Tree.hole category rules).Complete := by rintro ⟨⟩
      obtain ⟨out, hout, h⟩ := matchOpen_spec found allowed parts hw ht hopen
      rw [matchRoot]
      · -- Nothing is left below an open position, so the parts are not gone through.
        have hall (f : Findings) : matchAll (some p.grammar) path 0 parts [] f = .ok (some f) := by
          cases parts <;> rfl
        simp only [Tree.domain?, hout]
        refine ⟨out, ?_, h⟩
        cases out <;> simp [hall]
      · intro _ _ h
        cases h

end Parts

-- A variable without a value takes the subtree.
theorem matchNew_spec {name : String} {t : Tree} (hfree : found.binding? name = none)
    (ht : whole.get? path = some t) :
    Matched p whole (MatchesAt (.var name) path) [name] t.Complete found
      (some (found.bind name path t)) := by
  have hself := Findings.binding?_bind_self path t hfree
  refine ⟨fun u value hu hs hm hb => ?_, ?_, ?_, ?_, ?_⟩
  · refine ⟨_, rfl, hm, fun other b hother => ?_⟩
    obtain ⟨s, hs, hmatch⟩ := hs
    cases hmatch with
    | var heq =>
        rw [Findings.binding?, Findings.bind, List.find?_append] at hother
        rcases Option.or_eq_some_iff.mp hother with hother | ⟨-, hother⟩
        · exact hb other b hother
        · rw [List.find?_singleton] at hother
          split at hother
          · rename_i hname
            cases hother
            obtain rfl : name = other := by simpa using hname
            rw [hs, heq]
          · cases hother
  · rintro f ⟨⟩ - u value - - hb
    exact ⟨_, hb name _ hself, .var rfl⟩
  · rintro f ⟨⟩
    exact Findings.grows_bind ht
  · rintro f ⟨⟩ - other hn
    obtain rfl := List.mem_singleton.mp hn
    exact ⟨_, hself⟩
  · rintro hc hb f ⟨⟩
    refine ⟨rfl, rfl, fun b hm => ?_⟩
    rcases List.mem_append.mp hm with hm | hm
    · exact hb b hm
    · obtain rfl := List.mem_singleton.mp hm
      exact hc

-- One with a value stands for equal subtrees.
theorem matchBound_spec (hplaced : found.Placed whole) {name : String} {bound : Binding} {t : Tree}
    (hbound : found.binding? name = some bound) {out : Option Findings}
    (h : Compared p whole bound.path path (bound.tree.Complete ∧ t.Complete) found out) :
    Matched p whole (MatchesAt (.var name) path) [name] t.Complete found out := by
  have hmem : bound ∈ found.bindings := List.mem_of_find?_eq_some hbound
  refine ⟨fun u value hu hs hm hb => ?_, ?_, h.grows, ?_, ?_⟩
  · obtain ⟨s, hs, hmatch⟩ := hs
    cases hmatch with
    | var heq =>
        obtain ⟨f, hf, hmet⟩ := (h.met u hu).mpr ⟨hm, by rw [hb name bound hbound, hs, heq]⟩
        exact ⟨f, hf, hmet, (Findings.binds_congr (h.bindings f hf) value u).mpr hb⟩
  · intro f hf _ u value hu hm hb
    have heq := ((h.met u hu).mp ⟨f, hf, hm⟩).2
    have hvalue := (Findings.binds_congr (h.bindings f hf) value u).mp hb name bound hbound
    exact ⟨value name, heq ▸ hvalue, .var rfl⟩
  · intro f hf _ other hn
    obtain rfl := List.mem_singleton.mp hn
    exact ⟨bound, (h.grows f hf).bound _ _ hbound⟩
  · intro hc hb f hf
    obtain rfl := h.decided ⟨hb bound hmem, hc⟩ f hf
    exact ⟨rfl, rfl, hb⟩

-- A template can always be matched against a subtree of a well-formed tree.
theorem matchAt_spec (hw : p.grammar.WellFormed none whole) {template t : Tree}
    (hp : template.IsPattern) (ht : whole.get? path = some t)
    (hplaced : found.Placed whole) :
    ∃ out, matchAt (some p.grammar) path template t found = .ok out ∧
      Matched p whole (MatchesAt template path) template.occurrences t.Complete found out := by
  induction template using Tree.induction generalizing t path found with
  | var name =>
      rw [matchAt]
      cases hbound : found.binding? name with
      | none => exact ⟨_, rfl, matchNew_spec hbound ht⟩
      | some bound =>
          obtain ⟨out, hout, h⟩ := compare_spec found hw
            (hplaced.bindings bound (List.mem_of_find?_eq_some hbound)) ht
          exact ⟨out, hout, matchBound_spec hplaced hbound h⟩
  | node r parts ih =>
      cases hp with
      | node nonneg below =>
          obtain ⟨n, rfl⟩ := Int.eq_ofNat_of_zero_le nonneg
          obtain ⟨out, hout, h⟩ := matchParts_spec hw {n}
            (fun part hm path c found hc hf => ih part hm (below part hm) hc hf) ht hplaced
          refine ⟨out, ?_, ?_⟩
          · rw [matchAt, Domain.single_natCast, Except.ok_bind]
            exact hout
          · rw [matchesAt_node, Tree.occurrences]
            exact h
  | choice allowed parts ih =>
      cases hp with
      | choice below =>
          obtain ⟨out, hout, h⟩ := matchParts_spec hw allowed
            (fun part hm path c found hc hf => ih part hm (below part hm) hc hf) ht hplaced
          refine ⟨out, ?_, ?_⟩
          · rw [matchAt]
            exact hout
          · rw [matchesAt_choice, Tree.occurrences]
            exact h
  | hole => cases hp

-- There are values for all variables that are bound.
theorem exists_binds {u : Tree} (hu : p.Completes u whole) (hplaced : found.Placed whole) :
    ∃ value, found.Binds value u := by
  refine ⟨fun name => ((found.binding? name).bind (u.get? ·.path)).getD (.var name), ?_⟩
  intro name b hb
  obtain ⟨s, hs, -⟩ := hu.get? (hplaced.bindings b (List.mem_of_find?_eq_some hb))
  simp [hb, hs]

-- What a verdict says about the completions of a tree.
def Judged (p : Problem) (whole : Tree) (path : Path) (template : Tree) (decided : Prop) :
    Verdict → Prop
  | .refuted => ∀ u value, p.Completes u whole → ¬ MatchesAt template path value u
  | .matched bindings =>
      (∀ u value, p.Completes u whole →
        (MatchesAt template path value u ↔ Findings.Binds ⟨[], [], bindings⟩ value u)) ∧
      Findings.Placed whole ⟨[], [], bindings⟩ ∧
      (∀ name ∈ template.occurrences, ∃ b, Findings.binding? ⟨[], [], bindings⟩ name = some b) ∧
      (decided → ∀ b ∈ bindings, b.tree.Complete)
  | .undecided found =>
      (∀ u value, p.Completes u whole → MatchesAt template path value u → found.Met u) ∧
      (found.Settled → ∀ u, p.Completes u whole → found.Met u →
        ∃ value, MatchesAt template path value u) ∧
      found.Placed whole ∧ ¬ decided

section Judged

variable {template : Tree} {decided : Prop} {f : Findings}

theorem judged_refuted
    (h : Matched p whole (MatchesAt template path) template.occurrences decided Findings.none none) :
    Judged p whole path template decided .refuted := by
  intro u value hu hm
  obtain ⟨f, hf, -⟩ := h.necessary u value hu hm (Findings.met_none u) nofun
  cases hf

-- Nothing was found to be open.
theorem judged_matched
    (h : Matched p whole (MatchesAt template path) template.occurrences decided Findings.none (some f))
    (hr : f.requirements = []) (he : f.equalities = []) :
    Judged p whole path template decided (.matched f.bindings) := by
  have hf : f = ⟨[], [], f.bindings⟩ := by rw [← hr, ← he]
  have hsettled : f.Settled := by
    rw [Findings.Settled, hr]
    nofun
  have hmet (u : Tree) : f.Met u := by
    rw [hf]
    exact ⟨nofun, nofun⟩
  refine ⟨fun u value hu => ?_, hf ▸ (h.grows f rfl).placed ⟨nofun, nofun, nofun⟩, fun name hn => ?_,
    fun hc => (h.decided hc nofun f rfl).2.2⟩
  · rw [← hf]
    constructor
    · intro hm
      obtain ⟨_, ⟨⟩, -, hb⟩ := h.necessary u value hu hm (Findings.met_none u) nofun
      exact hb
    · exact h.sufficient f rfl hsettled u value hu (hmet u)
  · rw [← hf]
    exact h.bound f rfl hsettled name hn

-- Something was.
theorem judged_undecided
    (h : Matched p whole (MatchesAt template path) template.occurrences decided Findings.none (some f))
    (hopen : ¬ (f.requirements = [] ∧ f.equalities = [])) :
    Judged p whole path template decided (.undecided f) := by
  have hplaced := (h.grows f rfl).placed ⟨nofun, nofun, nofun⟩
  refine ⟨fun u value hu hm => ?_, fun hsettled u hu hm => ?_, hplaced, fun hc => ?_⟩
  · obtain ⟨_, ⟨⟩, hmet, -⟩ := h.necessary u value hu hm (Findings.met_none u) nofun
    exact hmet
  · obtain ⟨value, hb⟩ := exists_binds hu hplaced
    exact ⟨value, h.sufficient f rfl hsettled u value hu hm hb⟩
  · obtain ⟨hr, he, -⟩ := h.decided hc nofun f rfl
    exact hopen ⟨hr, he⟩

-- A tree that matches does so whatever becomes of it.
theorem Judged.exists_matchesAt {bindings : List Binding} {u : Tree}
    (h : Judged p whole path template decided (.matched bindings)) (hu : p.Completes u whole) :
    ∃ value, MatchesAt template path value u := by
  obtain ⟨hiff, hplaced, -⟩ := h
  obtain ⟨value, hb⟩ := exists_binds hu hplaced
  exact ⟨value, (hiff u value hu).mpr hb⟩

-- A sole requirement decides the match.
theorem Judged.matchesAt_iff_rootIn {r : Requirement} {u : Tree}
    (h : Judged p whole path template decided (.undecided f))
    (hr : (Verdict.undecided f).soleRequirement? = some r) (hu : p.Completes u whole) :
    (∃ value, MatchesAt template path value u) ↔ u.RootIn r.path (.only r.rules) := by
  obtain ⟨hneeded, henough, -⟩ := h
  obtain ⟨hsole, hfree, hsettled⟩ := Verdict.soleRequirement?_eq_some hr
  have hmet : f.Met u ↔ u.RootIn r.path (.only r.rules) := by simp [Findings.Met, hsole, hfree]
  rw [← hmet]
  constructor
  · rintro ⟨value, hm⟩
    exact hneeded u value hu hm
  · exact henough (by simp [Findings.Settled, hsole, hsettled]) u hu

end Judged

theorem match?_spec (hw : p.grammar.WellFormed none whole) {template t : Tree}
    (hp : template.IsPattern) (ht : whole.get? path = some t) :
    ∃ verdict, template.match? t (some p.grammar) path = .ok verdict ∧
      Judged p whole path template t.Complete verdict := by
  have hplaced : Findings.none.Placed whole := ⟨nofun, nofun, nofun⟩
  obtain ⟨out, hout, h⟩ := matchAt_spec hw hp ht hplaced
  rw [Tree.match?, hout, Except.ok_bind]
  cases out with
  | none => exact ⟨.refuted, rfl, judged_refuted h⟩
  | some f =>
      refine ⟨f.verdict, rfl, ?_⟩
      rw [Findings.verdict]
      by_cases hopen : f.requirements = [] ∧ f.equalities = []
      · rw [if_pos (by simp [hopen])]
        exact judged_matched h hopen.1 hopen.2
      · rw [if_neg (by simpa using hopen)]
        exact judged_undecided h hopen

end Pattern

end TreeSearch
