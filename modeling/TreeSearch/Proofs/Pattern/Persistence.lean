import TreeSearch.Proofs.Pattern.Missing
import TreeSearch.Proofs.Pattern.Outcome

namespace TreeSearch

variable {p : Problem}

namespace Tree

variable {s t : Tree}

section Fits

variable {template : Tree}

theorem Misfit.refines (h : Misfit p template t) (hs : s.Refines t)
    (hw : p.grammar.WellFormed none s) : Misfit p template s := by
  induction h generalizing s with
  | rule part h =>
      obtain ⟨ds, rfl, hlen, -⟩ := refines_node_iff.mp hs
      exact .rule part (hlen ▸ h)
  | hole part h =>
      rcases refines_hole_iff.mp hs with ⟨e, rfl, sub⟩ | ⟨n, cs, rfl, hn⟩
      · exact .hole part fun n hn => h n (sub n hn)
      · obtain ⟨r, hr, -, -, hlen, -⟩ := Grammar.wellFormed_node_iff.mp hw
        exact .rule part fun ⟨ha, hc⟩ => h n hn ha r hr (hlen.symm.trans hc)
  | child part hq hc _ ih =>
      obtain ⟨ds, rfl, hlen, hds⟩ := refines_node_iff.mp hs
      obtain ⟨d, hd⟩ := exists_getElem?_of_length hlen.symm hc
      obtain ⟨_, hwd⟩ := hw.child hd
      exact .child part hq hd (ih (hds _ _ _ hd hc) hwd.anyCategory)

theorem Fits.refines (h : Fits p template t) (hs : s.Refines t) (hw : p.grammar.WellFormed none s)
    (hv : s.Viable) : Fits p template s := by
  induction h generalizing s with
  | var => exact .var
  | node part mem length below ih =>
      obtain ⟨ds, rfl, hlen, hds⟩ := refines_node_iff.mp hs
      refine .node part mem (hlen.trans length) fun i q d hq hd => ?_
      obtain ⟨c, hc⟩ := exists_getElem?_of_length hlen hd
      obtain ⟨_, hwd⟩ := hw.child hd
      exact ih i q c hq hc (hds i d c hd hc) hwd.anyCategory (hv.child hd)
  | hole part live all =>
      rcases refines_hole_iff.mp hs with ⟨e, rfl, sub⟩ | ⟨n, cs, rfl, hn⟩
      · exact .hole part hv.exists_mem fun n hn => all n (sub n hn)
      · obtain ⟨ha, rule, hr, hterminal⟩ := all n hn
        obtain ⟨rule', hr', -, -, hlen, -⟩ := Grammar.wellFormed_node_iff.mp hw
        obtain rfl := Option.some.inj (hr.symm.trans hr')
        exact .node part ha (by simpa [hterminal] using hlen) fun i q c hq => by simp at hq

theorem Fits.not_misfit (h : Fits p template t) : ¬ Misfit p template t := by
  induction h with
  | var =>
      intro h
      cases h with
      | rule part => cases part
      | hole part => cases part
      | child part => cases part
  | node part mem length below ih =>
      rw [Pattern.misfit_node_iff part]
      rintro (h | ⟨i, q, c, hq, hc, h⟩)
      · exact h ⟨mem, length⟩
      · exact ih i q c hq hc h
  | hole part live all =>
      intro h
      cases h with
      | hole part' h =>
          obtain ⟨rfl, rfl⟩ := part.unique part'
          obtain ⟨n, hn⟩ := live
          obtain ⟨ha, r, hr, hterminal⟩ := all n hn
          exact h n hn ha r hr (by simp [hterminal])

-- Where the template fits, all its variables stand for subtrees.
theorem Fits.exists_get? (h : Fits p template t) {x : String × Path} (hx : x ∈ template.variablesAt) :
    ∃ c, t.get? x.2 = some c := by
  induction h generalizing x with
  | @var name t =>
      rw [Tree.variablesAt, List.mem_singleton] at hx
      exact ⟨t, by rw [hx, get?_nil]⟩
  | node part mem length below ih =>
      rw [part.variablesAt] at hx
      obtain ⟨i, q, path, hq, hx, he⟩ := mem_variablesIn.mp hx
      obtain ⟨c, hc⟩ := exists_getElem?_of_length length.symm hq
      obtain ⟨d, hd⟩ := ih i q c hq hc hx
      refine ⟨d, ?_⟩
      rw [he, Nat.zero_add, get?_cons, child?_node, hc]
      exact hd
  | hole part live all =>
      rw [part.variablesAt] at hx
      cases hx

end Fits

-- Where the template fits, the first of the positions is the first of all.
theorem Repeats.refines {first second : Path} (h : template.Repeats s first second)
    (hf : Fits p template t) (hs : s.Refines t) : template.Repeats t first second := by
  obtain ⟨name, before, between, after, he, hbefore⟩ := h
  refine ⟨name, before, between, after, he, fun x hx hname => ?_⟩
  obtain ⟨c, hc⟩ := hf.exists_get? (x := x) (by rw [he]; exact List.mem_append_left _ hx)
  obtain ⟨d, hd, -⟩ := hs.get? hc
  cases hd.symm.trans (hbefore x hx hname)

end Tree

namespace Pattern

open TreeSearch.Tree Binding

variable {template t : Tree}

-- When a match is refuted, and when it is one already.
theorem match?_outcome (hp : template.IsPattern) (hw : p.grammar.WellFormed none t) :
    ∃ verdict, template.match? t (some p.grammar) [] = .ok verdict ∧
      (verdict = .refuted ↔ Misfit p template t ∨ ∃ first second c d, template.Repeats t first second ∧
        t.get? first = some c ∧ t.get? second = some d ∧ Clash c d) ∧
      ((∃ bindings, verdict = .matched bindings) ↔ Fits p template t ∧ ∀ first second c d,
        template.Repeats t first second → t.get? first = some c → t.get? second = some d →
          Alike p c d) ∧
      ∀ bindings, verdict = .matched bindings →
        bindings = firsts (visible t [] template.variablesAt) := by
  obtain ⟨out, hout, h⟩ := matchAt_outcome [] [] Findings.none hw hp (get?_nil t)
    (by simp) rfl
  have hrefuted := h.refuted
  have hidle := h.idle
  rw [against_visible_iff] at hrefuted
  have hagree : ¬ Against (fun s t => ¬ Alike p s t) [] (visible t [] template.variablesAt) ↔
      ∀ first second c d, template.Repeats t first second → t.get? first = some c →
        t.get? second = some d → Alike p c d := by
    rw [against_visible_iff]
    constructor
    · intro h first second c d hr hc hd
      by_contra hno
      exact h ⟨first, second, c, d, hr, hc, hd, hno⟩
    · rintro h ⟨first, second, c, d, hr, hc, hd, hno⟩
      exact hno (h first second c d hr hc hd)
  rw [hagree] at hidle
  rw [Tree.match?, hout, Except.ok_bind]
  cases out with
  | none =>
      refine ⟨.refuted, rfl, ⟨fun _ => hrefuted.mp rfl, fun _ => rfl⟩, ⟨?_, ?_⟩, by simp⟩
      · rintro ⟨bindings, ⟨⟩⟩
      · rintro ⟨hfits, hall⟩
        rcases hrefuted.mp rfl with hmisfit | ⟨first, second, c, d, hr, hc, hd, hclash⟩
        · exact absurd hmisfit hfits.not_misfit
        · exact absurd hclash (hall first second c d hr hc hd).not_clash
  | some f =>
      have hverdict : f.verdict = if f.count = 0 then .matched f.bindings else .undecided f := by
        simp [Findings.verdict, Findings.count]
      refine ⟨f.verdict, rfl, ⟨?_, fun h => absurd (hrefuted.mpr h) (by simp)⟩, ?_, ?_⟩
      · rw [hverdict]
        split <;> simp
      · rw [← hidle f rfl, hverdict]
        show _ ↔ f.count = 0
        split <;> simp_all
      · rw [hverdict]
        intro bindings hb
        split at hb
        · cases hb
          exact h.bindings f rfl
        · cases hb

end Pattern

namespace Verdict

variable {template t s : Tree} {base : Path}

-- What a verdict says about the completions of a tree that stands at a path.
def Sound (p : Problem) (template t : Tree) (base : Path) : Verdict → Prop
  | .refuted => ∀ u, p.Completes u t → ¬ template.Matches u
  | .matched bindings =>
      (∀ u, p.Completes u t → template.Matches u) ∧ bindings.map (·.name) = template.variableNames ∧
        ∀ b ∈ bindings, ∃ path, template.firstAt? b.name = some path ∧ b.path = base ++ path ∧
          t.get? path = some b.tree ∧ ∀ u value, p.Completes u t → template.MatchesUnder value u →
            u.get? path = some (value b.name)
  | .undecided _ => ¬ t.Complete

-- What it says about a finer tree. A variable that occurs three times may be in the way of a
-- refutation while it is not seen where it occurs first.
def Lasts (p : Problem) (template t : Tree) (base : Path) (s : Tree) : Verdict → Prop
  | .refuted =>
      (∀ bindings, template.match? s (some p.grammar) base ≠ .ok (.matched bindings)) ∧
        (∀ u, p.Completes u s → ¬ template.Matches u) ∧
        ((∀ name, 3 ≤ template.occurrences.count name →
          ∃ path c, template.firstAt? name = some path ∧ t.get? path = some c) →
            template.match? s (some p.grammar) base = .ok .refuted)
  | .matched bindings => s.Viable →
      ∃ again, template.match? s (some p.grammar) base = .ok (.matched again) ∧
        again.map (fun b => (b.name, b.path)) = bindings.map fun b => (b.name, b.path)
  | .undecided _ => True

end Verdict

namespace Tree

open Pattern Binding

variable {template t s : Tree} {base : Path}

theorem match?_base {verdict : Verdict} (h : template.match? t (some p.grammar) [] = .ok verdict)
    (base : Path) : template.match? t (some p.grammar) base = .ok (verdict.under base) := by
  rw [match?_under, h]
  rfl

-- The names and the paths of all bindings follow from the template.
theorem keys_eq {bindings : List Binding} (hnames : bindings.map (·.name) = template.variableNames)
    (hpaths : ∀ b ∈ bindings, template.firstAt? b.name = some b.path) :
    bindings.map (fun b => (b.name, b.path)) =
      template.variableNames.map fun name => (name, (template.firstAt? name).getD []) := by
  rw [← hnames, List.map_map]
  refine List.map_congr_left fun b hb => ?_
  simp [hpaths b hb]

theorem matched_spec (hp : template.IsPattern) (hw : p.grammar.WellFormed none t)
    {bindings : List Binding} (h : template.match? t (some p.grammar) [] = .ok (.matched bindings)) :
    bindings.map (·.name) = template.variableNames ∧ ∀ b ∈ bindings,
      template.firstAt? b.name = some b.path ∧ t.get? b.path = some b.tree ∧
        bindings.find? (·.name = b.name) = some b := by
  obtain ⟨verdict, hverdict, -, hmatched, hbindings⟩ := match?_outcome hp hw
  obtain rfl := Except.ok.inj (hverdict.symm.trans h)
  obtain ⟨hfits, -⟩ := hmatched.mp ⟨bindings, rfl⟩
  obtain rfl := hbindings bindings rfl
  have hseen (x : String × Path) (hx : x ∈ template.variablesAt) := hfits.exists_get? hx
  refine ⟨?_, fun b hb => ?_⟩
  · rw [names_firsts, names_visible hseen, names_variablesAt]
    rfl
  · have hfind := find?_of_mem_firsts hb
    obtain ⟨hfirst, hget⟩ := firstAt?_of_find?_visible hseen hfind
    refine ⟨hfirst, hget, ?_⟩
    rw [find?_firsts, hfind]

-- A match stays a match with the same bindings.
theorem matched_refines (hp : template.IsPattern) (hw : p.grammar.WellFormed none t)
    (hws : p.grammar.WellFormed none s) (hs : s.Refines t) (hv : s.Viable) {bindings : List Binding}
    (h : template.match? t (some p.grammar) [] = .ok (.matched bindings)) :
    ∃ again, template.match? s (some p.grammar) [] = .ok (.matched again) ∧
      again.map (fun b => (b.name, b.path)) = bindings.map fun b => (b.name, b.path) := by
  obtain ⟨verdict, hverdict, -, hmatched, -⟩ := match?_outcome hp hw
  obtain rfl := Except.ok.inj (hverdict.symm.trans h)
  obtain ⟨hfits, halike⟩ := hmatched.mp ⟨bindings, rfl⟩
  obtain ⟨verdict', hverdict', -, hmatched', -⟩ := match?_outcome hp hws
  have hall (first second : Path) (c d : Tree) (hr : template.Repeats s first second)
      (hc : s.get? first = some c) (hd : s.get? second = some d) : Alike p c d := by
    obtain ⟨name, before, between, after, he, -⟩ := id hr
    obtain ⟨c', hc'⟩ := hfits.exists_get? (x := (name, first)) (by simp [he])
    obtain ⟨d', hd'⟩ := hfits.exists_get? (x := (name, second)) (by simp [he])
    obtain ⟨_, hcs, hcr⟩ := hs.get? hc'
    obtain ⟨_, hds, hdr⟩ := hs.get? hd'
    obtain rfl := Option.some.inj (hcs.symm.trans hc)
    obtain rfl := Option.some.inj (hds.symm.trans hd)
    have hbefore := halike first second c' d' (hr.refines hfits hs) hc' hd'
    exact hbefore.refines hcr hdr (hws.get? hc) (hws.get? hd) (hv.get? hc) (hv.get? hd)
  obtain ⟨again, rfl⟩ := hmatched'.mpr ⟨hfits.refines hs hws hv, hall⟩
  refine ⟨again, hverdict', ?_⟩
  obtain ⟨hnames, hpaths⟩ := matched_spec hp hw h
  obtain ⟨hnames', hpaths'⟩ := matched_spec hp hws hverdict'
  rw [keys_eq hnames fun b hb => (hpaths b hb).1, keys_eq hnames' fun b hb => (hpaths' b hb).1]

-- A refuted match does not become one. It stays refuted unless a variable is first seen where
-- it was not before, while it was seen twice elsewhere.
theorem refuted_refines (hp : template.IsPattern) (hw : p.grammar.WellFormed none t)
    (hws : p.grammar.WellFormed none s) (hs : s.Refines t)
    (h : template.match? t (some p.grammar) [] = .ok .refuted) :
    ∃ verdict, template.match? s (some p.grammar) [] = .ok verdict ∧
      (∀ bindings, verdict ≠ .matched bindings) ∧
      ((∀ name, 3 ≤ template.occurrences.count name →
        ∃ path c, template.firstAt? name = some path ∧ t.get? path = some c) → verdict = .refuted) := by
  obtain ⟨verdict, hverdict, hrefuted, -, -⟩ := match?_outcome hp hw
  obtain rfl := Except.ok.inj (hverdict.symm.trans h)
  obtain ⟨verdict', hverdict', hrefuted', hmatched', -⟩ := match?_outcome hp hws
  refine ⟨verdict', hverdict', ?_⟩
  rcases hrefuted.mp rfl with hmisfit | ⟨first, second, c, d, hr, hc, hd, hclash⟩
  · have := hrefuted'.mpr (Or.inl (hmisfit.refines hs hws))
    subst this
    exact ⟨nofun, fun _ => rfl⟩
  · obtain ⟨c', hc', hcr⟩ := hs.get? hc
    obtain ⟨d', hd', hdr⟩ := hs.get? hd
    have hclash' : Clash c' d' := hclash.refines hcr hdr
    rcases hr.of_refines s with hsame | ⟨earlier, name, hmem, hfirst, hsecond, hat, hnone, hcount⟩
    · have := hrefuted'.mpr (Or.inr ⟨first, second, c', d', hsame, hc', hd', hclash'⟩)
      subst this
      exact ⟨nofun, fun _ => rfl⟩
    · refine ⟨fun bindings hb => ?_, fun hseen => ?_⟩
      · obtain ⟨hfits, halike⟩ := hmatched'.mp ⟨bindings, hb⟩
        obtain ⟨e, he⟩ := hfits.exists_get? hmem
        exact (halike earlier first e c' hfirst he hc').not_clash_of_alike
          (halike earlier second e d' hsecond he hd') hclash'
      · obtain ⟨path, e, hpath, he⟩ := hseen name hcount
        obtain rfl := Option.some.inj (hat.symm.trans hpath)
        cases hnone.symm.trans he

theorem match?_sound (hp : template.IsPattern) (hw : p.grammar.WellFormed none t) {verdict : Verdict}
    (h : template.match? t (some p.grammar) [] = .ok verdict)
    (hjudged : Pattern.Judged p t [] template t.Complete verdict) :
    (verdict.under base).Sound p template t base := by
  cases verdict with
  | refuted =>
      intro u hu hm
      obtain ⟨value, hvalue⟩ := matches_iff.mp hm
      exact hjudged u value hu hvalue
  | matched bindings =>
      obtain ⟨hnames, hpaths⟩ := matched_spec hp hw h
      refine ⟨fun u hu => matches_iff.mpr (hjudged.exists_matchesAt hu), ?_, fun b hb => ?_⟩
      · rw [← hnames, List.map_map]
        rfl
      · obtain ⟨c, hc, rfl⟩ := List.mem_map.mp hb
        obtain ⟨hfirst, hget, hfind⟩ := hpaths c hc
        refine ⟨c.path, hfirst, rfl, hget, fun u value hu hm => ?_⟩
        exact (hjudged.1 u value hu).mp ⟨u, get?_nil u, hm⟩ c.name c hfind
  | undecided found => exact hjudged.2.2.2

theorem match?_lasts (hp : template.IsPattern) (hw : p.grammar.WellFormed none t)
    (hws : p.grammar.WellFormed none s) (hs : s.Refines t) {verdict : Verdict}
    (h : template.match? t (some p.grammar) [] = .ok verdict)
    (hjudged : Pattern.Judged p t [] template t.Complete verdict) :
    (verdict.under base).Lasts p template t base s := by
  cases verdict with
  | refuted =>
      have hsound : (Verdict.refuted.under base).Sound p template t base := match?_sound hp hw h hjudged
      obtain ⟨verdict', hverdict', hno, hstays⟩ := refuted_refines hp hw hws hs h
      have hbase := match?_base hverdict' base
      refine ⟨fun bindings hb => ?_, fun u hu => hsound u (hu.of_refines hs), fun hseen => ?_⟩
      · have hsame := Except.ok.inj (hbase.symm.trans hb)
        cases verdict' with
        | matched inner => exact hno inner rfl
        | refuted => cases hsame
        | undecided => cases hsame
      · rw [hbase, hstays hseen]
        rfl
  | matched bindings =>
      intro hv
      obtain ⟨again, hagain, hkeys⟩ := matched_refines hp hw hws hs hv h
      refine ⟨_, match?_base hagain base, ?_⟩
      have hmap (l : List Binding) : (l.map (·.under base)).map (fun b => (b.name, b.path)) =
          (l.map fun b => (b.name, b.path)).map fun x => (x.1, base ++ x.2) := by
        rw [List.map_map, List.map_map]
        rfl
      rw [hmap, hmap, hkeys]
  | undecided found => trivial

-- Matching always gives a verdict. It is right about all completions, decides complete trees,
-- and lasts.
theorem match?_faithful (hp : template.isTemplate p.grammar = true) (hw : p.grammar.WellFormed none t)
    (base : Path) : ∃ verdict, template.match? t (some p.grammar) base = .ok verdict ∧
      verdict.Sound p template t base ∧
      (t.Complete → ((∃ bindings, verdict = .matched bindings) ↔ template.Matches t) ∧
        ∀ found, verdict ≠ .undecided found) ∧
      ∀ s, p.grammar.WellFormed none s → s.Refines t → verdict.Lasts p template t base s := by
  have hpattern := isPattern_of_isTemplate _ hp
  obtain ⟨verdict, hbase, hverdict, hjudged⟩ := match?_judged hp hw base
  have hsound (base : Path) : (verdict.under base).Sound p template t base :=
    match?_sound hpattern hw hverdict hjudged
  refine ⟨verdict.under base, hbase, hsound base, fun hc => ?_, fun s hws hs => ?_⟩
  · have hself : p.Completes t t := ⟨hw, hc, .refl t⟩
    cases verdict with
    | refuted => exact ⟨⟨nofun, fun hm => absurd hm (hsound base t hself)⟩, nofun⟩
    | matched bindings => exact ⟨⟨fun _ => (hsound base).1 t hself, fun _ => ⟨_, rfl⟩⟩, nofun⟩
    | undecided found => exact absurd hc (hsound base)
  · exact match?_lasts hpattern hw hws hs hverdict hjudged

end Tree

section Terms

-- The first of three equal terms is below another one.
def Tree.equalBelow : Tree := .node 3 [.node 0 [.var "x"], .var "x", .var "x"]

-- Two different leaves stand where the terms are to be equal. The third place for the term is
-- not there yet in the first tree, and open in the second.
def Tree.leavesApart : Tree := .node 3 [.hole "E" (.ofList [0]), .node 1 [], .node 2 []]

def Tree.leavesBelow : Tree := .node 3 [.node 0 [.anyLeaf], .node 1 [], .node 2 []]

theorem Tree.leavesBelow_refines : Tree.leavesBelow.Refines .leavesApart := by
  refine .node rfl fun i s t hs ht => ?_
  match i with
  | 0 =>
      cases hs
      cases ht
      have hmem : 0 ∈ Domain.ofList [0] := by decide
      exact .filled hmem
  | 1 =>
      cases hs
      cases ht
      exact .refl _
  | 2 =>
      cases hs
      cases ht
      exact .refl _
  | i + 3 => cases hs

-- What each leaf asks of the open term.
def Findings.bothLeaves : Findings :=
  ⟨[⟨[0, 0], .ofList [1], true⟩, ⟨[0, 0], .ofList [2], true⟩], [], [⟨"x", [0, 0], .anyLeaf⟩]⟩

-- A refuted match may become undecided, and a match is lost when an open position loses its last
-- rule.
theorem verdicts_change_terms :
    (Tree.equalBelow.isTemplate Grammar.terms = true ∧ Grammar.terms.WellFormed none .leavesApart ∧
      Grammar.terms.WellFormed none .leavesBelow ∧ Tree.leavesBelow.Refines .leavesApart ∧
      Tree.equalBelow.match? .leavesApart (some Grammar.terms) [] = .ok .refuted ∧
      Tree.equalBelow.match? .leavesBelow (some Grammar.terms) [] = .ok (.undecided .bothLeaves)) ∧
    (Tree.isTemplate Grammar.terms (.node 1 []) = true ∧
      Grammar.terms.WellFormed none (.hole "E" (.ofList [1])) ∧
      Grammar.terms.WellFormed none (.hole "E" ∅) ∧
      Tree.Refines (.hole "E" ∅) (.hole "E" (.ofList [1])) ∧
      Tree.match? (.node 1 []) (.hole "E" (.ofList [1])) (some Grammar.terms) [] = .ok (.matched []) ∧
      Tree.match? (.node 1 []) (.hole "E" ∅) (some Grammar.terms) [] = .ok .refuted) := by
  have hw {t : Tree} (h : Grammar.terms.check 0 none (.ofTree t) = .ok ()) : Grammar.terms.WellFormed none t :=
    (Grammar.check_ofTree Grammar.reachable_terms.regular _).mp h
  have hempty : Tree.Refines (.hole "E" ∅) (.hole "E" (.ofList [1])) :=
    .narrowed fun r hr => absurd hr (Domain.not_mem_empty r)
  exact ⟨⟨by decide, hw rfl, hw rfl, Tree.leavesBelow_refines, rfl, rfl⟩,
    by decide, hw rfl, hw rfl, hempty, rfl, rfl⟩

theorem match?_faithful_terms : Tree.equalBelow.isTemplate Grammar.terms = true ∧
    Grammar.terms.WellFormed none .leavesApart ∧
    ∃ verdict, Tree.equalBelow.match? .leavesApart (some Grammar.terms) [5] = .ok verdict ∧
      verdict.Sound .terms .equalBelow .leavesApart [5] ∧
      (Tree.leavesApart.Complete →
        ((∃ bindings, verdict = .matched bindings) ↔ Tree.equalBelow.Matches .leavesApart) ∧
          ∀ found, verdict ≠ .undecided found) ∧
      ∀ s, Grammar.terms.WellFormed none s → s.Refines .leavesApart →
        verdict.Lasts .terms .equalBelow .leavesApart [5] s := by
  have htemplate : Tree.equalBelow.isTemplate Problem.terms.grammar = true := by decide
  have hw : Problem.terms.grammar.WellFormed none .leavesApart :=
    (Grammar.check_ofTree Grammar.reachable_terms.regular 0).mp rfl
  exact ⟨htemplate, hw, Tree.match?_faithful htemplate hw [5]⟩

end Terms

end TreeSearch
