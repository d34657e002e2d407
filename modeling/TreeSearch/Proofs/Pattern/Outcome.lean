import TreeSearch.Proofs.Pattern.Clash
import TreeSearch.Proofs.Pattern.Match
import TreeSearch.Proofs.Pattern.Occurrences

namespace TreeSearch

variable {p : Problem}

namespace Tree

-- The rules that a part of a template allows at its root, and the parts below it.
inductive Part : Tree → Domain → List Tree → Prop
  | node (n : Nat) (parts : List Tree) : Part (.node n parts) {n} parts
  | choice (allowed : Domain) (parts : List Tree) : Part (.choice allowed parts) allowed parts

-- Somewhere the tree can take no rule that the template allows there.
inductive Misfit (p : Problem) : Tree → Tree → Prop
  | rule {template : Tree} {allowed : Domain} {parts : List Tree} {n : Nat} {cs : List Tree}
      (part : template.Part allowed parts) (h : ¬ (n ∈ allowed ∧ cs.length = parts.length)) :
      Misfit p template (.node n cs)
  | hole {template : Tree} {allowed : Domain} {parts : List Tree} {category : String} {rules : Domain}
      (part : template.Part allowed parts) (h : ∀ n ∈ rules, n ∈ allowed →
        ∀ r, p.grammar.rule? (n : Nat) = some r → r.children.length ≠ parts.length) :
      Misfit p template (.hole category rules)
  | child {template : Tree} {allowed : Domain} {parts : List Tree} {n : Nat} {cs : List Tree}
      {i : Nat} {q c : Tree} (part : template.Part allowed parts) (hq : parts[i]? = some q)
      (hc : cs[i]? = some c) (h : Misfit p q c) : Misfit p template (.node n cs)

-- Everywhere the tree has a rule that the template allows there, or will have one.
inductive Fits (p : Problem) : Tree → Tree → Prop
  | var {name : String} {t : Tree} : Fits p (.var name) t
  | node {template : Tree} {allowed : Domain} {parts : List Tree} {n : Nat} {cs : List Tree}
      (part : template.Part allowed parts) (mem : n ∈ allowed) (length : cs.length = parts.length)
      (below : ∀ (i : Nat) (q c : Tree), parts[i]? = some q → cs[i]? = some c → Fits p q c) :
      Fits p template (.node n cs)
  | hole {template : Tree} {allowed : Domain} {category : String} {rules : Domain}
      (part : template.Part allowed []) (live : ∃ n, n ∈ rules) (all : ∀ n ∈ rules, n ∈ allowed ∧
        ∃ r, p.grammar.rule? (n : Nat) = some r ∧ r.children = []) :
      Fits p template (.hole category rules)

theorem Part.unique {template : Tree} {allowed allowed' : Domain} {parts parts' : List Tree}
    (h : template.Part allowed parts) (h' : template.Part allowed' parts') :
    allowed = allowed' ∧ parts = parts' := by
  cases h with
  | node n parts =>
      generalize hr : (n : Int) = r at h'
      cases h' with
      | node m parts =>
          obtain rfl : n = m := by omega
          exact ⟨rfl, rfl⟩
  | choice => cases h' with | choice => exact ⟨rfl, rfl⟩

theorem Part.variablesAt {template : Tree} {allowed : Domain} {parts : List Tree}
    (h : template.Part allowed parts) : template.variablesAt = variablesIn 0 parts := by
  cases h <;> rw [Tree.variablesAt]

end Tree

section Pairs

variable {P : Tree → Tree → Prop} {c d : Tree} {cs ds : List Tree}

-- Some two items in the same place of two lists are related, or all such items are.
def AnyPair (P : Tree → Tree → Prop) (cs ds : List Tree) : Prop :=
  ∃ (i : Nat) (c d : Tree), cs[i]? = some c ∧ ds[i]? = some d ∧ P c d

def AllPairs (P : Tree → Tree → Prop) (cs ds : List Tree) : Prop :=
  ∀ (i : Nat) (c d : Tree), cs[i]? = some c → ds[i]? = some d → P c d

@[simp]
theorem anyPair_nil : ¬ AnyPair P [] ds := by
  rintro ⟨i, c, d, hc, -⟩
  cases hc

@[simp]
theorem allPairs_nil : AllPairs P [] ds := by
  intro i c d hc
  cases hc

theorem anyPair_cons : AnyPair P (c :: cs) (d :: ds) ↔ P c d ∨ AnyPair P cs ds := by
  constructor
  · rintro ⟨i, x, y, hx, hy, h⟩
    cases i with
    | zero =>
        cases hx
        cases hy
        exact Or.inl h
    | succ i => exact Or.inr ⟨i, x, y, hx, hy, h⟩
  · rintro (h | ⟨i, x, y, hx, hy, h⟩)
    · exact ⟨0, c, d, rfl, rfl, h⟩
    · exact ⟨i + 1, x, y, hx, hy, h⟩

theorem allPairs_cons : AllPairs P (c :: cs) (d :: ds) ↔ P c d ∧ AllPairs P cs ds := by
  constructor
  · intro h
    exact ⟨h 0 c d rfl rfl, fun i x y hx hy => h (i + 1) x y hx hy⟩
  · rintro ⟨h, hrest⟩ i x y hx hy
    cases i with
    | zero =>
        cases hx
        cases hy
        exact h
    | succ i => exact hrest i x y hx hy

end Pairs

namespace Findings

-- How much was found to be open.
def count (found : Findings) : Nat := found.requirements.length + found.equalities.length

variable {found : Findings} {path first second : Path}

@[simp]
theorem count_require (rules : Domain) (settled : Bool) :
    (found.require path rules settled).count = found.count + 1 := by
  simp only [count, require, List.length_append, List.length_singleton]
  omega

@[simp]
theorem count_equate : (found.equate first second).count = found.count + 1 := by
  simp only [count, equate, List.length_append, List.length_singleton]
  omega

end Findings

namespace Pattern

open TreeSearch.Tree Binding

variable {found : Findings} {refuted decided : Prop} {recorded : List Binding} {out : Option Findings}

-- What comes of a step: whether it fails, which bindings there are afterwards, and whether
-- nothing was found to be open.
structure Outcome (refuted decided : Prop) (recorded : List Binding) (found : Findings)
    (out : Option Findings) : Prop where
  refuted : out = none ↔ refuted
  bindings : ∀ f, out = some f → f.bindings = recorded
  count_le : ∀ f, out = some f → found.count ≤ f.count
  idle : ∀ f, out = some f → (f.count = found.count ↔ decided)

theorem Outcome.fails (h : refuted) : Outcome refuted decided recorded found none :=
  ⟨⟨fun _ => h, fun _ => rfl⟩, nofun, nofun, nofun⟩

-- A step that finds nothing to be open.
theorem Outcome.idles {f : Findings} (hr : ¬ refuted) (hd : decided) (hb : f.bindings = recorded)
    (hc : f.count = found.count) : Outcome refuted decided recorded found (some f) := by
  refine ⟨⟨nofun, fun h => absurd h hr⟩, ?_, ?_, ?_⟩
  · rintro g ⟨⟩
    exact hb
  · rintro g ⟨⟩
    exact Nat.le_of_eq hc.symm
  · rintro g ⟨⟩
    exact ⟨fun _ => hd, fun _ => hc⟩

-- A step that finds something to be open.
theorem Outcome.opens {f : Findings} (hr : ¬ refuted) (hd : ¬ decided) (hb : f.bindings = recorded)
    (hc : f.count = found.count + 1) : Outcome refuted decided recorded found (some f) := by
  refine ⟨⟨nofun, fun h => absurd h hr⟩, ?_, ?_, ?_⟩
  · rintro g ⟨⟩
    exact hb
  · rintro g ⟨⟩
    omega
  · rintro g ⟨⟩
    exact ⟨fun h => by omega, fun h => absurd h hd⟩

theorem Outcome.congr {refuted' decided' : Prop} (h : Outcome refuted decided recorded found out)
    (hr : refuted ↔ refuted') (hd : decided ↔ decided') :
    Outcome refuted' decided' recorded found out :=
  ⟨h.refuted.trans hr, h.bindings, h.count_le, fun f hf => (h.idle f hf).trans hd⟩

-- One step after another.
theorem Outcome.seq {refuted' decided' : Prop} {recorded' : List Binding} {f : Findings}
    (h : Outcome refuted decided recorded found (some f))
    (h' : Outcome refuted' decided' recorded' f out) :
    Outcome (refuted ∨ refuted') (decided ∧ decided') recorded' found out := by
  have hno : ¬ refuted := fun hr => nomatch h.refuted.mpr hr
  refine ⟨by rw [h'.refuted, or_iff_right hno], h'.bindings, fun g hg => ?_, fun g hg => ?_⟩
  · exact (h.count_le f rfl).trans (h'.count_le g hg)
  · have hle := h.count_le f rfl
    have hle' := h'.count_le g hg
    rw [← h.idle f rfl, ← h'.idle g hg]
    omega

section Compare

theorem compareOpen_outcome (n : Nat) (cs : List Tree) (rules : Domain) (path first second : Path)
    (found : Findings) :
    ∃ out, compareOpen n cs path rules first second found = .ok out ∧
      Outcome (n ∉ rules) (cs = [] ∧ rules = {n}) found.bindings found out := by
  unfold compareOpen
  rw [Domain.has_natCast, Except.ok_bind]
  by_cases hn : n ∈ rules
  · by_cases hcs : cs = []
    · rw [Domain.single_natCast]
      by_cases honly : rules = {n}
      · exact ⟨some found, by simp [hcs, honly], .idles (not_not.mpr hn) ⟨hcs, honly⟩ rfl rfl⟩
      · exact ⟨some (found.require path {n} true), by simp [hn, hcs, honly],
          .opens (not_not.mpr hn) (fun h => honly h.2) rfl (Findings.count_require _ _)⟩
    · exact ⟨some (found.equate first second), by simp [hn, hcs],
        .opens (not_not.mpr hn) (fun h => hcs h.1) rfl Findings.count_equate⟩
  · exact ⟨none, by simp [hn], .fails hn⟩

theorem compareAll_outcome {cs ds : List Tree} (first second : Path) (index : Nat) (found : Findings)
    (hlen : cs.length = ds.length)
    (ih : ∀ c ∈ cs, ∀ d ∈ ds, ∀ (a b : Path) (found : Findings),
      ∃ out, compare (some p.grammar) a b c d found = .ok out ∧
        Outcome (Clash c d) (Alike p c d) found.bindings found out) :
    ∃ out, compareAll (some p.grammar) first second index cs ds found = .ok out ∧
      Outcome (AnyPair Clash cs ds) (AllPairs (Alike p) cs ds) found.bindings found out := by
  induction cs generalizing ds index found with
  | nil => exact ⟨some found, by simp [compareAll], .idles anyPair_nil allPairs_nil rfl rfl⟩
  | cons c cs ihc =>
      cases ds with
      | nil => cases hlen
      | cons d ds =>
          obtain ⟨out, hout, hfirst⟩ := ih c List.mem_cons_self d List.mem_cons_self
            (first ++ [(index : Int)]) (second ++ [(index : Int)]) found
          cases out with
          | none =>
              have hclash : Clash c d := hfirst.refuted.mp rfl
              exact ⟨none, by simp [compareAll, hout], .fails (anyPair_cons.mpr (Or.inl hclash))⟩
          | some f =>
              obtain ⟨out, hout', hrest⟩ := ihc (index + 1) f (by simpa using hlen)
                fun c hc d hd => ih c (List.mem_cons_of_mem _ hc) d (List.mem_cons_of_mem _ hd)
              rw [hfirst.bindings f rfl] at hrest
              refine ⟨out, by simp [compareAll, hout, hout'], (hfirst.seq hrest).congr ?_ ?_⟩
              · exact anyPair_cons.symm
              · exact allPairs_cons.symm

theorem compareHoles_outcome {category category' : String} {d e : Domain} (first second : Path)
    (found : Findings) (hs : p.grammar.WellFormed none (.hole category d)) :
    ∃ out, compare (some p.grammar) first second (.hole category d) (.hole category' e) found = .ok out ∧
      Outcome (Clash (.hole category d) (.hole category' e))
        (Alike p (.hole category d) (.hole category' e)) found.bindings found out := by
  obtain ⟨b, hb, hsame⟩ := sameTerminal_spec (e := e) (Grammar.wellFormed_hole_iff.mp hs).2.2
  have hclash : Clash (.hole category d) (.hole category' e) ↔ (d ∩ e).isEmpty = true := by
    simp only [clash_holes_iff, Domain.isEmpty_iff, Domain.mem_inter, not_and]
  have halike : Alike p (.hole category d) (.hole category' e) ↔ b = true := by
    rw [alike_holes_iff, hsame]
  rw [compare]
  · simp only [Tree.domain?, hb]
    by_cases hempty : (d ∩ e).isEmpty = true
    · exact ⟨none, by simp [hempty], .fails (hclash.mpr hempty)⟩
    · have hno := fun h => hempty (hclash.mp h)
      cases b with
      | true => exact ⟨some found, by simp [hempty], .idles hno (halike.mpr rfl) rfl rfl⟩
      | false =>
          exact ⟨some (found.equate first second), by simp [hempty],
            .opens hno (fun h => Bool.noConfusion (halike.mp h)) rfl Findings.count_equate⟩
  · simp
  · simp
  · simp

theorem compare_outcome {s t : Tree} (first second : Path) (found : Findings)
    (hs : p.grammar.WellFormed none s) (ht : p.grammar.WellFormed none t) :
    ∃ out, compare (some p.grammar) first second s t found = .ok out ∧
      Outcome (Clash s t) (Alike p s t) found.bindings found out := by
  induction s using Tree.induction generalizing t first second found with
  | node r cs ih =>
      obtain ⟨n, rfl⟩ := Int.eq_ofNat_of_zero_le hs.root_nonneg
      cases t with
      | node q ds =>
          rw [compare]
          by_cases hsame : (n : Int) = q ∧ cs.length = ds.length
          · obtain ⟨rfl, hlen⟩ := hsame
            obtain ⟨out, hout, h⟩ := compareAll_outcome first second 0 found hlen
              fun c hc d hd a b found => by
                obtain ⟨i, hi⟩ := List.mem_iff_getElem?.mp hc
                obtain ⟨j, hj⟩ := List.mem_iff_getElem?.mp hd
                obtain ⟨_, hwc⟩ := hs.child hi
                obtain ⟨_, hwd⟩ := ht.child hj
                exact ih c hc a b found hwc.anyCategory hwd.anyCategory
            refine ⟨out, by simp [hlen, hout], h.congr ?_ ?_⟩
            · simp [clash_node_iff, hlen, AnyPair]
            · simp [alike_node_iff, hlen, AllPairs]
          · exact ⟨none, by simp only [if_neg hsame], .fails (.roots hsame)⟩
      | hole category d =>
          rw [compare]
          · obtain ⟨out, hout, h⟩ := compareOpen_outcome n cs d second first second found
            exact ⟨out, hout, h.congr clash_node_hole_iff.symm alike_node_hole_iff.symm⟩
          · simp
      | choice => cases ht
      | var => cases ht
  | hole category d =>
      cases ht.concrete with
      | node n ds =>
          rw [compare]
          · obtain ⟨out, hout, h⟩ := compareOpen_outcome n ds d first first second found
            exact ⟨out, hout, h.congr clash_hole_node_iff.symm alike_hole_node_iff.symm⟩
          · simp
      | hole => exact compareHoles_outcome first second found hs
  | choice => cases hs
  | var => cases hs

end Compare

section Match

variable {whole t : Tree} {path : Path} {seen : List Binding} {misfit fits : Prop}

-- The outcome of matching, when some variables have been met before and others are met on the
-- way.
def MatchOutcome (p : Problem) (misfit fits : Prop) (seen met : List Binding) (found : Findings)
    (out : Option Findings) : Prop :=
  Outcome (misfit ∨ Against Clash seen met) (fits ∧ ¬ Against (fun s t => ¬ Alike p s t) seen met)
    (firsts (seen ++ met)) found out

theorem MatchOutcome.seq {misfit' fits' : Prop} {met met' : List Binding} {f : Findings}
    (h : MatchOutcome p misfit fits seen met found (some f))
    (h' : MatchOutcome p misfit' fits' (seen ++ met) met' f out) :
    MatchOutcome p (misfit ∨ misfit') (fits ∧ fits') seen (met ++ met') found out := by
  unfold MatchOutcome
  rw [against_append, against_append, ← List.append_assoc]
  apply (Outcome.seq h h').congr
  · tauto
  · tauto

theorem matchVar_outcome (hw : p.grammar.WellFormed none whole) (ht : whole.get? path = some t)
    (hseen : ∀ b ∈ seen, whole.get? b.path = some b.tree) (hfound : found.bindings = firsts seen)
    (name : String) : ∃ out, matchAt (some p.grammar) path (.var name) t found = .ok out ∧
      MatchOutcome p False True seen [⟨name, path, t⟩] found out := by
  have hbinding : found.binding? name = seen.find? (·.name = name) := by
    rw [Findings.binding?, hfound, find?_firsts]
  have hany : (firsts seen).any (·.name = name) = (seen.find? (·.name = name)).isSome := by
    rw [← find?_firsts, Bool.eq_iff_iff, List.any_eq_true, List.find?_isSome]
  rw [matchAt, hbinding]
  unfold MatchOutcome
  rw [firsts_concat]
  cases hfind : seen.find? (·.name = name) with
  | none =>
      refine ⟨_, rfl, .idles ?_ ?_ ?_ rfl⟩
      · simp [Against, hfind]
      · simp [Against, hfind]
      · rw [if_neg (by simp [hany, hfind]), ← hfound]
        rfl
  | some bound =>
      have hbound := hw.get? (hseen bound (List.mem_of_find?_eq_some hfind))
      obtain ⟨out, hout, h⟩ := compare_outcome bound.path path found hbound (hw.get? ht)
      refine ⟨out, hout, ?_⟩
      rw [if_pos (by rw [hany, hfind]; rfl), ← hfound]
      apply h.congr
      · simp [Against, hfind]
      · simp [Against, hfind]

theorem matchAll_outcome {parts cs : List Tree} (index : Nat) (seen : List Binding)
    (found : Findings) (hlen : cs.length = parts.length)
    (ih : ∀ part ∈ parts, ∀ (path : Path) (c : Tree) (seen : List Binding) (found : Findings),
      whole.get? path = some c → (∀ b ∈ seen, whole.get? b.path = some b.tree) →
      found.bindings = firsts seen →
      ∃ out, matchAt (some p.grammar) path part c found = .ok out ∧
        MatchOutcome p (Misfit p part c) (Fits p part c) seen (visible whole path part.variablesAt) found out)
    (hc : ∀ (i : Nat) (c : Tree), cs[i]? = some c →
      whole.get? (path ++ [((index + i : Nat) : Int)]) = some c)
    (hseen : ∀ b ∈ seen, whole.get? b.path = some b.tree) (hfound : found.bindings = firsts seen) :
    ∃ out, matchAll (some p.grammar) path index parts cs found = .ok out ∧
      MatchOutcome p (AnyPair (Misfit p) parts cs) (AllPairs (Fits p) parts cs) seen
        (visible whole path (variablesIn index parts)) found out := by
  induction parts generalizing cs index seen found with
  | nil =>
      refine ⟨some found, by simp [matchAll], .idles ?_ ?_ ?_ rfl⟩
      · simp [variablesIn, visible, Against]
      · simp [variablesIn, visible, Against]
      · simp [variablesIn, visible, hfound]
  | cons part parts ihp =>
      cases cs with
      | nil => cases hlen
      | cons c cs =>
          rw [variablesIn, visible_append, visible_child]
          obtain ⟨out, hout, hfirst⟩ := ih part List.mem_cons_self (path ++ [(index : Int)]) c seen found
            (by simpa using hc 0 c rfl) hseen hfound
          cases out with
          | none =>
              refine ⟨none, by simp [matchAll, hout], .fails ?_⟩
              rw [anyPair_cons, against_append]
              have := hfirst.refuted.mp rfl
              tauto
          | some f =>
              obtain ⟨out, hout', hrest⟩ := ihp (index + 1)
                (seen ++ visible whole (path ++ [(index : Int)]) part.variablesAt) f
                (by simpa using hlen) (fun q hq => ih q (List.mem_cons_of_mem _ hq))
                (fun i c hi => by
                  rw [show index + 1 + i = index + (i + 1) by omega]
                  exact hc (i + 1) c (by simpa using hi))
                (fun b hb => (List.mem_append.mp hb).elim (hseen b) get?_of_mem_visible)
                (hfirst.bindings f rfl)
              refine ⟨out, by simp [matchAll, hout, hout'], (hfirst.seq hrest).congr ?_ ?_⟩
              · rw [anyPair_cons]
              · rw [allPairs_cons]

theorem misfit_node_iff {template : Tree} {allowed : Domain} {parts cs : List Tree} {n : Nat}
    (part : template.Part allowed parts) : Misfit p template (.node n cs) ↔
      ¬ (n ∈ allowed ∧ cs.length = parts.length) ∨ AnyPair (Misfit p) parts cs := by
  constructor
  · intro h
    generalize hr : (n : Int) = r at h
    cases h with
    | rule part' h =>
        obtain ⟨rfl, rfl⟩ := part.unique part'
        obtain rfl : n = _ := Int.ofNat.inj hr
        exact Or.inl h
    | child part' hq hc h =>
        obtain ⟨rfl, rfl⟩ := part.unique part'
        exact Or.inr ⟨_, _, _, hq, hc, h⟩
  · rintro (h | ⟨i, q, c, hq, hc, h⟩)
    · exact .rule part h
    · exact .child part hq hc h

theorem fits_node_iff {template : Tree} {allowed : Domain} {parts cs : List Tree} {n : Nat}
    (part : template.Part allowed parts) : Fits p template (.node n cs) ↔
      (n ∈ allowed ∧ cs.length = parts.length) ∧ AllPairs (Fits p) parts cs := by
  constructor
  · intro h
    generalize hr : (n : Int) = r at h
    cases h with
    | var => cases part
    | node part' mem length below =>
        obtain ⟨rfl, rfl⟩ := part.unique part'
        obtain rfl : n = _ := Int.ofNat.inj hr
        exact ⟨⟨mem, length⟩, below⟩
  · rintro ⟨⟨mem, length⟩, below⟩
    exact .node part mem length below

section Open

variable {template : Tree} {allowed rules kept : Domain} {parts : List Tree} {category : String}

-- An open position fails where none of its rules is allowed and has the right number of children.
theorem misfit_hole_iff (part : template.Part allowed parts)
    (hmem : ∀ n : Nat, n ∈ kept ↔ (n ∈ rules ∧ n ∈ allowed) ∧
      ∃ r, p.grammar.rule? n = some r ∧ r.children.length = parts.length) :
    Misfit p template (.hole category rules) ↔ kept.isEmpty = true := by
  rw [Domain.isEmpty_iff]
  constructor
  · intro h n hn
    obtain ⟨⟨hr, ha⟩, r, hfound, harity⟩ := (hmem n).mp hn
    cases h with
    | hole part' h =>
        obtain ⟨rfl, rfl⟩ := part.unique part'
        exact h n hr ha r hfound harity
  · intro h
    exact .hole part fun n hr ha r hfound harity => h n ((hmem n).mpr ⟨⟨hr, ha⟩, r, hfound, harity⟩)

-- It fits where all of them are and nothing comes below.
theorem fits_hole_iff (part : template.Part allowed parts)
    (hmem : ∀ n : Nat, n ∈ kept ↔ (n ∈ rules ∧ n ∈ allowed) ∧
      ∃ r, p.grammar.rule? n = some r ∧ r.children.length = parts.length) :
    Fits p template (.hole category rules) ↔
      kept.isEmpty = false ∧ parts.length = 0 ∧ (rules \ kept).isEmpty = true := by
  rw [Domain.isEmpty_eq_false_iff, Domain.isEmpty_sdiff]
  constructor
  · intro h
    cases h with
    | var => cases part
    | hole part' live all =>
        obtain ⟨rfl, rfl⟩ := part.unique part'
        have hin (n : Nat) (hn : n ∈ rules) : n ∈ kept := by
          obtain ⟨ha, r, hr, hc⟩ := all n hn
          exact (hmem n).mpr ⟨⟨hn, ha⟩, r, hr, by simp [hc]⟩
        obtain ⟨n, hn⟩ := live
        exact ⟨⟨n, hin n hn⟩, rfl, hin⟩
  · rintro ⟨⟨n, hn⟩, h0, hall⟩
    obtain rfl := List.length_eq_zero_iff.mp h0
    refine .hole part ⟨n, ((hmem n).mp hn).1.1⟩ fun m hm => ?_
    obtain ⟨⟨-, ha⟩, r, hr, hc⟩ := (hmem m).mp (hall m hm)
    exact ⟨ha, r, hr, List.length_eq_zero_iff.mp hc⟩

-- An open position under a part of the template.
theorem matchOpen_outcome (path : Path) (found : Findings)
    (hw : p.grammar.WellFormed none (.hole category rules)) (part : template.Part allowed parts) :
    ∃ out, matchOpen (some p.grammar) allowed parts.length path rules found = .ok out ∧
      Outcome (Misfit p template (.hole category rules)) (Fits p template (.hole category rules))
        found.bindings found out := by
  have hlive := (Grammar.wellFormed_hole_iff.mp hw).2.2
  obtain ⟨kept, hkept, hmem⟩ := withArity_spec parts.length (p := p)
    fun (r : Nat) (hr : r ∈ rules ∩ allowed) => hlive r ((Domain.mem_inter r rules allowed).mp hr).1
  simp only [Domain.mem_inter] at hmem
  have hmisfit : Misfit p template (.hole category rules) ↔ kept.isEmpty = true :=
    misfit_hole_iff part hmem
  have hfits : Fits p template (.hole category rules) ↔
      kept.isEmpty = false ∧ parts.length = 0 ∧ (rules \ kept).isEmpty = true :=
    fits_hole_iff part hmem
  unfold matchOpen
  rw [hkept, Except.ok_bind]
  by_cases hempty : kept.isEmpty = true
  · exact ⟨none, by simp [hempty], .fails (hmisfit.mpr hempty)⟩
  · have hno := fun h => hempty (hmisfit.mp h)
    by_cases h0 : parts.length = 0
    · by_cases hall : (rules \ kept).isEmpty = true
      · exact ⟨some found, by simp [hempty, h0, hall],
          .idles hno (hfits.mpr ⟨by simpa using hempty, h0, hall⟩) rfl rfl⟩
      · exact ⟨some (found.require path kept true), by simp [hempty, h0, hall],
          .opens hno (fun h => hall (hfits.mp h).2.2) rfl (Findings.count_require _ _)⟩
    · exact ⟨some (found.require path kept false), by simp [hempty, h0],
        .opens hno (fun h => h0 (hfits.mp h).2.1) rfl (Findings.count_require _ _)⟩

end Open

-- A part of the template with parts of its own.
theorem matchParts_outcome (hw : p.grammar.WellFormed none whole) {template : Tree} {allowed : Domain}
    {parts : List Tree} (part : template.Part allowed parts)
    (ih : ∀ part ∈ parts, ∀ (path : Path) (c : Tree) (seen : List Binding) (found : Findings),
      whole.get? path = some c → (∀ b ∈ seen, whole.get? b.path = some b.tree) →
      found.bindings = firsts seen →
      ∃ out, matchAt (some p.grammar) path part c found = .ok out ∧
        MatchOutcome p (Misfit p part c) (Fits p part c) seen (visible whole path part.variablesAt) found out)
    (ht : whole.get? path = some t) (hseen : ∀ b ∈ seen, whole.get? b.path = some b.tree)
    (hfound : found.bindings = firsts seen) :
    ∃ out, (do match ← matchRoot (some p.grammar) allowed parts.length path t found with
        | some (found, cs) => matchAll (some p.grammar) path 0 parts cs found
        | none => return none) = .ok out ∧
      MatchOutcome p (Misfit p template t) (Fits p template t) seen (visible whole path template.variablesAt)
        found out := by
  rw [part.variablesAt]
  have hwt := hw.get? ht
  cases hwt.concrete with
  | node n cs =>
      unfold MatchOutcome
      rw [matchRoot, Domain.has_natCast, Except.ok_bind, misfit_node_iff part, fits_node_iff part]
      by_cases hok : n ∈ allowed ∧ cs.length = parts.length
      · obtain ⟨out, hout, h⟩ := matchAll_outcome 0 seen found hok.2 ih
          (fun i c hi => by simpa using get?_child ht hi) hseen hfound
        refine ⟨out, by simpa [hok] using hout, h.congr ?_ ?_⟩
        · simp [hok]
        · simp [hok]
      · refine ⟨none, ?_, .fails (Or.inl (Or.inl hok))⟩
        simp only [decide_eq_true_eq, if_neg hok]
        rfl
  | hole category rules =>
      obtain ⟨out, hout, h⟩ := matchOpen_outcome path found hwt part
      have hall (f : Findings) : matchAll (some p.grammar) path 0 parts [] f = .ok (some f) := by
        cases parts <;> rfl
      rw [matchRoot]
      · refine ⟨out, ?_, ?_⟩
        · simp only [Tree.domain?, hout]
          cases out <;> simp [hall]
        · unfold MatchOutcome
          rw [visible_hole ht, List.append_nil, ← hfound]
          apply h.congr
          · simp [Against]
          · simp [Against]
      · intro _ _ h
        cases h

theorem matchAt_outcome (path : Path) (seen : List Binding) (found : Findings)
    (hw : p.grammar.WellFormed none whole) {template : Tree}
    (hp : template.IsPattern) (ht : whole.get? path = some t)
    (hseen : ∀ b ∈ seen, whole.get? b.path = some b.tree) (hfound : found.bindings = firsts seen) :
    ∃ out, matchAt (some p.grammar) path template t found = .ok out ∧
      MatchOutcome p (Misfit p template t) (Fits p template t) seen (visible whole path template.variablesAt)
        found out := by
  induction template using Tree.induction generalizing t path seen found with
  | var name =>
      have hone : visible whole path (Tree.var name).variablesAt = [⟨name, path, t⟩] := by
        simp [Tree.variablesAt, visible, ht]
      obtain ⟨out, hout, h⟩ := matchVar_outcome hw ht hseen hfound name
      rw [hone]
      refine ⟨out, hout, h.congr (or_congr_left ?_) (and_congr_left fun _ => ?_)⟩
      · refine ⟨False.elim, fun h => ?_⟩
        cases h with
        | rule part => cases part
        | hole part => cases part
        | child part => cases part
      · exact ⟨fun _ => .var, fun _ => trivial⟩
  | node r parts ih =>
      cases hp with
      | node nonneg below =>
          obtain ⟨n, rfl⟩ := Int.eq_ofNat_of_zero_le nonneg
          rw [matchAt, Domain.single_natCast, Except.ok_bind]
          exact matchParts_outcome hw (.node n parts)
            (fun part hm path c seen found hc => ih part hm path seen found (below part hm) hc) ht hseen hfound
  | choice allowed parts ih =>
      cases hp with
      | choice below =>
          rw [matchAt]
          exact matchParts_outcome hw (.choice allowed parts)
            (fun part hm path c seen found hc => ih part hm path seen found (below part hm) hc) ht hseen hfound
  | hole => cases hp

end Match

end Pattern

end TreeSearch
