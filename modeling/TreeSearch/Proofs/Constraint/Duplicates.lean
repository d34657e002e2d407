import Mathlib.Data.List.Induction
import TreeSearch.Proofs.Grammar.Representation

namespace TreeSearch

variable {g next : Grammar} {m : Renumbering}

section Trimming

mutual

-- A template with live rules only in its choices.
def Tree.trimmed (g : Grammar) : Tree → Tree
  | .node r cs => .node r (trimmedAll g cs)
  | .choice d cs => .choice (d.filter fun r => g.isLive r) (trimmedAll g cs)
  | t => t

def Tree.trimmedAll (g : Grammar) : List Tree → List Tree
  | [] => []
  | c :: cs => trimmed g c :: trimmedAll g cs

end

-- A constraint without the removed rules that it can do without.
def Constraint.trimmed (g : Grammar) : Constraint → Constraint
  | forbidden template => forbidden (template.trimmed g)
  | containsSubtree template => containsSubtree (template.trimmed g)
  | ordered template names => ordered (template.trimmed g) names
  | forbiddenSequence sequence ignore => forbiddenSequence sequence (ignore.filter g.isLive)
  | c => c

end Trimming

section Templates

open TreeSearch.Tree

variable {template other new : Tree}

-- What stays of a choice is what stays of its live rules.
theorem Grammar.Regular.renumber_filter (hg : g.Regular) (d : Domain) :
    (d.filter fun r => g.isLive r).renumber g.renumbering = d.renumber g.renumbering := by
  obtain ⟨kept, hkept⟩ := hg.exists_renumber d
  obtain ⟨same, hsame⟩ := hg.exists_renumber (d.filter fun r => g.isLive r)
  obtain rfl : same = kept := by
    ext s
    rw [Domain.mem_renumber hsame, Domain.mem_renumber hkept]
    refine exists_congr fun r => ?_
    rw [Domain.mem_filter]
    constructor
    · rintro ⟨⟨hr, -⟩, hs⟩
      exact ⟨hr, hs⟩
    · rintro ⟨hr, hs⟩
      exact ⟨⟨hr, hg.isLive_iff_new?.mpr ⟨s, hs⟩⟩, hs⟩
  rw [hsame, hkept]

theorem Grammar.Regular.renumber_trimmed_template (hg : g.Regular) (template : Tree) :
    (template.trimmed g).renumber g.renumbering = template.renumber g.renumbering := by
  have hparts {parts : List Tree}
      (ih : ∀ c ∈ parts, (c.trimmed g).renumber g.renumbering = c.renumber g.renumbering) :
      renumberAll g.renumbering (trimmedAll g parts) = renumberAll g.renumbering parts := by
    induction parts with
    | nil => rfl
    | cons c parts ihp =>
        rw [trimmedAll, renumberAll, renumberAll, ih c List.mem_cons_self,
          ihp fun d hd => ih d (List.mem_cons_of_mem c hd)]
  induction template using Tree.induction with
  | node r parts ih => rw [trimmed, renumber, renumber, hparts ih]
  | hole => rfl
  | choice d parts ih => rw [trimmed, renumber, renumber, hparts ih, hg.renumber_filter]
  | var => rfl

theorem Grammar.Regular.new?_inj (hg : g.Regular) {r r' s : Int} (h : g.renumbering.new? r = some s)
    (h' : g.renumbering.new? r' = some s) : r = r' := by
  obtain ⟨n, rule, rfl, rfl, hn⟩ := hg.new?_eq_some.mp h
  obtain ⟨k, rule', he, rfl, hk⟩ := hg.new?_eq_some.mp h'
  obtain rfl := Int.ofNat_inj.mp he
  rw [Option.some.inj (hn.symm.trans hk)]

-- The live rules of a choice can be told from their new indices.
theorem Grammar.Regular.mem_filter_isLive (hg : g.Regular) {d kept : Domain}
    (hkept : d.renumber g.renumbering = .ok kept) (r : Nat) :
    r ∈ d.filter (fun r => g.isLive r) ↔ ∃ n : Nat, g.renumbering.new? r = some n ∧ n ∈ kept := by
  rw [Domain.mem_filter]
  constructor
  · rintro ⟨hr, hlive⟩
    obtain ⟨s, hs⟩ := hg.isLive_iff_new?.mp hlive
    obtain ⟨n, -, rfl, -⟩ := hg.new?_eq_some.mp hs
    exact ⟨n, hs, (Domain.mem_renumber hkept n).mpr ⟨r, hr, hs⟩⟩
  · rintro ⟨n, hn, hin⟩
    obtain ⟨r', hr', hs⟩ := (Domain.mem_renumber hkept n).mp hin
    obtain rfl := Int.ofNat_inj.mp (hg.new?_inj hn hs)
    exact ⟨hr', hg.isLive_iff_new?.mpr ⟨n, hn⟩⟩

theorem Tree.trimmedAll_inj {parts others news : List Tree}
    (h : List.Forall₂ (fun c d => c.renumber m = .ok (some d)) parts news)
    (h' : List.Forall₂ (fun c d => c.renumber m = .ok (some d)) others news)
    (hinj : ∀ c ∈ parts, ∀ c' d : Tree, c.renumber m = .ok (some d) → c'.renumber m = .ok (some d) →
      c.trimmed g = c'.trimmed g) : trimmedAll g parts = trimmedAll g others := by
  induction h generalizing others with
  | nil =>
      cases h'
      rfl
  | @cons c d parts news hc _ ih =>
      cases h' with
      | @cons c' _ others _ hc' hrest =>
          rw [trimmedAll, trimmedAll, hinj c List.mem_cons_self c' d hc hc',
            ih hrest fun e he => hinj e (List.mem_cons_of_mem c he)]

-- A template can be told from what stays of it, but for removed rules in its choices.
theorem Grammar.Regular.trimmed_template_inj (hg : g.Regular)
    (h : template.renumber g.renumbering = .ok (some new))
    (h' : other.renumber g.renumbering = .ok (some new)) : template.trimmed g = other.trimmed g := by
  induction template using Tree.induction generalizing other new with
  | node r parts ih =>
      obtain ⟨s, news, hs, hnews, rfl⟩ := renumber_node_eq_some.mp h
      obtain ⟨r', others, rfl, hs', hnews'⟩ := renumber_eq_node.mp h'
      rw [trimmed, trimmed, hg.new?_inj hs hs', trimmedAll_inj hnews hnews' fun c hc _ _ => ih c hc]
  | hole => cases h
  | choice d parts ih =>
      obtain ⟨kept, news, hkept, -, hnews, rfl⟩ := renumber_choice_eq_ok_some.mp h
      obtain ⟨d', others, rfl, hkept', -, hnews'⟩ := renumber_eq_choice.mp h'
      have hlive : (d.filter fun r => g.isLive r) = d'.filter fun r => g.isLive r := by
        ext r
        rw [hg.mem_filter_isLive hkept, hg.mem_filter_isLive hkept']
      rw [trimmed, trimmed, hlive, trimmedAll_inj hnews hnews' fun c hc _ _ => ih c hc]
  | var name =>
      obtain rfl : Tree.var name = new := by simpa [renumber] using h
      rw [renumber_eq_var.mp h']

end Templates

section Constraints

variable {c d c' d' : Constraint}

theorem Constraint.isSame_iff : c.isSame d = true ↔ c = d ∧ ∀ r, c ≠ rootOnly r := by
  cases c <;> simp [isSame]

namespace Grammar.Regular

variable (hg : g.Regular)

include hg

theorem becomes_trimmed (h : c.Becomes g.renumbering c') : (c.trimmed g).Becomes g.renumbering c' := by
  cases h with
  | forbidden h => exact .forbidden ((hg.renumber_trimmed_template _).trans h)
  | contains h => exact .contains h
  | containsSubtree h => exact .containsSubtree ((hg.renumber_trimmed_template _).trans h)
  | ordered h => exact .ordered ((hg.renumber_trimmed_template _).trans h)
  | @forbiddenSequence sequence news ignore h =>
      have hignore : (ignore.filter g.isLive).filterMap g.renumbering.new? =
          ignore.filterMap g.renumbering.new? := by
        rw [List.filterMap_filter]
        refine List.filterMap_congr fun r _ => ?_
        split
        · rfl
        · next hdead => exact (hg.not_isLive_iff.mp hdead).symm
      exact hignore ▸ .forbiddenSequence h
  | unique h => exact .unique h
  | rootOnly r => exact .rootOnly r

theorem sequence_inj {sequence sequence' news : List Int} (h : sequence.mapM g.renumbering.new? = some news)
    (h' : sequence'.mapM g.renumbering.new? = some news) : sequence = sequence' := by
  obtain ⟨old, hold⟩ := Renumbering.exists_old fun _ _ _ => hg.new?_inj
  have hback {l : List Int} (h : l.mapM g.renumbering.new? = some news) : news.map old = l := by
    obtain ⟨hall, rfl⟩ := mapM_new?_eq_some.mp h
    rw [List.map_map]
    refine (List.map_congr_left fun r hr => ?_).trans (List.map_id' l)
    obtain ⟨s, hs⟩ := hall r hr
    rw [Function.comp_apply, Renumbering.rename_eq hs, hold r s hs]
  rw [← hback h, hback h']

theorem filter_isLive_inj {ignore ignore' : List Int}
    (h : ignore.filterMap g.renumbering.new? = ignore'.filterMap g.renumbering.new?) :
    ignore.filter g.isLive = ignore'.filter g.isLive := by
  obtain ⟨old, hold⟩ := Renumbering.exists_old fun _ _ _ => hg.new?_inj
  have hback (l : List Int) : (l.filterMap g.renumbering.new?).map old = l.filter g.isLive := by
    rw [List.map_filterMap, ← List.filterMap_eq_filter]
    refine List.filterMap_congr fun r _ => ?_
    cases hr : g.renumbering.new? r with
    | none => simp [Option.guard, hg.not_isLive_iff.mpr hr]
    | some s => simp [Option.guard, hg.isLive_iff_new?.mpr ⟨s, hr⟩, hold r s hr]
  rw [← hback, h, hback]

-- Two constraints become the same one when they are the same but for removed rules.
theorem becomes_eq_iff (h : c.Becomes g.renumbering c') (h' : d.Becomes g.renumbering d') :
    c' = d' ↔ c.trimmed g = d.trimmed g := by
  constructor
  · rintro rfl
    cases h with
    | forbidden h =>
        cases h' with
        | forbidden h' => exact congrArg Constraint.forbidden (hg.trimmed_template_inj h h')
    | contains h =>
        cases h' with
        | contains h' => rw [hg.new?_inj h h']
    | containsSubtree h =>
        cases h' with
        | containsSubtree h' => exact congrArg Constraint.containsSubtree (hg.trimmed_template_inj h h')
    | ordered h =>
        cases h' with
        | ordered h' => exact congrArg (Constraint.ordered · _) (hg.trimmed_template_inj h h')
    | forbiddenSequence h =>
        generalize hignore : List.filterMap _ _ = news at h'
        cases h' with
        | forbiddenSequence h' =>
            rw [Constraint.trimmed, Constraint.trimmed, hg.sequence_inj h h', hg.filter_isLive_inj hignore]
    | unique h =>
        cases h' with
        | unique h' => rw [hg.new?_inj h h']
    | rootOnly r =>
        cases h' with
        | rootOnly => rfl
  · intro he
    have hc := Constraint.renumber_eq_some.mpr (hg.becomes_trimmed h)
    have hd := Constraint.renumber_eq_some.mpr (hg.becomes_trimmed h')
    rw [he, hd] at hc
    exact (Option.some.inj (Except.ok.inj hc)).symm

theorem isSame_becomes (h : c.Becomes g.renumbering c') (h' : d.Becomes g.renumbering d') :
    c'.isSame d' = (c.trimmed g).isSame (d.trimmed g) := by
  have hroot : (∀ r, c' ≠ .rootOnly r) ↔ ∀ r, c.trimmed g ≠ .rootOnly r := by
    cases h <;> simp [Constraint.trimmed]
  rw [Bool.eq_iff_iff, Constraint.isSame_iff, Constraint.isSame_iff, hg.becomes_eq_iff h h', hroot]

end Grammar.Regular

end Constraints

namespace Grammar

-- No constraint is attached twice.
def Distinct (g : Grammar) : Prop := g.constraints.Pairwise fun c d => c.isSame d = false

-- The live constraints are not the same without the removed rules either.
def Apart (g : Grammar) : Prop := g.constraints.Pairwise fun c d => c.Live g → d.Live g →
  (c.trimmed g).isSame (d.trimmed g) = false

theorem pairwise_iff_of_forall₂ {α β : Type} {R : α → β → Prop} (S : α → α → Prop) (S' : β → β → Prop)
    {l : List α} {k : List β} (h : List.Forall₂ R l k)
    (hR : ∀ a b a' b', R a a' → R b b' → (S a b ↔ S' a' b')) : l.Pairwise S ↔ k.Pairwise S' := by
  induction h with
  | nil => exact iff_of_true .nil .nil
  | @cons a a' l k ha hall ih =>
      rw [List.pairwise_cons, List.pairwise_cons, ih]
      refine and_congr_left fun _ => ?_
      constructor
      · intro h b' hb'
        obtain ⟨b, hb, hbb'⟩ := exists_of_forall₂ hall.flip hb'
        exact (hR a b a' b' ha hbb').mp (h b hb)
      · intro h b hb
        obtain ⟨b', hb', hbb'⟩ := exists_of_forall₂ hall hb
        exact (hR a b a' b' ha hbb').mpr (h b' hb')

-- A compaction leaves no duplicates exactly when the constraints are apart before.
theorem Regular.distinct_compact (hg : g.Regular) (h : g.compact = .ok (next, m)) :
    next.Distinct ↔ g.Apart := by
  obtain ⟨rfl, constraints, hnews, rfl⟩ := compact_eq_ok.mp h
  obtain ⟨-, hall⟩ := hg.renumberConstraints_eq_ok.mp hnews
  have hpairs := pairwise_iff_of_forall₂ (fun c d => (c.trimmed g).isSame (d.trimmed g) = false)
    (fun c d => c.isSame d = false) hall fun c d c' d' hc hd => by
      rw [hg.isSame_becomes (Constraint.renumber_eq_some.mp hc) (Constraint.renumber_eq_some.mp hd)]
  refine hpairs.symm.trans ?_
  rw [List.pairwise_filter]
  simp [Apart]

theorem Distinct.attach {c : Constraint} {isNew : Bool} (hg : g.Distinct)
    (h : g.attach c = .ok (next, isNew)) : next.Distinct := by
  obtain ⟨-, hnew, rfl⟩ := attach_eq_ok.mp h
  cases isNew with
  | false => exact hg
  | true =>
      refine List.pairwise_append.mpr ⟨hg, List.pairwise_singleton _ _, fun d hd other hother => ?_⟩
      obtain rfl := List.mem_singleton.mp hother
      have hnone : g.constraints.any (·.isSame other) = false := by simpa using hnew
      simpa using List.any_eq_false.mp hnone d hd

end Grammar

namespace Store

-- Only a compaction can bring duplicates about.
theorem Call.edit_distinct {call : Call} (hg : g.Regular) (hd : g.Distinct) (h : call.edit g = .ok next)
    (hapart : call = .compact → g.Apart) : next.Distinct := by
  cases call with
  | declare category =>
      obtain rfl := Except.ok.inj h
      unfold Grammar.declare
      split
      · exact hd
      · exact hd
  | add p =>
      obtain ⟨⟨g', index⟩, hadd, rfl⟩ := Except.map_eq_ok.mp h
      obtain ⟨-, -, rfl⟩ := Grammar.add_eq_ok.mp hadd
      exact hd
  | remove index =>
      obtain ⟨rule, -, -, rfl⟩ := Grammar.remove_eq_ok.mp h
      exact hd
  | compact =>
      obtain ⟨⟨g', m⟩, hcompact, rfl⟩ := Except.map_eq_ok.mp h
      exact (hg.distinct_compact hcompact).mpr (hapart rfl)
  | attach c =>
      obtain ⟨⟨g', isNew⟩, hattach, rfl⟩ := Except.map_eq_ok.mp h
      exact hd.attach hattach
  | clearConstraints =>
      obtain rfl := Except.ok.inj h
      exact .nil

theorem run_concat (calls : List Call) (call : Call) : run (calls ++ [call]) = call.after (run calls) := by
  rw [run, List.foldl_append]
  rfl

-- After no call of a run is a constraint attached twice, exactly when the live constraints are apart
-- before every compaction of the run that succeeds.
theorem distinct_run_iff (calls : List Call) :
    (∀ done, done <+: calls → (run done).grammar.Distinct) ↔
      ∀ done, done ++ [.compact] <+: calls → (∃ mapping next, compact.run (run done) = .ok mapping next) →
        (run done).grammar.Apart := by
  have hafter (done : List Call) (call : Call) : (run (done ++ [call])).grammar =
      (call.edit (run done).grammar).toOption.getD (run done).grammar := by
    rw [run_concat]
    exact (arises_run done).inStep.grammar_after call
  constructor
  · intro h done hprefix hsucceeds
    have hs := (arises_run done).inStep
    obtain ⟨g, hedit⟩ := hs.compact_ok_iff.mp hsucceeds
    have hdistinct := h _ hprefix
    rw [hafter, hedit] at hdistinct
    obtain ⟨⟨g', m⟩, hcompact, rfl⟩ := Except.map_eq_ok.mp hedit
    exact (hs.reachable.regular.distinct_compact hcompact).mp hdistinct
  · intro h done hprefix
    induction done using List.reverseRecOn with
    | nil => exact .nil
    | append_singleton done call ih =>
        have hd := ih ((List.prefix_append done [call]).trans hprefix)
        have hs := (arises_run done).inStep
        rw [hafter]
        cases hedit : call.edit (run done).grammar with
        | error fault => exact hd
        | ok g =>
            refine Call.edit_distinct hs.reachable.regular hd hedit fun hcall => ?_
            subst hcall
            exact h done hprefix (hs.compact_ok_iff.mpr ⟨g, hedit⟩)

-- Both templates stay with the one rule that is left.
example : (run [.add ⟨"S", [], none, none⟩, .add ⟨"S", [], none, none⟩, .attach (.forbidden (.choice ⟨3⟩ [])),
    .attach (.forbidden (.choice ⟨1⟩ [])), .remove 1, .compact]).constraints =
      [.forbidden (.choice ⟨1⟩ []), .forbidden (.choice ⟨1⟩ [])] := by
  decide +kernel

end Store

end TreeSearch
