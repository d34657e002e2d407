import TreeSearch.Proofs.Grammar.Store

namespace TreeSearch.Store

variable {s : Store}

theorem inStep_empty : empty.InStep := ⟨.empty, nofun⟩

-- Writing a draft down in a store.
section Building

-- Work that takes several edits. One that raises may stop in the middle of them.
def Tracks (work : StoreM Unit) (edits : Grammar → Except Fault Grammar) : Prop :=
  ∀ s : Store, s.InStep → match work.run s with
    | .ok () next => edits s.grammar = .ok next.grammar ∧ next.InStep
    | .error fault _ => edits s.grammar = .error fault

theorem Call.tracks (call : Call) : Tracks call.perform (call.edit ·) := by
  intro s hs
  have h := hs.follows call
  unfold Follows at h
  split
  · next hr => rwa [hr] at h
  · next hr =>
      rw [hr] at h
      exact h.1

theorem Tracks.then {work after : StoreM Unit} {edits others : Grammar → Except Fault Grammar}
    (h : Tracks work edits) (h' : Tracks after others) :
    Tracks (do work; after) fun g => edits g >>= others := by
  intro s hs
  have hrun : (do work; after : StoreM Unit).run s = match work.run s with
      | .ok () next => after.run next
      | .error fault next => .error fault next := by
    show EStateM.bind work (fun _ => after) s = _
    unfold EStateM.bind EStateM.run
    cases work s <;> rfl
  have hfirst := h s hs
  rw [hrun]
  cases hr : work.run s with
  | ok _ next =>
      rw [hr] at hfirst
      obtain ⟨hedits, hnext⟩ := hfirst
      simpa only [hedits, Except.ok_bind] using h' next hnext
  | error fault next =>
      rw [hr] at hfirst
      simp only [show edits s.grammar = .error fault from hfirst, Except.error_bind]

theorem Tracks.forM {α : Type} {work : α → StoreM Unit} {edit : Grammar → α → Except Fault Grammar} {l : List α}
    (h : ∀ a, Tracks (work a) (edit · a)) : Tracks (l.forM work) fun g => l.foldlM edit g := by
  induction l with
  | nil => exact fun s hs => ⟨rfl, hs⟩
  | cons a l ih =>
      simp only [List.foldlM_cons]
      exact (h a).then ih

theorem addAll_eq (ps : List Production) (g : Grammar) :
    Draft.addAll g ps = ps.foldlM (fun g p => (Call.add p).edit g) g := by
  induction ps generalizing g with
  | nil => rfl
  | cons p ps ih =>
      rw [Draft.addAll, List.foldlM_cons, Call.edit]
      cases g.add p.category p.children p.weight p.label with
      | error fault => rfl
      | ok result => exact ih result.1

theorem attachAll_eq (cs : List Constraint) (g : Grammar) :
    g.attachAll cs = cs.foldlM (fun g c => (Call.attach c).edit g) g := by
  induction cs generalizing g with
  | nil => rfl
  | cons c cs ih =>
      rw [Grammar.attachAll, List.foldlM_cons, Call.edit]
      cases g.attach c with
      | error fault => rfl
      | ok result => exact ih result.1

theorem declareAll_eq (categories : List String) (g : Grammar) :
    categories.foldlM (fun g category => (Call.declare category).edit g) g =
      .ok (categories.foldl Grammar.declare g) := by
  induction categories generalizing g with
  | nil => rfl
  | cons category categories ih => exact ih (g.declare category)

-- A draft becomes the same grammar with lists and without.
theorem build_follows (draft : Draft) : match build draft with
    | .ok s => draft.build = .ok s.grammar ∧ s.InStep
    | .error fault => draft.build = .error fault := by
  have htracks : Tracks (fill draft) _ :=
    (Tracks.forM fun category => (Call.declare category).tracks).then
      ((Tracks.forM fun p => (Call.add p).tracks).then (Tracks.forM fun c => (Call.attach c).tracks))
  have hedits : draft.build =
      draft.categories.foldlM (fun g category => (Call.declare category).edit g) .empty >>= fun g =>
        draft.productions.foldlM (fun g p => (Call.add p).edit g) g >>= fun g =>
          draft.constraints.foldlM (fun g c => (Call.attach c).edit g) g := by
    simp only [Draft.build, declareAll_eq, addAll_eq, attachAll_eq, Except.ok_bind]
  have h := htracks empty inStep_empty
  rw [hedits, build]
  split
  · next hr =>
      split at hr
      · next hrun =>
          rw [hrun] at h
          obtain rfl := Except.ok.inj hr
          exact h
      · cases hr
  · next hr =>
      split at hr
      · cases hr
      · next hrun =>
          rw [hrun] at h
          obtain rfl := Except.error.inj hr
          exact h

end Building

-- The queries read the lists.
section Queries

theorem liveAmong_eq (hs : s.grammar.Regular) {rules : List Rule} (hrules : ∀ rule ∈ rules, rule ∈ s.rules) :
    s.liveAmong (rules.map (·.index)) = .ok ((rules.filter (!·.removed)).map (·.index)) := by
  induction rules with
  | nil => rfl
  | cons rule rules ih =>
      obtain ⟨hrule, hrest⟩ := List.forall_mem_cons.mp hrules
      rw [List.map_cons, liveAmong, Grammar.rule_eq_ok (hs.rule?_of_mem hrule), Except.ok_bind, ih hrest,
        Except.ok_bind]
      cases hr : rule.removed <;> simp [hr]

theorem InStep.rulesFor_eq (hs : s.InStep) (category : String) :
    s.rulesFor category = s.grammar.rulesFor category := by
  have hcategories : s.grammar.categories = s.categories.keys := rfl
  rw [rulesFor, Grammar.rulesFor, hs.get?_categories, hcategories]
  split
  · next he =>
      split at he
      · next hin =>
          rw [if_pos hin, ← Option.some.inj he]
          exact liveAmong_eq hs.reachable.regular fun rule hrule => List.mem_of_mem_filter hrule
      · cases he
  · next he =>
      split at he
      · cases he
      · next hout => rw [if_neg hout]

theorem InStep.domainFor_eq (hs : s.InStep) (category : String) :
    s.domainFor category = s.grammar.domainFor category := by
  rw [domainFor, hs.rulesFor_eq, Grammar.domainFor]

end Queries

-- The store after a call, whether or not it has raised.
def Call.after (s : Store) (call : Call) : Store :=
  match call.perform.run s with
  | .ok _ next | .error _ next => next

-- A store that calls make out of an empty one, or out of what a draft has become.
inductive Arises : Store → Prop
  | empty : Arises empty
  | build {draft : Draft} {s : Store} (done : build draft = .ok s) : Arises s
  | call {s : Store} (h : Arises s) (call : Call) : Arises (call.after s)

theorem InStep.after (hs : s.InStep) (call : Call) : (call.after s).InStep := by
  have h := hs.follows call
  unfold Follows at h
  unfold Call.after
  cases hr : call.perform.run s with
  | ok _ next =>
      rw [hr] at h
      exact h.2
  | error fault next =>
      rw [hr] at h
      exact h.2 ▸ hs

theorem InStep.grammar_after (hs : s.InStep) (call : Call) :
    (call.after s).grammar = (call.edit s.grammar).toOption.getD s.grammar := by
  have h := hs.follows call
  unfold Follows at h
  unfold Call.after
  cases hr : call.perform.run s with
  | ok _ next =>
      rw [hr] at h
      rw [h.1]
      rfl
  | error fault next =>
      rw [hr] at h
      rw [h.1, h.2]
      rfl

theorem InStep.compact_ok_iff (hs : s.InStep) :
    (∃ mapping next, compact.run s = .ok mapping next) ↔ ∃ g, Call.compact.edit s.grammar = .ok g := by
  rw [hs.run_compact_eq, Call.edit]
  cases s.grammar.compact with
  | ok result => exact iff_of_true ⟨_, _, rfl⟩ ⟨_, rfl⟩
  | error fault =>
      constructor
      · rintro ⟨_, _, ⟨⟩⟩
      · rintro ⟨_, ⟨⟩⟩

theorem Arises.inStep (h : s.Arises) : s.InStep := by
  induction h with
  | empty => exact inStep_empty
  | @build draft s done =>
      have h := build_follows draft
      rw [done] at h
      exact h.2
  | call _ call ih => exact ih.after call

def run (calls : List Call) : Store := calls.foldl Call.after empty

theorem arises_run (calls : List Call) : (run calls).Arises := by
  have hfrom {s : Store} (h : s.Arises) : (calls.foldl Call.after s).Arises := by
    induction calls generalizing s with
    | nil => exact h
    | cons call calls ih => exact ih (h.call call)
  exact hfrom .empty

-- The rules know their places and name known categories only. The list of a category goes up and has
-- the rules that produce it. So the domains of the categories share no rule, and have all live ones.
structure Consistent (s : Store) : Prop where
  index : ∀ (i : Nat) (rule : Rule), s.rules[i]? = some rule → rule.index = i
  ascending : ∀ category indices, s.categories.get? category = some indices → indices.Pairwise (· < ·)
  listed : ∀ category indices, s.categories.get? category = some indices →
    ∀ i, i ∈ indices ↔ ∃ rule, s.rules[i]? = some rule ∧ rule.category = category
  known : ∀ rule ∈ s.rules, rule.category ∈ s.categories.keys ∧
    ∀ child ∈ rule.children, child ∈ s.categories.keys
  domain : ∀ category ∈ s.categories.keys, ∃ d, s.domainFor category = .ok d
  disjoint : ∀ category other d e, category ≠ other → s.domainFor category = .ok d →
    s.domainFor other = .ok e → ∀ r ∈ d, r ∉ e
  covers : ∀ r, r ∈ s.liveDomain ↔ ∃ category d, s.domainFor category = .ok d ∧ r ∈ d

theorem InStep.consistent (hs : s.InStep) : s.Consistent := by
  have hregular := hs.reachable.regular
  have hdomain {category : String} {d : Domain} (h : s.domainFor category = .ok d) (r : Nat) :
      r ∈ d ↔ s.grammar.Produces r category := by
    rw [hs.domainFor_eq] at h
    exact hregular.mem_domainFor h r
  refine ⟨hregular.index, fun category indices h => ?_, fun category indices h i => ?_, fun rule hrule =>
    ⟨hregular.category rule hrule, hregular.children rule hrule⟩, fun category h => ?_,
    fun category other d e hne hd he r hr hr' => ?_, fun r => ?_⟩
  · rw [hs.listed category indices h]
    exact hregular.listOf_sorted category
  · rw [hs.listed category indices h]
    exact hregular.mem_listOf
  · rw [hs.domainFor_eq]
    exact Grammar.domainFor_eq_ok h
  · obtain ⟨rule, hrule, -, rfl⟩ := (hdomain hd r).mp hr
    obtain ⟨other, hother, -, rfl⟩ := (hdomain he r).mp hr'
    exact hne (congrArg Rule.category (Option.some.inj (hrule.symm.trans hother)))
  · rw [liveDomain, Grammar.liveDomain, Domain.mem_ofList, List.mem_map]
    constructor
    · rintro ⟨rule, hrule, rfl⟩
      obtain ⟨hin, hlive⟩ := List.mem_filter.mp hrule
      obtain ⟨d, hd⟩ := Grammar.domainFor_eq_ok (hregular.category rule hin)
      rw [← hs.domainFor_eq] at hd
      have hrule := hregular.rule?_of_mem hin
      exact ⟨rule.category, d, hd, (hdomain hd _).mpr ⟨rule, hrule, by simpa using hlive, rfl⟩⟩
    · rintro ⟨category, d, hd, hr⟩
      obtain ⟨rule, hrule, hlive, -⟩ := (hdomain hd r).mp hr
      rw [Grammar.rule?_natCast] at hrule
      have hin : rule ∈ s.grammar.liveRules :=
        List.mem_filter.mpr ⟨List.mem_of_getElem? hrule, by simp [hlive]⟩
      exact ⟨rule, hin, hregular.index r rule hrule⟩

-- The new indices go up with the old ones. They are those of all live rules, from zero on.
structure Numbers (mapping : Table Nat Nat) (s : Store) : Prop where
  old : ∀ i, (∃ n, mapping.get? i = some n) ↔ ∃ rule, s.rules[i]? = some rule ∧ rule.removed = false
  new : ∀ n, (∃ i, mapping.get? i = some n) ↔ n < (s.rules.filter (!·.removed)).length
  increasing : ∀ i j n k, mapping.get? i = some n → mapping.get? j = some k → (i < j ↔ n < k)

theorem numbers_numbering (hs : s.grammar.Regular) : Numbers (numbering s.rules) s := by
  have hget {old new : Nat} : (numbering s.rules).get? old = some new ↔
      ∃ rule, s.grammar.liveRules[new]? = some rule ∧ rule.index = old := get?_numbering hs
  refine ⟨fun i => ?_, fun n => ?_, fun i j n k hi hj => ?_⟩
  · constructor
    · rintro ⟨n, hn⟩
      obtain ⟨rule, hrule, rfl⟩ := hget.mp hn
      obtain ⟨hin, hlive⟩ := List.mem_filter.mp (List.mem_of_getElem? hrule)
      have hplace := hs.rule?_of_mem hin
      rw [Grammar.rule?_natCast] at hplace
      exact ⟨rule, hplace, by simpa using hlive⟩
    · rintro ⟨rule, hrule, hlive⟩
      have hmem : rule ∈ s.grammar.liveRules :=
        List.mem_filter.mpr ⟨List.mem_of_getElem? hrule, by simp [hlive]⟩
      obtain ⟨n, hn⟩ := List.mem_iff_getElem?.mp hmem
      exact ⟨n, hget.mpr ⟨rule, hn, hs.index i rule hrule⟩⟩
  · constructor
    · rintro ⟨i, hi⟩
      obtain ⟨rule, hrule, -⟩ := hget.mp hi
      exact (List.getElem?_eq_some_iff.mp hrule).1
    · intro hn
      exact ⟨_, hget.mpr ⟨_, List.getElem?_eq_getElem hn, rfl⟩⟩
  · obtain ⟨x, hx, rfl⟩ := hget.mp hi
    obtain ⟨y, hy, rfl⟩ := hget.mp hj
    exact (hs.lt_iff_index_lt hx hy).symm

-- After any calls the lists, the rules and the domains agree. A call that raises changes nothing, and a
-- compaction answers with the new indices of the live rules.
theorem Arises.representation (h : s.Arises) : s.Consistent ∧
    (∀ (call : Call) fault next, call.perform.run s = .error fault next → next = s) ∧
    ∀ mapping next, compact.run s = .ok mapping next →
      Numbers mapping s ∧ next.rules.length = (s.rules.filter (!·.removed)).length := by
  have hs := h.inStep
  refine ⟨hs.consistent, fun call fault next hrun => ?_, fun mapping next hrun => ?_⟩
  · have hfollows := hs.follows call
    rw [hrun] at hfollows
    exact hfollows.2
  · rw [hs.run_compact_eq] at hrun
    cases hcompact : s.grammar.compact with
    | error fault =>
        rw [hcompact] at hrun
        cases hrun
    | ok result =>
        obtain ⟨g, m⟩ := result
        rw [hcompact] at hrun
        obtain ⟨rfl, rfl⟩ := EStateM.Result.ok.inj hrun
        obtain ⟨-, constraints, -, rfl⟩ := Grammar.compact_eq_ok.mp hcompact
        exact ⟨numbers_numbering hs.reachable.regular, List.length_mapIdx ..⟩

-- The first rule is refused, and so is the compaction, since a constraint needs the rule that is gone.
def refused : List Call :=
  [.add ⟨"S", ["T"], none, none⟩, .declare "T", .add ⟨"S", ["T", "S"], none, none⟩, .add ⟨"T", [], none, none⟩,
    .attach (.contains 1), .remove 1]

theorem representation_refused : (run refused).Consistent ∧ (run refused).rules.length = 2 ∧
    Call.compact.perform.run (run refused) = .error (.needsRemovedRule (.contains 1)) (run refused) := by
  have hraises : ∃ next, Call.compact.perform.run (run refused) =
      .error (.needsRemovedRule (.contains 1)) next := ⟨_, rfl⟩
  obtain ⟨hconsistent, hunchanged, -⟩ := (arises_run refused).representation
  obtain ⟨next, hnext⟩ := hraises
  exact ⟨hconsistent, rfl, hunchanged .compact _ next hnext ▸ hnext⟩

end TreeSearch.Store
