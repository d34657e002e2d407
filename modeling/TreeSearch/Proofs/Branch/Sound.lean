import TreeSearch.Branch.Fixpoint
import TreeSearch.Proofs.Branch.Classes
import TreeSearch.Proofs.Constraint.Watching

namespace TreeSearch

namespace OrderedSet

variable {α : Type} [DecidableEq α]

theorem mem_insertAll (s : OrderedSet α) (items : List α) (a : α) :
    a ∈ s.insertAll items ↔ a ∈ s ∨ a ∈ items := by
  induction items generalizing s with
  | nil => simp [insertAll]
  | cons b items ih =>
      show a ∈ (s.insert b).insertAll items ↔ _
      rw [ih, mem_insert, List.mem_cons, or_assoc]

end OrderedSet

namespace Worklist

variable {α : Type} [DecidableEq α] {q : Worklist α}

-- Whatever is pending stands in the line, and is pending once.
structure Proper (q : Worklist α) : Prop where
  nodup : q.pending.Nodup
  lined : ∀ a ∈ q.pending, a ∈ q.line

omit [DecidableEq α] in
theorem proper_empty : (empty : Worklist α).Proper := ⟨List.nodup_nil, nofun⟩

theorem mem_add (q : Worklist α) (a b : α) : b ∈ (q.add a).pending ↔ b ∈ q.pending ∨ b = a := by
  unfold add
  split
  · rename_i h
    exact ⟨Or.inl, fun hb => hb.elim id (· ▸ h)⟩
  · simp

theorem mem_addAll (q : Worklist α) (items : List α) (b : α) :
    b ∈ (q.addAll items).pending ↔ b ∈ q.pending ∨ b ∈ items := by
  induction items generalizing q with
  | nil => simp [addAll]
  | cons a items ih =>
      show b ∈ ((q.add a).addAll items).pending ↔ _
      rw [ih, mem_add, List.mem_cons, or_assoc]

theorem Proper.add (hq : q.Proper) (a : α) : (q.add a).Proper := by
  unfold Worklist.add
  split
  · exact hq
  · rename_i h
    refine ⟨List.nodup_append.mpr ⟨hq.nodup, by simp, ?_⟩, fun b hb => ?_⟩
    · rintro b hb c hc rfl
      rw [List.mem_singleton] at hc
      exact h (hc ▸ hb)
    · rcases List.mem_append.mp hb with hb | hb
      · exact List.mem_append_left _ (hq.lined b hb)
      · exact List.mem_append_right _ hb

theorem Proper.addAll (hq : q.Proper) (items : List α) : (q.addAll items).Proper := by
  induction items generalizing q with
  | nil => exact hq
  | cons a items ih => exact ih (hq.add a)

theorem Proper.mem_remove (hq : q.Proper) (a b : α) :
    b ∈ (q.remove a).pending ↔ b ∈ q.pending ∧ b ≠ a := by
  rw [remove, hq.nodup.mem_erase_iff, and_comm]

theorem Proper.remove (hq : q.Proper) (a : α) : (q.remove a).Proper :=
  ⟨hq.nodup.erase a, fun b hb => hq.lined b (List.mem_of_mem_erase hb)⟩

theorem Proper.copy (hq : q.Proper) : q.copy.Proper :=
  ⟨hq.nodup, fun a ha => List.mem_filter.mpr ⟨hq.lined a ha, by simpa [Worklist.copy] using ha⟩⟩

-- The first pending item of a line stands behind places that do not count.
theorem next?_eq_some {pending line rest : List α} {a : α} (h : next? pending line = some (a, rest)) :
    a ∈ pending ∧ ∃ skipped, line = skipped ++ a :: rest ∧ ∀ b ∈ skipped, b ∉ pending := by
  induction line with
  | nil => cases h
  | cons c line ih =>
      unfold next? at h
      split at h
      · rename_i hc
        cases h
        exact ⟨hc, [], rfl, by simp⟩
      · rename_i hc
        obtain ⟨ha, skipped, rfl, hskipped⟩ := ih h
        exact ⟨ha, c :: skipped, rfl, by simpa using ⟨hc, hskipped⟩⟩

theorem next?_eq_none {pending line : List α} (h : next? pending line = none) : ∀ b ∈ line, b ∉ pending := by
  induction line with
  | nil => simp
  | cons c line ih =>
      unfold next? at h
      split at h
      · cases h
      · rename_i hc
        simpa using ⟨hc, ih h⟩

-- No places are left when nothing is pending.
theorem line_pop_of_eq_none (h : q.pop.1 = none) : q.pop.2.line = [] := by
  unfold Worklist.pop at h ⊢
  cases hn : next? q.pending q.line with
  | some found =>
      rw [hn] at h
      cases h
  | none => rfl

-- A pop takes the first pending item, unless there is none.
theorem Proper.pop_cases (hq : q.Proper) :
    (∃ a skipped rest, a ∈ q.pending ∧ q.line = skipped ++ a :: rest ∧ (∀ b ∈ skipped, b ∉ q.pending) ∧
        q.pop = (some a, ⟨rest, q.pending.erase a⟩)) ∨
      q.pending = [] ∧ q.pop = (none, .empty) := by
  unfold Worklist.pop
  cases hn : next? q.pending q.line with
  | some found =>
      obtain ⟨a, rest⟩ := found
      obtain ⟨ha, skipped, hline, hskipped⟩ := next?_eq_some hn
      exact Or.inl ⟨a, skipped, rest, ha, hline, hskipped, rfl⟩
  | none =>
      have hnil : q.pending = [] :=
        List.eq_nil_iff_forall_not_mem.mpr fun b hb => next?_eq_none hn b (hq.lined b hb) hb
      exact Or.inr ⟨hnil, by simp [hnil, Worklist.empty]⟩

theorem Proper.pop (hq : q.Proper) :
    (∃ a, q.pop.1 = some a ∧ a ∈ q.pending ∧ q.pop.2.pending = q.pending.erase a ∧
        q.pop.2.Proper) ∨
      q.pop.1 = none ∧ q.pending = [] ∧ q.pop.2.pending = [] ∧ q.pop.2.Proper := by
  rcases hq.pop_cases with ⟨a, skipped, rest, ha, hline, hskipped, hpop⟩ | ⟨hnil, hpop⟩
  · rw [hpop]
    refine Or.inl ⟨a, rfl, ha, rfl, hq.nodup.erase a, fun b hb => ?_⟩
    obtain ⟨hne, hb⟩ := hq.nodup.mem_erase_iff.mp hb
    have hplace : b ∈ skipped ++ a :: rest := hline ▸ hq.lined b hb
    rcases List.mem_append.mp hplace with hs | hr
    · exact absurd hb (hskipped b hs)
    · exact (List.mem_cons.mp hr).resolve_left hne
  · rw [hpop]
    exact Or.inr ⟨rfl, hnil, rfl, proper_empty⟩

theorem Proper.pop_eq_empty (hq : q.Proper) (h : q.pop.1 = none) : q.pop.2 = .empty := by
  rcases hq.pop_cases with ⟨a, skipped, rest, -, -, -, hpop⟩ | ⟨-, hpop⟩
  · rw [hpop] at h
    cases h
  · rw [hpop]

end Worklist

namespace Branch

-- The trees that a branch can still become.
def Covers (b : Branch) (t : Tree) : Prop := b.feasible = true ∧ t.Refines b.tree

-- Every watched constraint is one of the grammar's at a position of the tree, and every
-- united path leads to one.
structure Sound (p : Problem) (b : Branch) : Prop where
  wellFormed : p.grammar.WellFormed none b.tree
  classes : b.classes.Proper
  united : ∀ k ∈ b.classes.classes, ∀ path ∈ k, ∃ s, b.tree.get? path = some s
  watched : ∀ w, w ∈ b.active ∨ w ∈ b.retired →
    w.constraint ∈ p.grammar.constraints ∧ w.Fits ∧ ∃ s, b.tree.get? w.path = some s
  apart : ∀ w ∈ b.active, w ∉ b.retired
  queue : b.queue.Proper
  pending : ∀ w ∈ b.queue.pending, w ∈ b.active

-- The trees in question respect the classes of united paths.
def Loyal (T : Tree → Prop) (b : Branch) : Prop := ∀ t, T t → b.Covers t → b.classes.Respected t

variable {p : Problem} {b : Branch}

theorem Sound.member (h : b.Sound p) {path other : Path} {s : Tree}
    (hs : b.tree.get? path = some s) (hm : other ∈ b.classes.members path) :
    ∃ s, b.tree.get? other = some s := by
  rcases b.classes.members_eq_or path with ⟨k, hk, -, he⟩ | ⟨-, he⟩
  · exact h.united k hk other (he ▸ hm)
  · rw [he, List.mem_singleton] at hm
    exact ⟨s, hm ▸ hs⟩

section Notifying

variable (b) (path : Path) (w : Watch)

theorem mem_wake_pending :
    w ∈ (b.wake path).queue.pending ↔ w ∈ b.queue.pending ∨ w ∈ b.active ∧ w.minds path = true := by
  rw [wake, Worklist.mem_addAll, List.mem_filter]
  rfl

theorem mem_notify_active (unifying : Bool) : w ∈ (b.notify unifying path).active ↔
    w ∈ b.active ∨ unifying = true ∧ w ∈ b.retired ∧ w.minds path = true := by
  cases unifying with
  | false => simp [notify, wake]
  | true =>
      show w ∈ b.active.insertAll (b.retired.toList.filter (·.minds path)) ↔ _
      rw [OrderedSet.mem_insertAll, List.mem_filter]
      simp only [true_and]
      rfl

theorem mem_notify_retired (unifying : Bool) : w ∈ (b.notify unifying path).retired ↔
    w ∈ b.retired ∧ ¬ (unifying = true ∧ w.minds path = true) := by
  cases unifying with
  | false => simp [notify, wake]
  | true =>
      show w ∈ b.retired.toList.filter (!·.minds path) ↔ _
      rw [List.mem_filter]
      simp only [Bool.not_eq_true', true_and, Bool.not_eq_true]
      rfl

theorem mem_notify_pending (unifying : Bool) : w ∈ (b.notify unifying path).queue.pending ↔
    w ∈ b.queue.pending ∨ w ∈ (b.notify unifying path).active ∧ w.minds path = true := by
  rw [mem_notify_active]
  cases unifying with
  | false => simp [notify, mem_wake_pending]
  | true =>
      show w ∈ ((b.wake path).queue.addAll (b.retired.toList.filter (·.minds path))).pending ↔ _
      rw [Worklist.mem_addAll, mem_wake_pending, List.mem_filter]
      simp only [true_and]
      show (_ ∨ w ∈ b.active ∧ _) ∨ w ∈ b.retired ∧ _ ↔ _
      tauto

theorem proper_notify_queue (unifying : Bool) (h : b.queue.Proper) :
    (b.notify unifying path).queue.Proper := by
  cases unifying with
  | false => exact h.addAll _
  | true => exact (h.addAll _).addAll _

@[simp]
theorem notify_tree (unifying : Bool) : (b.notify unifying path).tree = b.tree := by
  cases unifying <;> rfl

@[simp]
theorem notify_classes (unifying : Bool) : (b.notify unifying path).classes = b.classes := by
  cases unifying <;> rfl

@[simp]
theorem notify_feasible (unifying : Bool) : (b.notify unifying path).feasible = b.feasible := by
  cases unifying <;> rfl

@[simp]
theorem notify_log (unifying : Bool) : (b.notify unifying path).log = b.log := by
  cases unifying <;> rfl

theorem notify_announced (unifying : Bool) : (b.notify unifying path).announced = b.announced := by
  cases unifying <;> rfl

end Notifying

end Branch

end TreeSearch
