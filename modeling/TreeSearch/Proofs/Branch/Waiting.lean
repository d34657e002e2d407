import TreeSearch.Proofs.Branch.Finality
import TreeSearch.Proofs.Branch.Mirroring

namespace TreeSearch

section Queue

variable {α : Type} [DecidableEq α] {q : Worklist α} {s : OrderedSet α} {a : α}

namespace Worklist

theorem mem_line_addAll {items : List α} (h : a ∈ (q.addAll items).line) : a ∈ q.line ∨ a ∈ items := by
  induction items generalizing q with
  | nil => exact Or.inl h
  | cons b items ih =>
      rcases ih h with hadd | hitems
      · unfold add at hadd
        split at hadd
        · exact Or.inl hadd
        · rcases List.mem_append.mp hadd with hq | hb
          · exact Or.inl hq
          · exact Or.inr (List.mem_singleton.mp hb ▸ List.mem_cons_self)
      · exact Or.inr (List.mem_cons_of_mem b hitems)

theorem line_pop_subset (q : Worklist α) : q.pop.2.line ⊆ q.line := by
  unfold pop
  split
  · rename_i hnext
    obtain ⟨-, skipped, hline, -⟩ := next?_eq_some hnext
    intro x hx
    simp [hline, show x ∈ _ from hx]
  · exact List.nil_subset _

-- The items of a set that have a place are the pending ones, in the order of their places.
def InOrder (q : Worklist α) (s : OrderedSet α) : Prop := q.line.filter (· ∈ s) = q.pending

namespace InOrder

theorem mem (h : q.InOrder s) (ha : a ∈ q.pending) : a ∈ s := by
  rw [← h] at ha
  exact of_decide_eq_true (List.mem_filter.mp ha).2

theorem add (h : q.InOrder s) (ha : a ∈ s) : (q.add a).InOrder s := by
  unfold Worklist.add
  split
  · exact h
  · show (q.line ++ [a]).filter (· ∈ s) = q.pending ++ [a]
    rw [List.filter_append, show q.line.filter (· ∈ s) = q.pending from h,
      List.filter_eq_self.mpr (by simpa using ha)]

theorem addAll {items : List α} (h : q.InOrder s) (hi : ∀ a ∈ items, a ∈ s) : (q.addAll items).InOrder s := by
  induction items generalizing q with
  | nil => exact h
  | cons a items ih =>
      exact ih (h.add (hi a List.mem_cons_self)) fun b hb => hi b (List.mem_cons_of_mem a hb)

theorem remove (h : q.InOrder s) (hq : q.Proper) (a : α) : (q.remove a).InOrder (s.erase a) := by
  have hsplit : q.line.filter (· ∈ s.erase a) = (q.line.filter (· ∈ s)).filter (· != a) := by
    rw [List.filter_filter]
    refine List.filter_congr fun b _ => ?_
    rw [Bool.eq_iff_iff]
    simp [OrderedSet.mem_erase, and_comm]
  show q.line.filter (· ∈ s.erase a) = q.pending.erase a
  rw [hsplit, hq.nodup.erase_eq_filter, show q.line.filter (· ∈ s) = q.pending from h]

-- An item without a place may join the set.
theorem insert (h : q.InOrder s) (ha : a ∉ q.line) : q.InOrder (s.insert a) := by
  refine Eq.trans (List.filter_congr fun b hb => ?_) h
  have hne : b ≠ a := fun he => ha (he ▸ hb)
  simp [OrderedSet.mem_insert, hne]

theorem copy (h : q.InOrder s) : q.copy.InOrder s := by
  show (q.line.filter (· ∈ q.pending)).filter (· ∈ s) = q.pending
  rw [List.filter_comm, show q.line.filter (· ∈ s) = q.pending from h]
  exact List.filter_eq_self.mpr (by simp)

-- The first pending item of a line is the first one of the set, whatever else has a place.
theorem next?_eq {pending line : List α} (hs : ∀ a ∈ pending, a ∈ s)
    (hline : ∀ a ∈ line, a ∈ s → a ∈ pending) :
    match line.filter (· ∈ s) with
    | [] => next? pending line = none
    | a :: rest => ∃ left, next? pending line = some (a, left) ∧ left.filter (· ∈ s) = rest := by
  induction line with
  | nil => rfl
  | cons b line ih =>
      by_cases hb : b ∈ s
      · rw [List.filter_cons_of_pos (by simpa using hb)]
        refine ⟨line, ?_, rfl⟩
        rw [next?, if_pos (hline b List.mem_cons_self hb)]
      · have hskip : next? pending (b :: line) = next? pending line := by
          rw [next?, if_neg fun hp => hb (hs b hp)]
        have hrest := ih fun a ha => hline a (List.mem_cons_of_mem b ha)
        rw [List.filter_cons_of_neg (by simpa using hb), hskip]
        split at hrest
        · exact hrest
        · exact hrest

theorem pop (h : q.InOrder s) : q.pop.1 = q.pending.head? ∧ q.pop.2.pending = q.pending.tail ∧
    q.pop.2.InOrder s := by
  have hnext := next?_eq (fun a => h.mem) fun a ha hs =>
    (show q.line.filter (· ∈ s) = q.pending from h) ▸ List.mem_filter.mpr ⟨ha, by simpa using hs⟩
  rw [show q.line.filter (· ∈ s) = q.pending from h] at hnext
  unfold Worklist.pop InOrder
  split at hnext
  · rename_i hnil
    rw [hnext, hnil]
    exact ⟨rfl, rfl, rfl⟩
  · rename_i a rest hcons
    obtain ⟨left, he, horder⟩ := hnext
    rw [he, hcons]
    exact ⟨rfl, List.erase_cons_head a rest, horder.trans (List.erase_cons_head a rest).symm⟩

end InOrder

end Worklist

end Queue

variable {p : Problem} {a b c : Branch} {line : List Watch} {root : Tree}

namespace Branch

-- Whatever has a place in the line is watched.
structure Listed (b : Branch) : Prop where
  proper : b.queue.Proper
  known : ∀ w ∈ b.queue.line, w ∈ b.active ∨ w ∈ b.retired

-- The active constraints that have a place are queued, in the order of their places.
structure InOrder (b : Branch) : Prop extends b.Listed where
  order : b.queue.InOrder b.active

namespace Listed

theorem fail (b : Branch) : b.fail.Listed := ⟨Worklist.proper_empty, nofun⟩

theorem retire (h : b.Listed) (w : Watch) : (b.retire w).Listed := by
  refine ⟨h.proper.remove w, fun v hv => ?_⟩
  show v ∈ b.active.erase w ∨ v ∈ b.retired.insert w
  rw [OrderedSet.mem_erase, OrderedSet.mem_insert]
  rcases h.known v hv with ha | hr
  · by_cases hvw : v = w
    · exact Or.inr (Or.inr hvw)
    · exact Or.inl ⟨ha, hvw⟩
  · exact Or.inr (Or.inl hr)

theorem enlist (h : b.Listed) (w : Watch) : (b.enlist w).Listed := by
  unfold Branch.enlist
  split
  · exact h
  · refine ⟨h.proper, fun v hv => (h.known v hv).imp_left fun ha => ?_⟩
    exact (OrderedSet.mem_insert b.active w v).mpr (Or.inl ha)

theorem schedule (h : b.Listed) (w : Watch) : (b.schedule w).Listed := by
  unfold Branch.schedule
  split
  · rename_i hw
    refine ⟨h.proper.add w, fun v hv => ?_⟩
    have hadded : v ∈ (b.queue.addAll [w]).line := hv
    rcases Worklist.mem_line_addAll hadded with hv | hv
    · exact h.known v hv
    · exact Or.inl (List.mem_singleton.mp hv ▸ hw)
  · exact h

theorem notify (h : b.Listed) (unifying : Bool) (path : Path) : (b.notify unifying path).Listed := by
  refine ⟨b.proper_notify_queue path unifying h.proper, fun w hw => ?_⟩
  have hcases : w ∈ b.active ∨ w ∈ b.retired := by
    have hwoken (hw : w ∈ (b.wake path).queue.line) : w ∈ b.active ∨ w ∈ b.retired :=
      (Worklist.mem_line_addAll hw).elim (h.known w) fun hw => Or.inl (List.mem_filter.mp hw).1
    cases unifying with
    | false => exact hwoken hw
    | true => exact (Worklist.mem_line_addAll hw).elim hwoken fun hw => Or.inr (List.mem_filter.mp hw).1
  rw [mem_notify_active, mem_notify_retired]
  tauto

theorem popped (h : b.Listed) : b.popped.Listed := by
  refine ⟨?_, fun w hw => h.known w ?_⟩
  · rcases h.proper.pop with ⟨_, _, _, _, hproper⟩ | ⟨_, _, _, hproper⟩
    · exact hproper
    · exact hproper
  · exact b.queue.line_pop_subset hw

theorem fork (h : b.Listed) : b.fork.Listed :=
  ⟨h.proper.copy, fun w hw => h.known w (List.mem_filter.mp hw).1⟩

end Listed

namespace InOrder

theorem fail (b : Branch) : b.fail.InOrder := ⟨.fail b, rfl⟩

theorem retire (h : b.InOrder) (w : Watch) : (b.retire w).InOrder :=
  ⟨h.toListed.retire w, h.order.remove h.proper w⟩

theorem enlist (h : b.InOrder) (w : Watch) : (b.enlist w).InOrder := by
  refine ⟨h.toListed.enlist w, ?_⟩
  unfold Branch.enlist
  split
  · exact h.order
  · rename_i hnew
    exact h.order.insert fun hw => hnew (h.known w hw)

theorem schedule (h : b.InOrder) (w : Watch) : (b.schedule w).InOrder := by
  refine ⟨h.toListed.schedule w, ?_⟩
  unfold Branch.schedule
  split
  · rename_i hw
    exact h.order.add hw
  · exact h.order

-- A place that was left behind may be used again when its constraint is taken back into service.
theorem notify (h : b.InOrder) (unifying : Bool) (path : Path) :
    b.statistics.reactivations < (b.notify unifying path).statistics.reactivations ∨
      (b.notify unifying path).InOrder := by
  have hlisted := h.toListed.notify unifying path
  have hwoken : (b.wake path).queue.InOrder b.active := h.order.addAll fun w hw => (List.mem_filter.mp hw).1
  cases unifying with
  | false => exact Or.inr ⟨hlisted, hwoken⟩
  | true =>
      cases hback : b.retired.toList.filter (·.minds path) with
      | nil =>
          refine Or.inr ⟨hlisted, ?_⟩
          show ((b.wake path).queue.addAll (b.retired.toList.filter (·.minds path))).InOrder
            (b.active.insertAll (b.retired.toList.filter (·.minds path)))
          rw [hback]
          exact hwoken
      | cons w back =>
          refine Or.inl ?_
          show _ < b.statistics.reactivations + (b.retired.toList.filter (·.minds path)).length
          rw [hback, List.length_cons]
          omega

theorem popped (h : b.InOrder) : b.popped.InOrder := ⟨h.toListed.popped, h.order.pop.2.2⟩

theorem fork (h : b.InOrder) : b.fork.InOrder := ⟨h.toListed.fork, h.order.copy⟩

theorem aside (h : b.InOrder) (tree : Tree) (classes : PathClasses) (statistics : Statistics)
    (log : List Announcement) : { b with tree, classes, statistics, log }.InOrder :=
  ⟨⟨h.proper, h.known⟩, h.order⟩

end InOrder

end Branch

-- A property of what is watched and queued that every change of a branch keeps.
structure Branch.Stable (I : Branch → Prop) : Prop where
  fail {b : Branch} (h : I b) : I b.fail
  retire {b : Branch} (w : Watch) (h : I b) : I (b.retire w)
  enlist {b : Branch} (w : Watch) (h : I b) : I (b.enlist w)
  schedule {b : Branch} (w : Watch) (h : I b) : I (b.schedule w)
  notify {b : Branch} (unifying : Bool) (path : Path) (h : I b) : I (b.notify unifying path)
  popped {b : Branch} (h : I b) : I b.popped
  fork {b : Branch} (h : I b) : I b.fork
  aside {b : Branch} (tree : Tree) (classes : PathClasses) (statistics : Statistics)
    (log : List Announcement) (h : I b) :
    I { b with tree, classes, statistics, log }

theorem Branch.stable_listed : Branch.Stable Branch.Listed where
  fail _ := .fail _
  retire w h := h.retire w
  enlist w h := h.enlist w
  schedule w h := h.schedule w
  notify unifying path h := h.notify unifying path
  popped h := h.popped
  fork h := h.fork
  aside _ _ _ _ h := ⟨h.proper, h.known⟩

namespace Likeness

-- Any line will do for work that does not propagate.
def any : Likeness where
  fits _ _ := True
  late _ := False
  mono _ h := h
  fail h := h
  retire _ h := h
  enlist _ h := h
  schedule _ h := h
  aside _ _ _ _ _ h := h
  notify _ _ h := Or.inr h

-- The line of a branch with a property that every change keeps.
def own {I : Branch → Prop} (h : Branch.Stable I) : Likeness where
  fits b line := line = b.queue.line ∧ I b
  late _ := False
  mono _ h := h
  fail hb := ⟨rfl, h.fail hb.2⟩
  retire w hb := ⟨hb.1, h.retire w hb.2⟩
  enlist w hb := by
    refine ⟨hb.1.trans ?_, h.enlist w hb.2⟩
    unfold Branch.enlist
    split <;> rfl
  schedule w hb := by
    obtain ⟨rfl, hb⟩ := hb
    exact ⟨rfl, h.schedule w hb⟩
  aside tree classes statistics log _ hb :=
    ⟨hb.1, h.aside tree classes statistics log hb.2⟩
  notify unifying path hb := by
    obtain ⟨rfl, hb⟩ := hb
    exact Or.inr ⟨rfl, h.notify unifying path hb⟩

-- Two lines with what is pending in the same order, until a constraint is taken back into service.
def inOrder (reactivations : Nat) : Likeness where
  fits b line := reactivations ≤ b.statistics.reactivations ∧ b.InOrder ∧ (b.lined line).InOrder
  late n := reactivations < n
  mono h hm := Nat.lt_of_lt_of_le hm h
  fail h := ⟨h.1, .fail _, .fail _⟩
  retire w h := ⟨h.1, h.2.1.retire w, h.2.2.retire w⟩
  enlist {b line} w h := by
    refine ⟨?_, h.2.1.enlist w, b.enlist_lined line w ▸ h.2.2.enlist w⟩
    unfold Branch.enlist
    split <;> exact h.1
  schedule {b line} w h := by
    refine ⟨?_, h.2.1.schedule w, b.schedule_lined line w ▸ h.2.2.schedule w⟩
    unfold Branch.schedule
    split <;> exact h.1
  aside tree classes statistics log same h :=
    ⟨same ▸ h.1, h.2.1.aside tree classes statistics log, h.2.2.aside tree classes statistics log⟩
  notify {b line} unifying path h := by
    have hle := b.reactivations_notify unifying path
    rcases h.2.1.notify unifying path with hlt | hb
    · exact Or.inl (Nat.lt_of_le_of_lt h.1 hlt)
    · rcases h.2.2.notify unifying path with hlt | hc
      · rw [b.notify_lined line unifying path] at hlt
        exact Or.inl (Nat.lt_of_le_of_lt h.1 hlt)
      · exact Or.inr ⟨Nat.le_trans h.1 hle, hb, b.notify_lined line unifying path ▸ hc⟩

theorem mirrors_pop_own {I : Branch → Prop} (h : Branch.Stable I) :
    BranchM.Mirrors (own h) BranchM.pop := by
  refine ⟨fun _ hb => hb, fun b line hb => Or.inr ?_⟩
  obtain ⟨rfl, hb⟩ := hb
  exact ⟨b.popped.queue.line, rfl, rfl, h.popped hb⟩

-- The same constraint is next in both lines.
theorem mirrors_pop_inOrder (n : Nat) : BranchM.Mirrors (inOrder n) BranchM.pop := by
  refine ⟨fun _ h => h, fun b line h => Or.inr ⟨(b.lined line).queue.pop.2.line, ?_⟩⟩
  obtain ⟨hle, hb, hc⟩ := h
  obtain ⟨hnext, hpending, -⟩ := hb.order.pop
  obtain ⟨hnext', hpending', -⟩ := hc.order.pop
  have hsame : (b.lined line).popped = b.popped.lined (b.lined line).queue.pop.2.line := by
    show ({ b with queue := ⟨(b.lined line).queue.pop.2.line, (b.lined line).queue.pop.2.pending⟩ } : Branch) =
      { b with queue := ⟨(b.lined line).queue.pop.2.line, b.queue.pop.2.pending⟩ }
    rw [hpending', hpending]
    rfl
  refine ⟨?_, hle, hb.popped, hsame ▸ hc.popped⟩
  have hfirst : (b.lined line).queue.pop.1 = b.queue.pop.1 := hnext'.trans hnext.symm
  show EStateM.Result.ok (b.lined line).queue.pop.1 (b.lined line).popped =
    .ok b.queue.pop.1 (b.popped.lined (b.lined line).queue.pop.2.line)
  rw [hsame, hfirst]

end Likeness

namespace Branch

variable {S : Likeness}

-- What the line of a branch fits, the lines of later branches fit as well, unless it is too late.
theorem start_fits (S : Likeness) {fuel : Nat} (start : Branch.start p fuel root = .ok a)
    (hroot : S.fits (.of root) []) : S.late a.statistics.reactivations ∨ S.fits a a.queue.line := by
  have h := BranchM.inherited_mirrors S
  have hshow : BranchM.Mirrors S ((root.positions []).forM fun x =>
      BranchM.whenFeasible (BranchM.announce p (BranchM.fillClass p fuel) false x.1)) :=
    h.forM fun x _ => h.whenFeasible
      (BranchM.mirrors_announce p S (BranchM.mirrors_fillClass p S fuel) false x.1)
  exact (hshow.own (Or.inr hroot)).ok (start_eq_ok.mp start).2

theorem Ran.fits (hpop : BranchM.Mirrors S BranchM.pop)
    (hfork : ∀ b, S.fits b b.queue.line → S.fits b.fork b.fork.queue.line) {commands : List Command}
    (h : a.Ran p commands b) (ha : S.late a.statistics.reactivations ∨ S.fits a a.queue.line) :
    S.late b.statistics.reactivations ∨ S.fits b b.queue.line := by
  induction h with
  | refl => exact ha
  | fork _ ih => exact ih.imp_right (hfork _)
  | command command _ done ih => exact ((BranchM.mirrors_command p S _ command fun _ => hpop).own ih).ok done
  | halt command _ halted ih =>
      exact ((BranchM.mirrors_command p S _ command fun _ => hpop).own ih).error halted

-- What every change keeps holds whatever is asked of a branch.
theorem Ran.stable {I : Branch → Prop} (hI : Stable I) {fuel : Nat}
    (start : Branch.start p fuel root = .ok a) (hroot : I (.of root)) {commands : List Command}
    (h : a.Ran p commands b) : I b := by
  have hb := h.fits (Likeness.mirrors_pop_own hI) (fun b hb => ⟨rfl, hI.fork hb.2⟩)
    (start_fits (Likeness.own hI) start ⟨rfl, hroot⟩)
  exact (hb.resolve_left id).2

-- Only what is watched has a place in the line.
theorem Ran.listed {fuel : Nat} (start : Branch.start p fuel root = .ok a) {commands : List Command}
    (h : a.Ran p commands b) : b.Listed :=
  h.stable stable_listed start ⟨Worklist.proper_empty, nofun⟩

-- Until a constraint is taken back into service for the first time, the queue is in order.
theorem Ran.inOrder {fuel : Nat} (start : Branch.start p fuel root = .ok a) {commands : List Command}
    (h : a.Ran p commands b) (hnone : b.statistics.reactivations = 0) : b.InOrder := by
  have hroot : (Branch.of root).InOrder := ⟨⟨Worklist.proper_empty, nofun⟩, rfl⟩
  have hb := h.fits (Likeness.mirrors_pop_inOrder 0) (fun b hb => ⟨Nat.zero_le _, hb.2.1.fork, hb.2.1.fork⟩)
    (start_fits (Likeness.inOrder 0) start ⟨Nat.zero_le _, hroot, hroot⟩)
  exact (hb.resolve_left fun hlate => absurd hnone (Nat.ne_of_gt hlate)).2.1

end Branch

end TreeSearch
