import TreeSearch.Proofs.Branch.Forks

namespace TreeSearch

namespace OrderedSet

variable {α : Type} [DecidableEq α] {s : OrderedSet α}

theorem nodup_insert (h : s.toList.Nodup) (a : α) : (s.insert a).toList.Nodup := by
  unfold insert
  split
  · exact h
  · rename_i ha
    show (s.toList ++ [a]).Nodup
    exact List.nodup_append.mpr ⟨h, List.nodup_singleton a,
      fun b hb c hc he => ha (List.mem_singleton.mp hc ▸ he ▸ hb)⟩

theorem nodup_insertAll (h : s.toList.Nodup) (items : List α) : (s.insertAll items).toList.Nodup := by
  induction items generalizing s with
  | nil => exact h
  | cons a items ih => exact ih (nodup_insert h a)

theorem nodup_erase (h : s.toList.Nodup) (a : α) : (s.erase a).toList.Nodup := h.filter _

end OrderedSet

namespace Branch

variable {p : Problem} {a b : Branch} {root : Tree}

-- The collections of constraints as they should be.
structure Booked (b : Branch) : Prop where
  apart : ∀ w ∈ b.active, w ∉ b.retired
  active : b.active.toList.Nodup
  retired : b.retired.toList.Nodup
  proper : b.queue.Proper
  queued : ∀ w ∈ b.queue.pending, w ∈ b.active

namespace Booked

theorem fail (h : b.Booked) : b.fail.Booked :=
  ⟨h.apart, h.active, h.retired, Worklist.proper_empty, nofun⟩

-- A constraint that retires leaves the queue along with the active ones.
theorem retire (h : b.Booked) (w : Watch) : (b.retire w).Booked where
  apart v hv := by
    obtain ⟨hactive, hne⟩ := (OrderedSet.mem_erase b.active w v).mp hv
    intro hr
    obtain hr | he := (OrderedSet.mem_insert b.retired w v).mp hr
    · exact h.apart v hactive hr
    · exact hne he
  active := OrderedSet.nodup_erase h.active w
  retired := OrderedSet.nodup_insert h.retired w
  proper := h.proper.remove w
  queued v hv := by
    obtain ⟨hpending, hne⟩ := (h.proper.mem_remove w v).mp hv
    exact (OrderedSet.mem_erase b.active w v).mpr ⟨h.queued v hpending, hne⟩

theorem enlist (h : b.Booked) (w : Watch) : (b.enlist w).Booked := by
  unfold Branch.enlist
  split
  · exact h
  · rename_i hnew
    have hmem (v : Watch) : v ∈ b.active.insert w ↔ v ∈ b.active ∨ v = w :=
      OrderedSet.mem_insert b.active w v
    refine ⟨fun v hv => ?_, OrderedSet.nodup_insert h.active w, h.retired, h.proper, fun v hv => ?_⟩
    · obtain hv | rfl := (hmem v).mp hv
      · exact h.apart v hv
      · exact fun hr => hnew (Or.inr hr)
    · exact (hmem v).mpr (Or.inl (h.queued v hv))

-- Nothing but an active constraint can be scheduled.
theorem schedule (h : b.Booked) (w : Watch) : (b.schedule w).Booked := by
  unfold Branch.schedule
  split
  · rename_i hw
    refine ⟨h.apart, h.active, h.retired, h.proper.add w, fun v hv => ?_⟩
    obtain hv | rfl := (Worklist.mem_add b.queue w v).mp hv
    · exact h.queued v hv
    · exact hw
  · exact h

-- What is taken back into service is moved from the one collection to the other before it is
-- queued.
theorem notify (h : b.Booked) (unifying : Bool) (path : Path) : (b.notify unifying path).Booked where
  apart v hv hr := by
    rw [mem_notify_active] at hv
    rw [mem_notify_retired] at hr
    obtain hv | ⟨hu, -, hminds⟩ := hv
    · exact h.apart v hv hr.1
    · exact hr.2 ⟨hu, hminds⟩
  active := by
    cases unifying with
    | false => exact h.active
    | true => exact OrderedSet.nodup_insertAll h.active _
  retired := by
    cases unifying with
    | false => exact h.retired
    | true => exact h.retired.filter _
  proper := b.proper_notify_queue path unifying h.proper
  queued v hv := by
    rw [mem_notify_pending] at hv
    obtain hv | ⟨hactive, -⟩ := hv
    · rw [mem_notify_active]
      exact Or.inl (h.queued v hv)
    · exact hactive

theorem popped (h : b.Booked) : b.popped.Booked := by
  obtain ⟨w, -, -, hpending, hproper⟩ | ⟨-, -, hpending, hproper⟩ := h.proper.pop
  · refine ⟨h.apart, h.active, h.retired, hproper, fun v hv => h.queued v ?_⟩
    have hv : v ∈ b.queue.pending.erase w := hpending ▸ hv
    exact List.mem_of_mem_erase hv
  · refine ⟨h.apart, h.active, h.retired, hproper, fun v hv => ?_⟩
    have hv : v ∈ ([] : List Watch) := hpending ▸ hv
    exact absurd hv List.not_mem_nil

theorem fork (h : b.Booked) : b.fork.Booked :=
  ⟨h.apart, h.active, h.retired, h.proper.copy, h.queued⟩

end Booked

theorem stable_booked : Stable Booked where
  fail h := h.fail
  retire w h := h.retire w
  enlist w h := h.enlist w
  schedule w h := h.schedule w
  notify unifying path h := h.notify unifying path
  popped h := h.popped
  fork h := h.fork
  aside _ _ _ _ h := ⟨h.apart, h.active, h.retired, h.proper, h.queued⟩

theorem booked_of (tree : Tree) : (Branch.of tree).Booked :=
  ⟨nofun, List.nodup_nil, List.nodup_nil, Worklist.proper_empty, nofun⟩

-- Whatever is asked of a branch and of its copies, and however it ends.
theorem Ran.bookkeeping {fuel : Nat} (start : Branch.start p fuel root = .ok a)
    {commands : List Command} (h : a.Ran p commands b) :
    (∀ w, ¬ (w ∈ b.active ∧ w ∈ b.retired)) ∧ b.active.toList.Nodup ∧ b.retired.toList.Nodup ∧
      ∀ w, b.queue.contains w = true → w ∈ b.active := by
  have hb := h.stable stable_booked start (booked_of root)
  refine ⟨fun w hw => hb.apart w hw.1 hw.2, hb.active, hb.retired, fun w hw => hb.queued w ?_⟩
  exact of_decide_eq_true hw

section Twins

-- A constraint that was queued when it retired and has been taken back into service since.
def twinsBack : Branch :=
  { twinsUnited with
    tree := .twins (.hole "S" (.ofList [1]))
    active := ⟨[oneLeaf]⟩
    queue := ⟨[oneLeaf, oneLeaf], [oneLeaf]⟩
    statistics := ⟨0, 2, 1, 0, 1⟩ }

theorem ran_twinsBack : twinsOpen.Ran .twins
    [.request (.post oneLeaf), .schedule oneLeaf, .retire oneLeaf, .request (.strike [0] 0),
      .request (.equate [0] [1]), .request (.strike [0] (-1))] twinsBack := by
  let posted : Branch := { twinsOpen with active := ⟨[oneLeaf]⟩, statistics := ⟨0, 0, 1, 0, 0⟩ }
  let queued : Branch := { posted with queue := ⟨[oneLeaf], [oneLeaf]⟩ }
  let retired : Branch := { posted with active := .empty, retired := ⟨[oneLeaf]⟩, queue := ⟨[oneLeaf], []⟩ }
  let struck : Branch := { retired with tree := .twinsStruck, statistics := ⟨0, 1, 1, 0, 0⟩ }
  have hpost : ((Command.request (.post oneLeaf)).work .twins 2).run twinsOpen = .ok () posted := rfl
  have hschedule : ((Command.schedule oneLeaf).work .twins 2).run posted = .ok () queued := rfl
  have hretire : ((Command.retire oneLeaf).work .twins 2).run queued = .ok () retired := rfl
  have hstrike : ((Command.request (.strike [0] 0)).work .twins 2).run retired = .ok () struck := rfl
  have hequate : ((Command.request (.equate [0] [1])).work .twins 2).run struck = .ok () twinsBack := rfl
  have hrefused : ((Command.request (.strike [0] (-1))).work .twins 2).run twinsBack.fork =
      .error (.fault .negativeShift) twinsBack := rfl
  have hback := Ran.command _ (.command _ (.command _ (.command _ (.command _ .refl hpost) hschedule)
    hretire) hstrike) hequate
  exact .halt _ (.fork hback) hrefused

theorem bookkeeping_twins : (∃ commands, twinsOpen.Ran .twins commands twinsBack) ∧
    (∀ w, ¬ (w ∈ twinsBack.active ∧ w ∈ twinsBack.retired)) ∧ twinsBack.active.toList.Nodup ∧
      twinsBack.retired.toList.Nodup ∧ ∀ w, twinsBack.queue.contains w = true → w ∈ twinsBack.active := by
  have hstart : Branch.start .twins 2 (.twins (.hole "S" (.ofList [0, 1]))) = .ok twinsOpen := rfl
  exact ⟨⟨_, ran_twinsBack⟩, ran_twinsBack.bookkeeping hstart⟩

end Twins

end Branch

end TreeSearch
