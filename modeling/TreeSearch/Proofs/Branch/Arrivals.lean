import Mathlib.Data.Set.Card
import TreeSearch.Proofs.Branch.Sound

namespace TreeSearch

namespace Worklist

-- What can happen to a queue, with the answers it gives.
inductive Event (α : Type) where
  | added (a : α) (new : Bool)
  | removed (a : α) (present : Bool)
  | popped (found : Option α)
  | cleared
  | copied

section Past

variable {α : Type} {past : List (Event α)} {event : Event α} {a b : α}

-- A past has the latest event first. Some event is a hit, and none after it stops its effect.
def Since (stops : Event α → Prop) (hit : Event α → List (Event α) → Prop)
    (past : List (Event α)) : Prop :=
  ∃ since event before, past = since ++ event :: before ∧ hit event before ∧
    ∀ later ∈ since, ¬ stops later

theorem not_since_nil {stops : Event α → Prop} {hit : Event α → List (Event α) → Prop} :
    ¬ Since stops hit [] := by
  rintro ⟨since, event, before, h, -⟩
  exact List.append_ne_nil_of_right_ne_nil since (List.cons_ne_nil event before) h.symm

theorem since_cons {stops : Event α → Prop} {hit : Event α → List (Event α) → Prop} :
    Since stops hit (event :: past) ↔ hit event past ∨ ¬ stops event ∧ Since stops hit past := by
  constructor
  · rintro ⟨since, e, before, h, hhit, hlater⟩
    cases since with
    | nil =>
        obtain ⟨rfl, rfl⟩ := List.cons.inj h
        exact Or.inl hhit
    | cons latest since =>
        obtain ⟨rfl, rfl⟩ := List.cons.inj h
        exact Or.inr ⟨hlater _ List.mem_cons_self, since, e, before, rfl, hhit,
          fun later hm => hlater later (List.mem_cons_of_mem _ hm)⟩
  · rintro (hhit | ⟨hevent, since, e, before, rfl, hhit, hlater⟩)
    · exact ⟨[], event, past, rfl, hhit, by simp⟩
    · exact ⟨event :: since, e, before, rfl, hhit, by simpa using ⟨hevent, hlater⟩⟩

-- The events that take an item out of the queue.
def Event.Takes (a : α) : Event α → Prop
  | .added _ _ => False
  | .removed b _ => b = a
  | .popped found => found = some a
  | .cleared => True
  | .copied => False

-- What was added, and not removed, popped or cleared since then.
def contents (past : List (Event α)) : Set α :=
  {a | Since (Event.Takes a) (fun event _ => ∃ new, event = .added a new) past}

theorem contents_nil : contents ([] : List (Event α)) = ∅ :=
  Set.eq_empty_of_forall_notMem fun _ => not_since_nil

theorem mem_contents_cons :
    a ∈ contents (event :: past) ↔ (∃ new, event = .added a new) ∨ ¬ event.Takes a ∧ a ∈ contents past :=
  since_cons

theorem contents_added (a : α) (new : Bool) : contents (.added a new :: past) = insert a (contents past) := by
  ext b
  rw [mem_contents_cons]
  simp [Event.Takes, eq_comm]

theorem contents_removed (a : α) (present : Bool) :
    contents (.removed a present :: past) = contents past \ {a} := by
  ext b
  rw [mem_contents_cons]
  simp [Event.Takes, and_comm, eq_comm]

theorem contents_popped (a : α) : contents (.popped (some a) :: past) = contents past \ {a} := by
  ext b
  rw [mem_contents_cons]
  simp [Event.Takes, and_comm, eq_comm]

-- The events after which no place of the line is left behind: those that leave no place at all,
-- and copies.
def Event.Empties : Event α → Prop
  | .popped none | .cleared => True
  | _ => False

def Event.Sweeps : Event α → Prop
  | .copied => True
  | event => event.Empties

-- An item that was removed may have left a place behind.
def Vacated (past : List (Event α)) (a : α) : Prop :=
  Since Event.Sweeps (fun event _ => event = .removed a true) past

-- An item that came back after it had left a place behind.
def Returned (past : List (Event α)) (a : α) : Prop :=
  Since Event.Empties (fun event before => event = .added a true ∧ Vacated before a) past

-- The last time that one item was new is before the last time that another one was.
def Sooner (past : List (Event α)) (a b : α) : Prop :=
  Since (· = .added a true) (fun event before => event = .added b true ∧ .added a true ∈ before) past

-- Some time that one item was new is before the last time that another one was.
def Preceded (past : List (Event α)) (a b : α) : Prop :=
  Since (· = .added b true) (fun event before => event = .added b true ∧ .added a true ∈ before) past

theorem vacated_cons :
    Vacated (event :: past) a ↔ event = .removed a true ∨ ¬ event.Sweeps ∧ Vacated past a :=
  since_cons

theorem not_sooner_nil : ¬ Sooner [] a b := not_since_nil

theorem returned_cons : Returned (event :: past) a ↔
    event = .added a true ∧ Vacated past a ∨ ¬ event.Empties ∧ Returned past a :=
  since_cons

theorem sooner_cons : Sooner (event :: past) a b ↔
    event = .added b true ∧ .added a true ∈ past ∨ event ≠ .added a true ∧ Sooner past a b :=
  since_cons

theorem preceded_cons : Preceded (event :: past) a b ↔
    event = .added b true ∧ .added a true ∈ past ∨ event ≠ .added b true ∧ Preceded past a b :=
  since_cons

theorem sooner_or_sooner (hne : a ≠ b) (ha : .added a true ∈ past) (hb : .added b true ∈ past) :
    Sooner past a b ∨ Sooner past b a := by
  induction past with
  | nil => cases ha
  | cons event past ih =>
      rw [sooner_cons, sooner_cons]
      by_cases hea : event = .added a true
      · have heb : event ≠ .added b true := fun heb => hne (by simpa using hea.symm.trans heb)
        exact Or.inr (Or.inl ⟨hea, (List.mem_cons.mp hb).resolve_left heb.symm⟩)
      · by_cases heb : event = .added b true
        · exact Or.inl (Or.inl ⟨heb, (List.mem_cons.mp ha).resolve_left (Ne.symm hea)⟩)
        · have hpast := ih ((List.mem_cons.mp ha).resolve_left (Ne.symm hea))
            ((List.mem_cons.mp hb).resolve_left (Ne.symm heb))
          exact hpast.imp (fun h => Or.inr ⟨hea, h⟩) fun h => Or.inr ⟨heb, h⟩

end Past

variable {α : Type} [DecidableEq α] {past : List (Event α)} {q : Worklist α} {a b : α}

-- The queues that arise, with their pasts. A copy goes on from the past of its original, and so
-- does the original.
inductive Arises : List (Event α) → Worklist α → Prop
  | empty : Arises [] .empty
  | add {past : List (Event α)} {q : Worklist α} (a : α) (h : Arises past q) :
      Arises (.added a (q.offer a).1 :: past) (q.offer a).2
  | remove {past : List (Event α)} {q : Worklist α} (a : α) (h : Arises past q) :
      Arises (.removed a (q.withdraw a).1 :: past) (q.withdraw a).2
  | pop {past : List (Event α)} {q : Worklist α} (h : Arises past q) : Arises (.popped q.pop.1 :: past) q.pop.2
  | clear {past : List (Event α)} {q : Worklist α} (h : Arises past q) : Arises (.cleared :: past) .empty
  | copy {past : List (Event α)} {q : Worklist α} (h : Arises past q) : Arises (.copied :: past) q.copy

theorem offer_of_mem (h : a ∈ q.pending) : q.offer a = (false, q) := if_pos h

theorem offer_of_not_mem (h : a ∉ q.pending) :
    q.offer a = (true, ⟨q.line ++ [a], q.pending ++ [a]⟩) := by
  rw [offer, if_neg h, add, if_neg h]

theorem withdraw_of_mem (h : a ∈ q.pending) : q.withdraw a = (true, q.remove a) := if_pos h

theorem withdraw_of_not_mem (h : a ∉ q.pending) : q.withdraw a = (false, q) := if_neg h

theorem offer_snd (q : Worklist α) (a : α) : (q.offer a).2 = q.add a := by
  unfold offer add
  split <;> rfl

theorem withdraw_snd (q : Worklist α) (a : α) : (q.withdraw a).2 = q.remove a := by
  unfold withdraw remove
  split
  · rfl
  · rename_i h
    rw [List.erase_of_not_mem h]

theorem Proper.pop_copy (hq : q.Proper) : q.copy.pop.1 = q.pop.1 := by
  rcases hq.pop_cases with ⟨a, skipped, rest, ha, hline, hskipped, hpop⟩ | ⟨hnil, hpop⟩
  · have hcopy : q.copy.line = a :: rest.filter (· ∈ q.pending) := by
      show q.line.filter (· ∈ q.pending) = _
      rw [hline, List.filter_append, List.filter_eq_nil_iff.mpr (by simpa using hskipped),
        List.filter_cons_of_pos (by simpa using ha), List.nil_append]
    have hnext : next? q.copy.pending q.copy.line = some (a, rest.filter (· ∈ q.pending)) := by
      rw [hcopy]
      exact if_pos ha
    rw [hpop, Worklist.pop, hnext]
  · rcases hq.copy.pop with ⟨a, -, ha, -⟩ | ⟨hnone, -⟩
    · exact absurd ha (by simp [Worklist.copy, hnil])
    · rw [hpop, hnone]

namespace Arises

theorem proper (h : Arises past q) : q.Proper := by
  induction h with
  | empty => exact proper_empty
  | add a _ ih => exact offer_snd _ a ▸ ih.add a
  | remove a _ ih => exact withdraw_snd _ a ▸ ih.remove a
  | pop _ ih =>
      rcases ih.pop with ⟨_, _, _, _, hpop⟩ | ⟨_, _, _, hpop⟩
      · exact hpop
      · exact hpop
  | clear => exact proper_empty
  | copy _ ih => exact ih.copy

-- What is pending is what the past tells.
theorem mem_contents_iff (h : Arises past q) {a : α} : a ∈ contents past ↔ a ∈ q.pending := by
  induction h with
  | empty => simp [contents_nil, Worklist.empty]
  | add b h ih =>
      rw [contents_added, offer_snd, mem_add, Set.mem_insert_iff, ih, or_comm]
  | remove b h ih =>
      rw [contents_removed, withdraw_snd, h.proper.mem_remove, Set.mem_sdiff, Set.mem_singleton_iff, ih]
  | pop h ih =>
      rcases h.proper.pop_cases with ⟨b, skipped, rest, -, -, -, hpop⟩ | ⟨hnil, hpop⟩
      · rw [hpop, contents_popped, Set.mem_sdiff, Set.mem_singleton_iff, ih, h.proper.nodup.mem_erase_iff,
          and_comm]
      · rw [mem_contents_cons, ih]
        simp [hpop, hnil, Worklist.empty]
  | clear => simp [mem_contents_cons, Event.Takes, Worklist.empty]
  | copy _ ih =>
      rw [mem_contents_cons, ih]
      simp [Event.Takes, Worklist.copy]

-- A queue holds what was added to it and not taken out since then, and each answer fits.
theorem behaves_as_set (h : Arises past q) :
    (∀ a, q.contains a = true ↔ a ∈ contents past) ∧
    q.size = (contents past).ncard ∧
    (q.isEmpty = true ↔ contents past = ∅) ∧
    (q.pop.1 = none ↔ contents past = ∅) ∧
    (∀ a, q.pop.1 = some a →
      a ∈ contents past ∧ contents (.popped q.pop.1 :: past) = contents past \ {a}) ∧
    (∀ a, (q.offer a).1 = true ↔ contents (.added a (q.offer a).1 :: past) ≠ contents past) ∧
    ∀ a, (q.withdraw a).1 = true ↔ contents (.removed a (q.withdraw a).1 :: past) ≠ contents past := by
  have hcontents : contents past = {a | a ∈ q.pending} := Set.ext fun a => h.mem_contents_iff
  have hempty : contents past = ∅ ↔ q.pending = [] := by
    rw [hcontents, Set.eq_empty_iff_forall_notMem, List.eq_nil_iff_forall_not_mem]
    rfl
  refine ⟨fun a => ?_, ?_, ?_, ?_, fun a ha => ?_, fun a => ?_, fun a => ?_⟩
  · rw [h.mem_contents_iff, contains, decide_eq_true_iff]
  · rw [hcontents, size, ← List.toFinset_card_of_nodup h.proper.nodup, ← Set.ncard_coe_finset]
    simp
  · rw [hempty, isEmpty, List.isEmpty_iff]
  · rw [hempty]
    rcases h.proper.pop with ⟨a, hfound, ha, -⟩ | ⟨hnone, hnil, -⟩
    · simp [hfound, List.ne_nil_of_mem ha]
    · simp [hnone, hnil]
  · rcases h.proper.pop with ⟨b, hfound, hb, -⟩ | ⟨hnone, -⟩
    · obtain rfl := Option.some.inj (ha.symm.trans hfound)
      exact ⟨h.mem_contents_iff.mpr hb, ha ▸ contents_popped a⟩
    · cases ha.symm.trans hnone
  · rw [contents_added, ne_eq, Set.insert_eq_self, h.mem_contents_iff]
    by_cases ha : a ∈ q.pending
    · simp [offer_of_mem ha, ha]
    · simp [offer_of_not_mem ha, ha]
  · rw [contents_removed, ne_eq, sdiff_eq_left, Set.disjoint_singleton_right, h.mem_contents_iff, not_not]
    by_cases ha : a ∈ q.pending
    · simp [withdraw_of_mem ha, ha]
    · simp [withdraw_of_not_mem ha, ha]

end Arises

omit [DecidableEq α] in
-- A place that is not passed over, and is not the one that is taken, stands behind it.
theorem split_after {skipped rest front back : List α} (h : skipped ++ a :: rest = front ++ b :: back)
    (hne : b ≠ a) (hb : b ∉ skipped) :
    ∃ middle, front = skipped ++ a :: middle ∧ rest = middle ++ b :: back := by
  rcases List.append_eq_append_iff.mp h with ⟨between, rfl, hrest⟩ | ⟨between, rfl, hback⟩
  · cases between with
    | nil => exact absurd (List.cons.inj hrest).1.symm hne
    | cons c middle =>
        obtain ⟨rfl, hbehind⟩ := List.cons.inj hrest
        exact ⟨middle, rfl, hbehind⟩
  · cases between with
    | nil => exact absurd (List.cons.inj hback).1 hne
    | cons c middle =>
        obtain ⟨rfl, -⟩ := List.cons.inj hback
        simp at hb

-- How the places of a line lie. What has a place has been new. If it is not pending, it was removed
-- and left the place behind, and what has more places than one came back. Each pending item has a
-- place behind those only that were taken before it was last new. And of two pending items, the one
-- that was last new sooner has a place before the other one, unless that one came back.
structure Tidy (past : List (Event α)) (q : Worklist α) : Prop where
  new : ∀ a ∈ q.line, .added a true ∈ past
  stale : ∀ a ∈ q.line, a ∉ q.pending → Vacated past a ∨ Returned past a
  single : ∀ a, 1 < q.line.count a → Returned past a
  behind : ∀ b ∈ q.pending, ∃ front back, q.line = front ++ b :: back ∧
    ∀ a ∈ front, a ≠ b → Preceded past a b
  order : ∀ a ∈ q.pending, ∀ b ∈ q.pending, a ≠ b → Sooner past a b → ¬ Returned past b →
    ∃ front back, q.line = front ++ a :: back ∧ b ∉ front

namespace Tidy

theorem empty (past : List (Event α)) : Tidy past .empty :=
  ⟨nofun, nofun, fun _ h => absurd h (by simp [Worklist.empty]), nofun, nofun⟩

-- An event that leaves the queue as it is.
theorem later (h : Tidy past q) (hold : ∀ a, event ≠ .added a true) (hsweeps : ¬ event.Sweeps) :
    Tidy (event :: past) q := by
  have hempties : ¬ event.Empties := fun he => hsweeps (by cases event <;> trivial)
  refine ⟨fun a ha => ?_, fun a ha hgone => ?_, fun a ha => ?_, fun b hb => ?_,
    fun a ha b hb hne hsooner hb' => ?_⟩
  · exact List.mem_cons_of_mem event (h.new a ha)
  · rw [vacated_cons, returned_cons]
    exact (h.stale a ha hgone).imp (fun hv => Or.inr ⟨hsweeps, hv⟩) fun hr => Or.inr ⟨hempties, hr⟩
  · exact returned_cons.mpr (Or.inr ⟨hempties, h.single a ha⟩)
  · obtain ⟨front, back, hline, hfront⟩ := h.behind b hb
    exact ⟨front, back, hline, fun a ha hne => preceded_cons.mpr (Or.inr ⟨hold b, hfront a ha hne⟩)⟩
  · rcases sooner_cons.mp hsooner with ⟨he, -⟩ | ⟨-, hsooner⟩
    · exact absurd he (hold b)
    · exact h.order a ha b hb hne hsooner fun hr => hb' (returned_cons.mpr (Or.inr ⟨hempties, hr⟩))

-- Only an item that left a place behind has two of them when it is new.
theorem add (h : Tidy past q) (hq : q.Proper) (ha : a ∉ q.pending) :
    Tidy (.added a true :: past) ⟨q.line ++ [a], q.pending ++ [a]⟩ := by
  have hmem {b : α} {items : List α} : b ∈ items ++ [a] ↔ b = a ∨ b ∈ items := by simp [or_comm]
  have hsplit {b : α} {front back : List α} (hline : q.line = front ++ b :: back) :
      q.line ++ [a] = front ++ b :: (back ++ [a]) := by rw [hline, List.append_assoc, List.cons_append]
  have hback (hline : a ∈ q.line) : Returned (.added a true :: past) a :=
    returned_cons.mpr ((h.stale a hline ha).imp (fun hv => ⟨rfl, hv⟩) fun hr => ⟨id, hr⟩)
  refine ⟨fun b hb => ?_, fun b hb hgone => ?_, fun b hb => ?_, fun b hb => ?_,
    fun b hb c hc hne hsooner hc' => ?_⟩
  · rcases hmem.mp hb with rfl | hb
    · exact List.mem_cons_self
    · exact List.mem_cons_of_mem _ (h.new b hb)
  · have hne : b ≠ a := fun he => hgone (hmem.mpr (Or.inl he))
    have hpast := h.stale b ((hmem.mp hb).resolve_left hne) fun hp => hgone (hmem.mpr (Or.inr hp))
    rw [vacated_cons, returned_cons]
    exact hpast.imp (fun hv => Or.inr ⟨id, hv⟩) fun hr => Or.inr ⟨id, hr⟩
  · have hcount : 1 < q.line.count b + [a].count b := by rwa [← List.count_append]
    by_cases hne : b = a
    · subst hne
      rw [List.count_singleton_self] at hcount
      exact hback (List.count_pos_iff.mp (Nat.lt_of_succ_lt_succ hcount))
    · rw [List.count_singleton, if_neg (by simpa using Ne.symm hne)] at hcount
      exact returned_cons.mpr (Or.inr ⟨id, h.single b hcount⟩)
  · by_cases hne : b = a
    · subst hne
      exact ⟨q.line, [], rfl, fun c hc _ => preceded_cons.mpr (Or.inl ⟨rfl, h.new c hc⟩)⟩
    · obtain ⟨front, back, hline, hfront⟩ := h.behind b ((hmem.mp hb).resolve_left hne)
      have hlatest : Event.added a true ≠ .added b true := by simpa using Ne.symm hne
      exact ⟨front, back ++ [a], hsplit hline,
        fun c hc hcb => preceded_cons.mpr (Or.inr ⟨hlatest, hfront c hc hcb⟩)⟩
  · have hold {c : α} (hc' : ¬ Returned (.added a true :: past) c) : ¬ Returned past c :=
      fun hr => hc' (returned_cons.mpr (Or.inr ⟨id, hr⟩))
    by_cases hca : c = a
    · subst hca
      obtain ⟨front, back, hline⟩ := List.append_of_mem (hq.lined b ((hmem.mp hb).resolve_left hne))
      refine ⟨front, back ++ [c], hsplit hline, fun hc => ?_⟩
      exact hc' (hback (hline ▸ List.mem_append_left _ hc))
    · rcases sooner_cons.mp hsooner with ⟨he, -⟩ | ⟨hba, hsooner⟩
      · exact absurd (by simpa using he.symm) hca
      · have hb := (hmem.mp hb).resolve_left fun he => hba (by rw [he])
        obtain ⟨front, back, hline, hfront⟩ :=
          h.order b hb c ((hmem.mp hc).resolve_left hca) hne hsooner (hold hc')
        exact ⟨front, back ++ [a], hsplit hline, hfront⟩

theorem remove (h : Tidy past q) (hq : q.Proper) (a : α) : Tidy (.removed a true :: past) (q.remove a) := by
  have hlater : Tidy (.removed a true :: past) q := h.later (by simp) id
  have hmem {b : α} (hb : b ∈ (q.remove a).pending) : b ∈ q.pending := List.mem_of_mem_erase hb
  refine ⟨hlater.new, fun b hb hgone => ?_, hlater.single, fun b hb => hlater.behind b (hmem hb),
    fun b hb c hc => hlater.order b (hmem hb) c (hmem hc)⟩
  rw [hq.mem_remove, not_and_not_right] at hgone
  by_cases hp : b ∈ q.pending
  · obtain rfl := hgone hp
    exact Or.inl (vacated_cons.mpr (Or.inl rfl))
  · exact hlater.stale b hb hp

-- A pop passes over places that were left behind and takes the first place that counts.
theorem pop {skipped rest : List α} (h : Tidy past q) (hq : q.Proper) (hline : q.line = skipped ++ a :: rest)
    (hskipped : ∀ b ∈ skipped, b ∉ q.pending) :
    Tidy (.popped (some a) :: past) ⟨rest, q.pending.erase a⟩ := by
  have hlater : Tidy (.popped (some a) :: past) q := h.later (by simp) id
  have hmem {b : α} : b ∈ q.pending.erase a ↔ b ≠ a ∧ b ∈ q.pending := hq.nodup.mem_erase_iff
  have hrest {b : α} (hb : b ∈ rest) : b ∈ q.line := by simp [hline, hb]
  have hcount (b : α) : q.line.count b = skipped.count b + (rest.count b + [a].count b) := by
    rw [hline, List.count_append, ← List.singleton_append, List.count_append, Nat.add_comm ([a].count b)]
  have hbehind {b : α} {front back : List α} (hb : b ∈ q.pending.erase a)
      (hsplit : q.line = front ++ b :: back) : ∃ middle,
        front = skipped ++ a :: middle ∧ rest = middle ++ b :: back :=
    split_after (hline.symm.trans hsplit) (hmem.mp hb).1 fun hs => hskipped b hs (hmem.mp hb).2
  refine ⟨fun b hb => hlater.new b (hrest hb), fun b hb hgone => ?_, fun b hb => ?_, fun b hb => ?_,
    fun b hb c hc hbc hsooner hc' => ?_⟩
  · by_cases hne : b = a
    · subst hne
      refine Or.inr (hlater.single b ?_)
      have hleft : 0 < rest.count b := List.count_pos_iff.mpr hb
      rw [hcount, List.count_singleton_self]
      omega
    · exact hlater.stale b (hrest hb) fun hp => hgone (hmem.mpr ⟨hne, hp⟩)
  · refine hlater.single b ?_
    have hb : 1 < rest.count b := hb
    rw [hcount]
    omega
  · obtain ⟨front, back, hsplit, hfront⟩ := hlater.behind b (hmem.mp hb).2
    obtain ⟨middle, rfl, hleft⟩ := hbehind hb hsplit
    exact ⟨middle, back, hleft, fun c hc => hfront c (by simp [hc])⟩
  · obtain ⟨front, back, hsplit, hfront⟩ :=
      hlater.order b (hmem.mp hb).2 c (hmem.mp hc).2 hbc hsooner hc'
    obtain ⟨middle, rfl, hleft⟩ := hbehind hb hsplit
    exact ⟨middle, back, hleft, fun hc => hfront (by simp [hc])⟩

-- A copy has the places of pending items only, in the same order.
theorem copy (h : Tidy past q) : Tidy (.copied :: past) q.copy := by
  have hsplit {b : α} {front back : List α} (hb : b ∈ q.pending) (hline : q.line = front ++ b :: back) :
      q.copy.line = front.filter (· ∈ q.pending) ++ b :: back.filter (· ∈ q.pending) := by
    show q.line.filter (· ∈ q.pending) = _
    rw [hline, List.filter_append, List.filter_cons_of_pos (by simpa using hb)]
  refine ⟨fun b hb => ?_, fun b hb hgone => ?_, fun b hb => ?_, fun b hb => ?_,
    fun b hb c hc hne hsooner hc' => ?_⟩
  · exact List.mem_cons_of_mem _ (h.new b (List.mem_of_mem_filter hb))
  · exact absurd (of_decide_eq_true (List.mem_filter.mp hb).2) hgone
  · have hcount : q.copy.line.count b ≤ q.line.count b := List.Sublist.count_le b List.filter_sublist
    exact returned_cons.mpr (Or.inr ⟨id, h.single b (Nat.lt_of_lt_of_le hb hcount)⟩)
  · obtain ⟨front, back, hline, hfront⟩ := h.behind b hb
    refine ⟨_, _, hsplit hb hline, fun c hc hne => preceded_cons.mpr (Or.inr ⟨by simp, ?_⟩)⟩
    exact hfront c (List.mem_of_mem_filter hc) hne
  · rcases sooner_cons.mp hsooner with ⟨he, -⟩ | ⟨-, hsooner⟩
    · cases he
    · have hback : ¬ Returned past c := fun hr => hc' (returned_cons.mpr (Or.inr ⟨id, hr⟩))
      obtain ⟨front, back, hline, hfront⟩ := h.order b hb c hc hne hsooner hback
      exact ⟨_, _, hsplit hb hline, fun hc => hfront (List.mem_of_mem_filter hc)⟩

end Tidy

namespace Arises

theorem tidy (h : Arises past q) : Tidy past q := by
  induction h with
  | empty => exact .empty []
  | @add past q a h ih =>
      by_cases ha : a ∈ q.pending
      · rw [offer_of_mem ha]
        exact ih.later (by simp) id
      · rw [offer_of_not_mem ha]
        exact ih.add h.proper ha
  | @remove past q a h ih =>
      by_cases ha : a ∈ q.pending
      · rw [withdraw_of_mem ha]
        exact ih.remove h.proper a
      · rw [withdraw_of_not_mem ha]
        exact ih.later (by simp) id
  | pop h ih =>
      rcases h.proper.pop_cases with ⟨a, skipped, rest, -, hline, hskipped, hpop⟩ | ⟨-, hpop⟩
      · rw [hpop]
        exact ih.pop h.proper hline hskipped
      · rw [hpop]
        exact .empty _
  | clear => exact .empty _
  | copy _ ih => exact ih.copy

-- What is taken was new before any other item was last new, and it was itself last new before any
-- other item was, unless it has come back to a place that it left behind. A copy gives the same.
theorem pop_oldest (h : Arises past q) :
    (contents past = ∅ → q.pop.1 = none) ∧
    (contents past ≠ ∅ → ∃ a ∈ contents past, q.pop.1 = some a ∧ ∀ b ∈ contents past, b ≠ a →
      Preceded past a b ∧ (Sooner past a b ∨ Returned past a)) ∧
    q.copy.pop.1 = q.pop.1 := by
  rcases h.proper.pop_cases with ⟨a, skipped, rest, ha, hline, hskipped, hpop⟩ | ⟨hnil, hpop⟩
  · have hmem : a ∈ contents past := h.mem_contents_iff.mpr ha
    refine ⟨fun hempty => absurd (hempty ▸ hmem) (Set.notMem_empty a), fun _ => ?_, h.proper.pop_copy⟩
    refine ⟨a, hmem, by rw [hpop], fun b hb hne => ?_⟩
    have hb := h.mem_contents_iff.mp hb
    have hfirst {front back : List α} (hsplit : q.line = front ++ b :: back) : a ∈ front := by
      obtain ⟨middle, rfl, -⟩ := split_after (hline.symm.trans hsplit) hne fun hs => hskipped b hs hb
      simp
    constructor
    · obtain ⟨front, back, hsplit, hfront⟩ := h.tidy.behind b hb
      exact hfront a (hfirst hsplit) hne.symm
    · refine or_iff_not_imp_right.mpr fun hback => ?_
      have hnew {c : α} (hc : c ∈ q.pending) : .added c true ∈ past := h.tidy.new c (h.proper.lined c hc)
      refine (sooner_or_sooner hne.symm (hnew ha) (hnew hb)).resolve_right fun hsooner => ?_
      -- The other item would have a place before the one that is taken.
      obtain ⟨front, back, hsplit, hfront⟩ := h.tidy.order b hb a ha hne hsooner hback
      exact hfront (hfirst hsplit)
  · have hempty : contents past = ∅ :=
      Set.eq_empty_of_forall_notMem fun a ha => by simpa [hnil] using h.mem_contents_iff.mp ha
    exact ⟨fun _ => by rw [hpop], fun hne => absurd hempty hne, h.proper.pop_copy⟩

end Arises

def asked (rule : Int) : Watch := ⟨[], .contains rule⟩

-- Rule 0 was asked for before rule 1, and is not asked for any more.
def askedAndLeft : List (Event Watch) :=
  [.removed (asked 0) true, .added (asked 1) true, .added (asked 0) true]

theorem arises_askedAndLeft : Arises askedAndLeft ⟨[asked 0, asked 1], [asked 1]⟩ :=
  .remove (asked 0) (.add (asked 1) (.add (asked 0) .empty))

theorem behaves_as_set_askedAndLeft : Arises askedAndLeft ⟨[asked 0, asked 1], [asked 1]⟩ ∧
    contents askedAndLeft = {asked 1} ∧
    (Worklist.mk [asked 0, asked 1] [asked 1]).size = (contents askedAndLeft).ncard ∧
    contents (.popped (some (asked 1)) :: askedAndLeft) = contents askedAndLeft \ {asked 1} := by
  have h := arises_askedAndLeft.behaves_as_set
  refine ⟨arises_askedAndLeft, ?_, h.2.1, (h.2.2.2.2.1 (asked 1) rfl).2⟩
  refine Set.ext fun a => (h.1 a).symm.trans ?_
  rw [contains, decide_eq_true_iff, List.mem_singleton, Set.mem_singleton_iff]

-- Rule 0 is asked for again, and is served before rule 1, which has been waiting longer. On a copy
-- that was made before, rule 1 is served.
theorem pop_oldest_askedAgain :
    let q : Worklist Watch := ⟨[asked 0, asked 1, asked 0], [asked 1, asked 0]⟩
    let past := .added (asked 0) true :: askedAndLeft
    let other : Worklist Watch := ⟨[asked 1, asked 0], [asked 1, asked 0]⟩
    let otherPast := .added (asked 0) true :: .copied :: askedAndLeft
    Arises past q ∧ Sooner past (asked 1) (asked 0) ∧ q.pop.1 = some (asked 0) ∧ Returned past (asked 0) ∧
      Arises otherPast other ∧ Sooner otherPast (asked 1) (asked 0) ∧ other.pop.1 = some (asked 1) := by
  intro q past other otherPast
  have hq : Arises past q := arises_askedAndLeft.add (asked 0)
  have hother : Arises otherPast other := arises_askedAndLeft.copy.add (asked 0)
  have hsooner {past : List (Event Watch)} (h : .added (asked 1) true ∈ past) :
      Sooner (.added (asked 0) true :: past) (asked 1) (asked 0) :=
    sooner_cons.mpr (Or.inl ⟨rfl, h⟩)
  have hwaiting : asked 1 ∈ contents past := hq.mem_contents_iff.mpr (by decide)
  obtain ⟨a, -, hfound, holdest⟩ := hq.pop_oldest.2.1 (Set.nonempty_iff_ne_empty.mp ⟨asked 1, hwaiting⟩)
  obtain rfl : asked 0 = a := Option.some.inj hfound
  have hback : Returned past (asked 0) := by
    refine (holdest (asked 1) hwaiting (by decide)).2.resolve_left fun h => ?_
    simp [past, askedAndLeft, sooner_cons, not_sooner_nil, asked] at h
  exact ⟨hq, hsooner (by simp [askedAndLeft]), rfl, hback, hother, hsooner (by simp [askedAndLeft]), rfl⟩

end Worklist

end TreeSearch
