import Mathlib.Logic.Relation
import TreeSearch.Proofs.Branch.Sound

namespace TreeSearch

-- How the hole at a path is changed: it loses rules but not all, or it takes one of its
-- rules, with open children that have rules of their own, all of them within the depth limit.
inductive Edit (p : Problem) (path : Path) : Tree → Tree → Prop
  | narrowed {category : String} {rules kept : Domain} (sub : ∀ r ∈ kept, r ∈ rules)
      (ne : kept ≠ rules) (open_ : kept.isEmpty = false) :
      Edit p path (.hole category rules) (.hole category kept)
  | filled {category : String} {rules : Domain} {n : Nat} {production : Rule} {holes : List Tree}
      (mem : n ∈ rules) (found : p.grammar.rule? n = some production)
      (opened : List.Forall₂ (fun category hole => category ∈ p.grammar.categories ∧
        ∃ d : Domain, hole = .hole category d ∧ d.isEmpty = false ∧
          ∀ r : Nat, r ∈ d → p.grammar.Produces r category ∧ r ∈ p.shallowRules (path ++ [0]))
        production.children holes)
      (within : holes ≠ [] → ∀ limit ∈ p.bounds.maxDepth, path.length + 1 < limit) :
      Edit p path (.hole category rules) (.node n holes)

-- The trees in question are those of a set T.
inductive Move (p : Problem) (T : Tree → Prop) (b : Branch) : Branch → Prop
  | edit {path : Path} {old new tree : Tree} (unifying : Bool) (statistics : Statistics)
      (change : Edit p path old new) (replaced : Tree.Replaced old new path b.tree tree)
      (kept : ∀ t, T t → b.Covers t → ∃ s, t.get? path = some s ∧ s.Refines new) :
      Move p T b ({ b with tree, statistics }.notify unifying path)
  | fail (lost : ∀ t, T t → ¬ b.Covers t) : Move p T b b.fail
  | retire {w : Watch} (known : w ∈ b.active ∨ w ∈ b.retired) : Move p T b (b.retire w)
  | post {w : Watch} (statistics : Statistics) (constraint : w.constraint ∈ p.grammar.constraints)
      (fits : w.Fits) (placed : ∃ s, b.tree.get? w.path = some s) (fresh : w ∉ b.active)
      (fresh' : w ∉ b.retired) : Move p T b { b with active := b.active.insert w, statistics }
  | log (entry : Announcement) : Move p T b { b with log := entry :: b.log }
  | unite {first second : Path} (placed : ∃ s, b.tree.get? first = some s)
      (placed' : ∃ s, b.tree.get? second = some s)
      (equal : ∀ t, T t → b.Covers t → t.get? first = t.get? second) :
      Move p T b { b with classes := b.classes.unite first second }
  | count (statistics : Statistics) : Move p T b { b with statistics }

-- Any number of moves.
abbrev Moves (p : Problem) (T : Tree → Prop) : Branch → Branch → Prop :=
  Relation.ReflTransGen (Move p T)

-- Takes the next constraint off the queue.
def Branch.popped (b : Branch) : Branch := { b with queue := b.queue.pop.2 }

-- Moves with constraints taken off the queue in between.
abbrev Proceeds (p : Problem) (T : Tree → Prop) : Branch → Branch → Prop :=
  Relation.ReflTransGen fun b c => Move p T b c ∨ c = b.popped

theorem Moves.proceeds {p : Problem} {T : Tree → Prop} {b c : Branch} (h : Moves p T b c) :
    Proceeds p T b c := by
  induction h with
  | refl => exact .refl
  | tail _ hstep ih => exact ih.tail (Or.inl hstep)

variable {p : Problem} {T : Tree → Prop} {b c : Branch}

section Edits

variable {path : Path} {old new : Tree}

theorem Edit.refines (h : Edit p path old new) : new.Refines old := by
  cases h with
  | narrowed sub => exact .narrowed sub
  | filled mem => exact .filled mem

theorem Edit.wellFormed (h : Edit p path old new) {expected : Option String}
    (hw : p.grammar.WellFormed expected old) : p.grammar.WellFormed expected new := by
  cases h with
  | narrowed sub =>
      obtain ⟨known, fits, live⟩ := Grammar.wellFormed_hole_iff.mp hw
      exact .hole known fits fun r hr => live r (sub r hr)
  | @filled category rules n production holes mem found opened _ =>
      obtain ⟨-, fits, live⟩ := Grammar.wellFormed_hole_iff.mp hw
      obtain ⟨r, hr, hlive, hcategory⟩ := live n mem
      obtain rfl : production = r := Option.some.inj (found.symm.trans hr)
      refine .node hr hlive (fun c hc => hcategory.trans (fits c hc)) opened.length_eq.symm ?_
      intro i category hole hi hh
      obtain ⟨known, d, rfl, -, hd⟩ := List.forall₂_zip opened
        (List.mem_of_getElem? (List.getElem?_zip_eq_some.mpr ⟨hi, hh⟩))
      exact .hole known (by simp) fun r hr => (hd r hr).1

theorem Edit.old_hole (h : Edit p path old new) : ∃ category rules, old = .hole category rules := by
  cases h with
  | narrowed => exact ⟨_, _, rfl⟩
  | filled => exact ⟨_, _, rfl⟩

-- Positions that an edit does not open are neither at the path nor below it, except the
-- edited one itself.
theorem Edit.get?_of_replaced (h : Edit p path old new) {t u s : Tree} {other : Path}
    (hr : Tree.Replaced old new path t u) (hs : t.get? other = some s) :
    ∃ v, u.get? other = some v ∧ (¬ other <+: path → v = s) := by
  by_cases hpre : other <+: path
  · obtain ⟨v, hv, -⟩ := (hr.refines h.refines).get? hs
    exact ⟨v, hv, fun hn => absurd hpre hn⟩
  · refine ⟨s, ?_, fun _ => rfl⟩
    rw [← hs]
    refine hr.get?_other (fun hp => hpre ?_) hpre
    obtain ⟨rest, rfl⟩ := hp
    obtain ⟨category, rules, rfl⟩ := h.old_hole
    rw [Tree.get?_append_of_get? hr.get?_old] at hs
    obtain ⟨rfl, -⟩ := Tree.get?_hole_eq_some hs
    simp

end Edits

section Preservation

theorem Move.refines (h : Move p T b c) : c.tree.Refines b.tree := by
  cases h with
  | edit unifying statistics change replaced =>
      rw [Branch.notify_tree]
      exact replaced.refines change.refines
  | _ => exact .refl _

theorem Move.feasible (h : Move p T b c) (hc : c.feasible = true) : b.feasible = true := by
  cases h with
  | edit unifying statistics change replaced => rwa [Branch.notify_feasible] at hc
  | fail => cases hc
  | _ => exact hc

theorem Move.covers (h : Move p T b c) {t : Tree} (ht : T t) (hb : b.Covers t) : c.Covers t := by
  cases h with
  | edit unifying statistics change replaced kept =>
      obtain ⟨s, hs, hn⟩ := kept t ht hb
      refine ⟨?_, ?_⟩
      · rw [Branch.notify_feasible]
        exact hb.1
      · rw [Branch.notify_tree]
        exact replaced.refines_of_refines hb.2 hs hn
  | fail lost => exact absurd hb (lost t ht)
  | _ => exact hb

theorem Move.loyal (h : Move p T b c) (hs : b.Sound p) (hb : b.Loyal T) : c.Loyal T := by
  intro t ht hc
  have hcovers : b.Covers t := ⟨h.feasible hc.1, hc.2.trans h.refines⟩
  have hr := hb t ht hcovers
  cases h with
  | edit unifying statistics change replaced => rwa [Branch.notify_classes]
  | unite placed placed' equal => exact hr.unite hs.classes (equal t ht hcovers)
  | _ => exact hr

theorem Branch.known_retire (v : Watch) {w : Watch} (hw : w ∈ b.active ∨ w ∈ b.retired) :
    w ∈ (b.retire v).active ∨ w ∈ (b.retire v).retired := by
  by_cases hv : w = v
  · exact Or.inr ((OrderedSet.mem_insert _ _ _).mpr (Or.inr hv))
  · rcases hw with hw | hw
    · exact Or.inl ((OrderedSet.mem_erase _ _ _).mpr ⟨hw, hv⟩)
    · exact Or.inr ((OrderedSet.mem_insert _ _ _).mpr (Or.inl hw))

theorem Move.known (h : Move p T b c) {w : Watch} (hw : w ∈ b.active ∨ w ∈ b.retired) :
    w ∈ c.active ∨ w ∈ c.retired := by
  cases h with
  | @edit path old new tree unifying statistics change replaced =>
      rw [Branch.mem_notify_active, Branch.mem_notify_retired]
      by_cases hm : unifying = true ∧ w.minds path = true
      · rcases hw with hw | hw
        · exact Or.inl (Or.inl hw)
        · exact Or.inl (Or.inr ⟨hm.1, hw, hm.2⟩)
      · rcases hw with hw | hw
        · exact Or.inl (Or.inl hw)
        · exact Or.inr ⟨hw, hm⟩
  | @retire v known => exact Branch.known_retire v hw
  | post => exact hw.imp_left fun hw => (OrderedSet.mem_insert _ _ _).mpr (Or.inl hw)
  | _ => exact hw

theorem Move.announced (h : Move p T b c) {x : Constraint × Path} (hx : x ∈ b.announced) :
    x ∈ c.announced := by
  cases h with
  | edit unifying statistics change replaced => rwa [Branch.notify_announced]
  | log => exact List.mem_cons_of_mem _ hx
  | _ => exact hx

theorem Move.members (h : Move p T b c) (hs : b.Sound p) (path : Path) :
    ∀ other ∈ b.classes.members path, other ∈ c.classes.members path := by
  cases h with
  | edit unifying statistics change replaced =>
      rw [Branch.notify_classes]
      exact fun _ h => h
  | unite => exact hs.classes.members_unite _ _ path
  | _ => exact fun _ h => h

theorem Branch.Sound.edited (hs : b.Sound p) {path : Path} {old new tree : Tree} (unifying : Bool)
    (statistics : Statistics) (change : Edit p path old new)
    (replaced : Tree.Replaced old new path b.tree tree) :
    ({ b with tree, statistics }.notify unifying path).Sound p := by
  have hplaced {other : Path} (hp : ∃ s, b.tree.get? other = some s) : ∃ s, tree.get? other = some s := by
    obtain ⟨s, hp⟩ := hp
    obtain ⟨v, hv, -⟩ := (replaced.refines change.refines).get? hp
    exact ⟨v, hv⟩
  refine ⟨?_, ?_, fun k hk other hp => ?_, fun w hw => ?_, fun w hw hr => ?_, ?_, fun w hw => ?_⟩
  · rw [notify_tree]
    exact hs.wellFormed.replaced replaced fun e => change.wellFormed
  · rw [notify_classes]
    exact hs.classes
  · rw [notify_classes] at hk
    rw [notify_tree]
    exact hplaced (hs.united k hk other hp)
  · rw [mem_notify_active, mem_notify_retired] at hw
    have hw : w ∈ b.active ∨ w ∈ b.retired := by tauto
    obtain ⟨hc, hf, hp⟩ := hs.watched w hw
    rw [notify_tree]
    exact ⟨hc, hf, hplaced hp⟩
  -- What comes back from retirement is no longer retired.
  · rw [mem_notify_active] at hw
    rw [mem_notify_retired] at hr
    rcases hw with hw | hw
    · exact hs.apart w hw hr.1
    · exact hr.2 ⟨hw.1, hw.2.2⟩
  · exact proper_notify_queue _ _ _ hs.queue
  · rw [mem_notify_pending] at hw
    rcases hw with hw | hw
    · rw [mem_notify_active]
      exact Or.inl (hs.pending w hw)
    · exact hw.1

theorem Branch.Sound.retire (hs : b.Sound p) {v : Watch} (known : v ∈ b.active ∨ v ∈ b.retired) :
    (b.retire v).Sound p := by
  refine { hs with
    watched := fun w hw => hs.watched w ?_
    apart := fun w hw hr => ?_
    queue := hs.queue.remove v
    pending := fun w hw => ?_ }
  · rcases hw with hw | hw
    · exact Or.inl ((OrderedSet.mem_erase _ _ _).mp hw).1
    · rcases (OrderedSet.mem_insert _ _ _).mp hw with hw | rfl
      · exact Or.inr hw
      · exact known
  · obtain ⟨hw, hne⟩ := (OrderedSet.mem_erase _ _ _).mp hw
    rcases (OrderedSet.mem_insert _ _ _).mp hr with hr | he
    · exact hs.apart w hw hr
    · exact hne he
  · obtain ⟨hw, hne⟩ := (hs.queue.mem_remove v w).mp hw
    exact (OrderedSet.mem_erase _ _ _).mpr ⟨hs.pending w hw, hne⟩

theorem Branch.Sound.post (hs : b.Sound p) {v : Watch} (statistics : Statistics)
    (constraint : v.constraint ∈ p.grammar.constraints) (fits : v.Fits)
    (placed : ∃ s, b.tree.get? v.path = some s) (fresh : v ∉ b.retired) :
    { b with active := b.active.insert v, statistics }.Sound p := by
  refine { hs with
    watched := fun w hw => ?_
    apart := fun w hw hr => ?_
    pending := fun w hw => (OrderedSet.mem_insert _ _ _).mpr (Or.inl (hs.pending w hw)) }
  · rcases hw with hw | hw
    · rcases (OrderedSet.mem_insert _ _ _).mp hw with hw | rfl
      · exact hs.watched w (Or.inl hw)
      · exact ⟨constraint, fits, placed⟩
    · exact hs.watched w (Or.inr hw)
  · rcases (OrderedSet.mem_insert _ _ _).mp hw with hw | rfl
    · exact hs.apart w hw hr
    · exact fresh hr

theorem Branch.Sound.unite (hs : b.Sound p) {first second : Path}
    (placed : ∃ s, b.tree.get? first = some s) (placed' : ∃ s, b.tree.get? second = some s) :
    { b with classes := b.classes.unite first second }.Sound p := by
  refine { hs with
    classes := hs.classes.unite first second
    united := fun k hk path hp => ?_ }
  rcases PathClasses.mem_unite hs.classes hk hp with ⟨l, hl, hp⟩ | rfl | rfl
  · exact hs.united l hl path hp
  · exact placed
  · exact placed'

theorem Move.sound (h : Move p T b c) (hs : b.Sound p) : c.Sound p := by
  cases h with
  | edit unifying statistics change replaced => exact hs.edited unifying statistics change replaced
  | fail => exact { hs with queue := Worklist.proper_empty, pending := nofun }
  | retire known => exact hs.retire known
  | post statistics constraint fits placed _ fresh => exact hs.post statistics constraint fits placed fresh
  | log => exact { hs with }
  | unite placed placed' => exact hs.unite placed placed'
  | count => exact { hs with }

-- The queue may be any that holds none but constraints that were queued.
theorem Branch.Sound.queued (hs : b.Sound p) {queue : Worklist Watch} (hq : queue.Proper)
    (hp : ∀ w ∈ queue.pending, w ∈ b.queue.pending) : { b with queue }.Sound p :=
  { hs with queue := hq, pending := fun w hw => hs.pending w (hp w hw) }

theorem Branch.Sound.popped (hs : b.Sound p) : b.popped.Sound p := by
  rcases hs.queue.pop with ⟨a, -, -, he, hq⟩ | ⟨-, -, he, hq⟩
  · exact hs.queued hq fun w hw => List.mem_of_mem_erase (he ▸ hw)
  · refine hs.queued hq fun w hw => ?_
    rw [he] at hw
    cases hw

end Preservation

namespace Proceeds

theorem sound (h : Proceeds p T b c) (hs : b.Sound p) : c.Sound p := by
  induction h with
  | refl => exact hs
  | tail _ hstep ih =>
      rcases hstep with hstep | rfl
      · exact hstep.sound ih
      · exact ih.popped

theorem refines (h : Proceeds p T b c) : c.tree.Refines b.tree := by
  induction h with
  | refl => exact .refl _
  | tail _ hstep ih =>
      rcases hstep with hstep | rfl
      · exact hstep.refines.trans ih
      · exact ih

theorem feasible (h : Proceeds p T b c) (hc : c.feasible = true) : b.feasible = true := by
  induction h with
  | refl => exact hc
  | tail _ hstep ih =>
      rcases hstep with hstep | rfl
      · exact ih (hstep.feasible hc)
      · exact ih hc

theorem covers (h : Proceeds p T b c) {t : Tree} (ht : T t) (hb : b.Covers t) : c.Covers t := by
  induction h with
  | refl => exact hb
  | tail _ hstep ih =>
      rcases hstep with hstep | rfl
      · exact hstep.covers ht ih
      · exact ih

-- The trees that a branch covers after some moves are among those it covered before.
theorem of_covers (h : Proceeds p T b c) {t : Tree} (hc : c.Covers t) : b.Covers t :=
  ⟨h.feasible hc.1, hc.2.trans h.refines⟩

theorem loyal (h : Proceeds p T b c) (hs : b.Sound p) (hb : b.Loyal T) : c.Loyal T := by
  induction h with
  | refl => exact hb
  | tail hrest hstep ih =>
      rcases hstep with hstep | rfl
      · exact hstep.loyal (sound hrest hs) ih
      · exact ih

theorem known (h : Proceeds p T b c) {w : Watch} (hw : w ∈ b.active ∨ w ∈ b.retired) :
    w ∈ c.active ∨ w ∈ c.retired := by
  induction h with
  | refl => exact hw
  | tail _ hstep ih =>
      rcases hstep with hstep | rfl
      · exact hstep.known ih
      · exact ih

theorem announced (h : Proceeds p T b c) {x : Constraint × Path} (hx : x ∈ b.announced) :
    x ∈ c.announced := by
  induction h with
  | refl => exact hx
  | tail _ hstep ih =>
      rcases hstep with hstep | rfl
      · exact hstep.announced ih
      · exact ih

theorem members (h : Proceeds p T b c) (hs : b.Sound p) (path : Path) :
    ∀ other ∈ b.classes.members path, other ∈ c.classes.members path := by
  induction h with
  | refl => exact fun _ h => h
  | tail hrest hstep ih =>
      rcases hstep with hstep | rfl
      · exact fun other ho => hstep.members (sound hrest hs) path other (ih other ho)
      · exact ih

-- A position stays where it is.
theorem placed (h : Proceeds p T b c) {path : Path} (hp : ∃ s, b.tree.get? path = some s) :
    ∃ s, c.tree.get? path = some s := by
  obtain ⟨s, hs⟩ := hp
  obtain ⟨v, hv, -⟩ := h.refines.get? hs
  exact ⟨v, hv⟩

theorem depth_le (h : Proceeds p T b c) : b.tree.depth ≤ c.tree.depth := h.refines.depth_le

end Proceeds

end TreeSearch
