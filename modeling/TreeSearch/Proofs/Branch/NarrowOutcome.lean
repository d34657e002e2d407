import TreeSearch.Proofs.Branch.Announcing
import TreeSearch.Proofs.Branch.Commands

namespace TreeSearch

variable {b c : Branch} {path : Path} {s t u : Tree}

-- The ways to narrow a position. Rules to keep come as the bits of an integer or one by one.
inductive Narrowing where
  | strike (rule : Int)
  | strikeAll (rules : List Int)
  | keep (bits : Int)
  | keepAll (rules : List Int)
  | strikeAbove (rule : Int)
  | strikeBelow (rule : Int)

namespace Narrowing

variable {n : Narrowing}

-- Lists are given from outside only, while nothing is being unified.
def work (unifying : Bool) (path : Path) : Narrowing → BranchM Unit
  | strike rule => BranchM.strike unifying path rule
  | strikeAll rules => BranchM.strikeAll path rules
  | keep bits => BranchM.narrow unifying path (.ofInt bits)
  | keepAll rules => BranchM.keepAll path rules
  | strikeAbove rule => BranchM.strikeAbove unifying path rule
  | strikeBelow rule => BranchM.strikeBelow unifying path rule

-- The rules that are kept. A negative integer has infinitely many bits in two's complement.
def Keeps : Narrowing → Nat → Prop
  | strike rule, r => (r : Int) ≠ rule
  | strikeAll rules, r => (r : Int) ∉ rules
  | keep bits, r => bits / 2 ^ r % 2 = 1
  | keepAll rules, r => (r : Int) ∈ rules
  | strikeAbove rule, r => (r : Int) ≤ rule
  | strikeBelow rule, r => rule ≤ (r : Int)

-- Negative rules are refused, but all rules are above minus one.
def Rejected : Narrowing → Prop
  | strike rule => rule < 0
  | strikeAll rules => ∃ r ∈ rules, r < 0
  | keep _ => False
  | keepAll rules => ∃ r ∈ rules, r < 0
  | strikeAbove rule => rule < -1
  | strikeBelow rule => rule < 0

-- Something is left of a position.
def Leaves (n : Narrowing) (s : Tree) : Prop := ∃ r, s.Takes r ∧ n.Keeps r

end Narrowing

namespace BranchM

theorem attempt_bind_ok {α β : Type} {result : Except Fault β} {a : β} (h : result = .ok a)
    (next : β → BranchM α) : (attempt result >>= next) = next a := by
  subst h
  rfl

theorem attempt_bind_error {α β : Type} {result : Except Fault β} {fault : Fault}
    (h : result = .error fault) (next : β → BranchM α) :
    (attempt result >>= next) = throw (.fault fault) := by
  subst h
  rfl

end BranchM

namespace Narrowing

open BranchM

variable {n : Narrowing}

theorem work_of_rejected (h : n.Rejected) (unifying : Bool) (path : Path) :
    ∃ fault, n.work unifying path = throw (.fault fault) ∧ fault.kind = .value := by
  cases n with
  | strike rule => exact ⟨_, attempt_bind_error (Domain.single_eq_error h) _, rfl⟩
  | strikeAll rules =>
      obtain ⟨r, -, -, he⟩ := Domain.ofRules_eq_error h
      exact ⟨_, attempt_bind_error he _, rfl⟩
  | keep bits => exact h.elim
  | keepAll rules =>
      obtain ⟨r, -, -, he⟩ := Domain.ofRules_eq_error h
      exact ⟨_, attempt_bind_error he _, rfl⟩
  | strikeAbove rule => exact ⟨_, attempt_bind_error (Mask.upTo_eq_error h) _, rfl⟩
  | strikeBelow rule => exact ⟨_, attempt_bind_error (Mask.onwards_eq_error h) _, rfl⟩

theorem mem_ofList_toNat {rules : List Int} (h : ∀ r ∈ rules, 0 ≤ r) (r : Nat) :
    r ∈ Domain.ofList (rules.map Int.toNat) ↔ (r : Int) ∈ rules := by
  rw [Domain.mem_ofList, List.mem_map]
  constructor
  · rintro ⟨i, hi, rfl⟩
    rwa [Int.toNat_of_nonneg (h i hi)]
  · intro hr
    exact ⟨r, hr, Int.toNat_natCast r⟩

-- Everything else narrows by a mask that lets through just the rules to keep.
theorem work_of_not_rejected (h : ¬ n.Rejected) (unifying : Bool) (path : Path) :
    ∃ (mask : Mask) (flag : Bool), n.work unifying path = narrow flag path mask ∧
      ∀ r, r ∈ mask ↔ n.Keeps r := by
  have hall {rules : List Int} (h : ¬ ∃ r ∈ rules, r < 0) : ∀ r ∈ rules, 0 ≤ r := by
    intro r hr
    by_contra hneg
    exact h ⟨r, hr, by omega⟩
  cases n with
  | strike rule =>
      obtain ⟨k, rfl⟩ := Int.eq_ofNat_of_zero_le (Int.not_lt.mp h)
      refine ⟨.except {k}, unifying, attempt_bind_ok (Domain.single_natCast k) _, fun r => ?_⟩
      show r ∉ ({k} : Domain) ↔ (r : Int) ≠ k
      rw [Domain.mem_singleton, ne_eq, Int.ofNat_inj]
  | strikeAll rules =>
      refine ⟨.except _, false, attempt_bind_ok (Domain.ofRules_eq_ok (hall h)) _, fun r => ?_⟩
      exact not_congr (mem_ofList_toNat (hall h) r)
  | keep bits => exact ⟨.ofInt bits, unifying, rfl, Mask.mem_ofInt bits⟩
  | keepAll rules =>
      refine ⟨.only _, false, attempt_bind_ok (Domain.ofRules_eq_ok (hall h)) _, fun r => ?_⟩
      exact mem_ofList_toNat (hall h) r
  | strikeAbove rule =>
      have hrule : -1 ≤ rule := Int.not_lt.mp h
      refine ⟨_, unifying, attempt_bind_ok (Mask.upTo_eq_ok hrule) _, fun r => ?_⟩
      rw [Mask.mem_below]
      show r < (rule + 1).toNat ↔ (r : Int) ≤ rule
      omega
  | strikeBelow rule =>
      have hrule : 0 ≤ rule := Int.not_lt.mp h
      refine ⟨_, unifying, attempt_bind_ok (Mask.onwards_eq_ok hrule) _, fun r => ?_⟩
      rw [Mask.mem_atLeast]
      show rule.toNat ≤ r ↔ rule ≤ (r : Int)
      omega

end Narrowing

-- A position after narrowing: a node as it was, or a hole with the rules that are kept.
inductive Tree.CutTo (keep : Nat → Prop) : Tree → Tree → Prop
  | node (r : Int) (cs : List Tree) : CutTo keep (.node r cs) (.node r cs)
  | hole {category : String} {rules kept : Domain} (mem : ∀ r, r ∈ kept ↔ r ∈ rules ∧ keep r) :
      CutTo keep (.hole category rules) (.hole category kept)

section CutTo

variable {keep : Nat → Prop}

theorem Tree.CutTo.of_kept (hs : s.Concrete) (h : ∀ r, s.Takes r → keep r) : s.CutTo keep s := by
  cases hs with
  | node r cs => exact .node r cs
  | hole category rules =>
      apply Tree.CutTo.hole
      intro r
      exact ⟨fun hr => ⟨hr, h r hr⟩, And.left⟩

theorem Tree.CutTo.concrete (h : s.CutTo keep u) (hs : s.Concrete) : u.Concrete := by
  cases h with
  | node => exact hs
  | hole => exact .hole _ _

theorem Tree.CutTo.takes (h : s.CutTo keep u) {r : Nat} (hr : s.Takes r) (hk : keep r) :
    u.Takes r := by
  cases h with
  | node => exact hr
  | hole mem => exact (mem r).mpr ⟨hr, hk⟩

theorem Tree.CutTo.trans (h : s.CutTo keep u) (h' : u.CutTo keep t) : s.CutTo keep t := by
  cases h with
  | node => exact h'
  | hole mem =>
      cases h' with
      | hole mem' =>
          apply Tree.CutTo.hole
          intro r
          rw [mem' r, mem r]
          exact ⟨And.left, fun hr => ⟨hr, hr.2⟩⟩

theorem Tree.CutTo.hole_iff (h : s.CutTo keep u) : (∃ category rules, s = .hole category rules) ↔
    ∃ category rules, u = .hole category rules := by
  cases h with
  | node => simp
  | hole => simp

theorem Tree.CutTo.restrict {mask : Mask} (hmask : ∀ r, r ∈ mask ↔ keep r) (category : String)
    (rules : Domain) : (Tree.hole category rules).CutTo keep (.hole category (rules.restrict mask)) := by
  apply Tree.CutTo.hole
  intro r
  rw [Domain.mem_restrict, hmask r]

end CutTo

namespace Branch

-- Every position is decided or still has rules, and united positions have the same subtree.
structure Aligned (b : Branch) : Prop where
  place : ∀ path s, b.tree.get? path = some s → (∃ (r : Nat) (cs : List Tree), s = .node r cs) ∨
    ∃ (category : String) (rules : Domain), s = .hole category rules ∧ rules.isEmpty = false
  alike : ∀ path, ∀ other ∈ b.classes.members path, b.tree.get? other = b.tree.get? path

-- So it is in every branch that has not failed.
theorem Commanded.aligned {p : Problem} {root : Tree} (hg : p.grammar.Regular)
    (h : Commanded p root b) (hf : b.feasible = true) : b.Aligned := by
  have hb := (h.spec hg).1
  have hlevel (k : List Path) (hk : k ∈ b.classes.classes) : b.Level k :=
    (hb.level hf k hk).resolve_right (Set.notMem_empty _)
  constructor
  · intro path s hs
    have hw := hb.intact.wellFormed.get? hs
    cases hw.concrete with
    | node n cs => exact Or.inl ⟨n, cs, rfl⟩
    | hole category rules =>
        exact Or.inr ⟨category, rules, rfl, hb.intact.rules path category rules hs⟩
  · intro path other ho
    rcases b.classes.members_eq_or path with ⟨k, hk, hpath, -⟩ | ⟨-, he⟩
    · obtain ⟨s, hs⟩ := hb.intact.united k hk path hpath
      rw [get?_eq_of_level hb.intact hlevel ho hs, hs]
    · rw [he, List.mem_singleton] at ho
      rw [ho]

theorem Aligned.concrete (hb : b.Aligned) (hs : b.tree.get? path = some s) : s.Concrete := by
  obtain ⟨r, cs, rfl⟩ | ⟨category, rules, rfl, -⟩ := hb.place path s hs
  · exact .node r cs
  · exact .hole category rules

theorem Aligned.takes (hb : b.Aligned) (hs : b.tree.get? path = some s) : ∃ r, s.Takes r := by
  obtain ⟨r, cs, rfl⟩ | ⟨category, rules, rfl, hopen⟩ := hb.place path s hs
  · exact ⟨r, rfl⟩
  · exact (Domain.isEmpty_eq_false_iff rules).mp hopen

-- While a class is narrowed, the members that are done have been cut down, the others are as
-- they were, and so is everything else.
structure Underway (b : Branch) (path : Path) (keep : Nat → Prop) (left : List Path) (c : Branch) :
    Prop where
  members : ∀ q ∈ left, q ∈ b.classes.members path
  feasible : c.feasible = true
  classes : c.classes = b.classes
  cut : ∀ q ∈ b.classes.members path, ∃ s u, b.tree.get? q = some s ∧ c.tree.get? q = some u ∧
    (s.CutTo keep u ∨ q ∈ left ∧ u = s)
  apart : ∀ q, q ∉ b.classes.members path → c.rootAt q = b.rootAt q

-- Narrowing one hole neither opens nor closes another position.
theorem rootAt_of_hole_narrowed {category : String} {rules kept : Domain} {tree : Tree}
    (replaced : Tree.Replaced (.hole category rules) (.hole category kept) path b.tree tree)
    (hc : c.tree = tree) {q : Path} (hne : q ≠ path) : c.rootAt q = b.rootAt q := by
  cases hs : b.tree.get? q with
  | some s => exact rootAt_of_hole_replaced replaced hc hne ⟨s, hs⟩
  | none =>
      have hnone : c.tree.get? q = none := by
        apply Option.eq_none_iff_forall_ne_some.mpr
        intro u hu
        rw [hc] at hu
        obtain ⟨v, hv⟩ := ((exists_get?_narrowed replaced q).mp ⟨u, hu⟩).resolve_right List.not_mem_nil
        cases hs.symm.trans hv
      rw [rootAt, rootAt, hs, hnone]

end Branch

section Underway

variable {d : Branch} {keep : Nat → Prop} {member : Path} {left : List Path}

theorem Branch.Underway.next (h : b.Underway path keep (member :: left) c)
    (hf : d.feasible = c.feasible) (hclasses : d.classes = c.classes)
    (hs : b.tree.get? member = some s) (hu : d.tree.get? member = some u) (hcut : s.CutTo keep u)
    (hroots : ∀ q, q ≠ member → d.rootAt q = c.rootAt q)
    (hsame : ∀ q ∈ b.classes.members path, q ≠ member → d.tree.get? q = c.tree.get? q) :
    b.Underway path keep left d := by
  have hm := h.members member List.mem_cons_self
  refine ⟨fun q hq => h.members q (List.mem_cons_of_mem member hq), hf.trans h.feasible,
    hclasses.trans h.classes, fun q hq => ?_, fun q hq => ?_⟩
  · by_cases he : q = member
    · subst he
      exact ⟨s, u, hs, hu, Or.inl hcut⟩
    · obtain ⟨s', u', hs', hu', hcase⟩ := h.cut q hq
      refine ⟨s', u', hs', (hsame q hq he).trans hu', hcase.imp_right fun ⟨hin, hold⟩ => ?_⟩
      exact ⟨(List.mem_cons.mp hin).resolve_left he, hold⟩
  · rw [hroots q fun he => hq (he ▸ hm), h.apart q hq]

-- What stands at a member is a hole exactly where it was one before.
theorem Branch.Underway.hole_iff (h : b.Underway path keep left c) (hb : b.Aligned)
    (hs : b.tree.get? path = some s) (hm : member ∈ b.classes.members path)
    (hu : c.tree.get? member = some u) :
    (∃ category rules, s = .hole category rules) ↔ ∃ category rules, u = .hole category rules := by
  obtain ⟨s', u', hs', hu', hcase⟩ := h.cut member hm
  obtain rfl : u = u' := Option.some.inj (hu.symm.trans hu')
  obtain rfl : s' = s := Option.some.inj ((hs'.symm.trans (hb.alike path member hm)).trans hs)
  cases hcase with
  | inl hcut => exact hcut.hole_iff
  | inr hold => rw [hold.2]

end Underway

namespace BranchM

variable {unifying : Bool} {mask : Mask} {keep : Nat → Prop} {member : Path} {left : List Path}
  {H : Halt → Branch → Prop}

-- One member more is done.
theorem underway_narrowOne (hb : b.Aligned) (hs : b.tree.get? path = some s)
    (hleaves : ∃ r, s.Takes r ∧ keep r) (hmask : ∀ r, r ∈ mask ↔ keep r)
    (h : b.Underway path keep (member :: left) c) :
    (narrowOne unifying mask member).Meets c (fun _ d => b.Underway path keep left d) H := by
  have hm := h.members member List.mem_cons_self
  have hsm : b.tree.get? member = some s := (hb.alike path member hm).trans hs
  obtain ⟨s', u, hs', hu, hcut⟩ := h.cut member hm
  obtain rfl : s = s' := Option.some.inj (hsm.symm.trans hs')
  have hcut : s.CutTo keep u ∨ u = s := hcut.imp_right And.right
  have hjoin {t : Tree} (ht : u.CutTo keep t) : s.CutTo keep t := by
    cases hcut with
    | inl hcut => exact hcut.trans ht
    | inr hold => exact hold ▸ ht
  have hplace : u.Concrete := by
    cases hcut with
    | inl hcut => exact hcut.concrete (hb.concrete hs)
    | inr hold => exact hold ▸ hb.concrete hs
  refine meets_narrowOne_at hu hplace (fun hkept => ?_) (fun hlost => ?_) ?_
  · have hall : u.CutTo keep u := .of_kept hplace fun r hr => (hmask r).mp (hkept r hr)
    exact h.next rfl rfl hsm hu (hjoin hall) (fun _ _ => rfl) fun _ _ _ => rfl
  · obtain ⟨r, hr, hk⟩ := hleaves
    have hur : u.Takes r := by
      cases hcut with
      | inl hcut => exact hcut.takes hr hk
      | inr hold => exact hold ▸ hr
    exact absurd ((hmask r).mpr hk) (hlost r hur)
  · rintro category rules tree statistics rfl - - replaced
    have htree := Branch.notify_tree { c with tree, statistics } member unifying
    have hroots (q : Path) (hne : q ≠ member) :
        ({ c with tree, statistics }.notify unifying member).rootAt q = c.rootAt q :=
      Branch.rootAt_of_hole_narrowed replaced htree hne
    refine h.next (Branch.notify_feasible ..) (Branch.notify_classes ..) hsm
      (by rw [htree, replaced.get?_new]) (hjoin (.restrict hmask category rules)) hroots ?_
    intro q hq hne
    obtain ⟨-, v, -, hv, -⟩ := h.cut q hq
    have hhole := (h.hole_iff hb hs hm hu).mpr ⟨category, rules, rfl⟩
    obtain ⟨category', rules', rfl⟩ := (h.hole_iff hb hs hq hv).mp hhole
    rw [hv]
    exact Branch.get?_of_rootAt ((hroots q hne).trans (Branch.rootAt_eq_some hv))

theorem run_narrow_none (hs : b.tree.get? path = none) (unifying : Bool) (mask : Mask) :
    (narrow unifying path mask).run b = .error (.fault (.invalidPath path (b.tree.reach path))) b := by
  have hnode : (nodeAt path).run b = .error (.fault (.invalidPath path (b.tree.reach path))) b := by
    show (attempt (b.tree.get path)).run b = _
    rw [Tree.get, hs]
    rfl
  unfold narrow
  rw [run_bind, hnode]

-- A class of which something is left is cut down as a whole.
theorem meets_narrow_of_leaves (hb : b.Aligned) (hf : b.feasible = true)
    (hs : b.tree.get? path = some s) (hleaves : ∃ r, s.Takes r ∧ keep r)
    (hmask : ∀ r, r ∈ mask ↔ keep r) :
    (narrow unifying path mask).Meets b (fun _ c => b.Underway path keep [] c) H := by
  unfold narrow
  rw [meets_bind, meets_nodeAt hs, meets_bind, meets_get]
  apply meets_forM (b.Underway path keep)
  · intro member left c h
    rw [meets_whenFeasible]
    constructor
    · intro _
      exact underway_narrowOne hb hs hleaves hmask h
    · intro hfc
      exact absurd (hfc.symm.trans h.feasible) Bool.false_ne_true
  · refine ⟨fun _ hq => hq, hf, rfl, fun q hq => ?_, fun _ _ => rfl⟩
    have hq' := (hb.alike path q hq).trans hs
    exact ⟨s, s, hq', hq', Or.inr ⟨hq, rfl⟩⟩

theorem meets_narrowOne_of_lost (hs : b.tree.get? path = some s) (hplace : s.Concrete)
    (hsome : ∃ r, s.Takes r) (hnone : ∀ r, s.Takes r → r ∉ mask) :
    (narrowOne unifying mask path).Meets b (fun _ c => c = b.fail) H := by
  apply meets_narrowOne_at hs hplace
  · intro hkept
    obtain ⟨r, hr⟩ := hsome
    exact absurd (hkept r hr) (hnone r hr)
  · intro _
    rfl
  · rintro category rules tree statistics rfl - hopen -
    obtain ⟨r, hr⟩ := (Domain.isEmpty_eq_false_iff _).mp hopen
    obtain ⟨hr, hm⟩ := (Domain.mem_restrict r rules mask).mp hr
    exact absurd hm (hnone r hr)

-- The first member of a class of which nothing is left ends the branch, before anything changes.
theorem meets_narrow_of_not_leaves (hb : b.Aligned) (hf : b.feasible = true)
    (hs : b.tree.get? path = some s) (hleaves : ¬ ∃ r, s.Takes r ∧ keep r)
    (hmask : ∀ r, r ∈ mask ↔ keep r) :
    (narrow unifying path mask).Meets b (fun _ c => c = b.fail) H := by
  have hnone (r : Nat) (hr : s.Takes r) : r ∉ mask := fun hm => hleaves ⟨r, hr, (hmask r).mp hm⟩
  unfold narrow
  rw [meets_bind, meets_nodeAt hs, meets_bind, meets_get]
  refine (meets_forM (fun left c => (∀ q ∈ left, q ∈ b.classes.members path) ∧
    (c = b ∧ left ≠ [] ∨ c = b.fail)) ?_ ?_).mono ?_ fun _ _ hh => hh
  · rintro member left c ⟨hleft, hc⟩
    have hleft' (q : Path) (hq : q ∈ left) := hleft q (List.mem_cons_of_mem member hq)
    rw [meets_whenFeasible]
    constructor
    · intro hfc
      obtain ⟨rfl, -⟩ | rfl := hc
      · have hsm := (hb.alike path member (hleft member List.mem_cons_self)).trans hs
        apply (meets_narrowOne_of_lost hsm (hb.concrete hs) (hb.takes hs) hnone).mono
        · rintro _ c rfl
          exact ⟨hleft', Or.inr rfl⟩
        · exact fun _ _ hh => hh
      · exact absurd hfc Bool.false_ne_true
    · intro hfc
      obtain ⟨rfl, -⟩ | rfl := hc
      · exact absurd (hfc.symm.trans hf) Bool.false_ne_true
      · exact ⟨hleft', Or.inr rfl⟩
  · exact ⟨fun _ hq => hq, Or.inl ⟨rfl, List.ne_nil_of_mem (b.classes.mem_members_self path)⟩⟩
  · rintro _ c ⟨-, ⟨-, hne⟩ | hfail⟩
    · exact absurd rfl hne
    · exact hfail

end BranchM

namespace Branch

-- What is refused, and what is asked of a position that is not there, changes nothing. Everything
-- else comes to an end. Where something is left of the position, the branch goes on, each member
-- of the class is cut down to the rules that are kept, and every position outside of the class is
-- in the same state as before. Where nothing is left the branch fails, with its tree as it was.
theorem Aligned.narrowing_exact (hb : b.Aligned) (hf : b.feasible = true) (n : Narrowing)
    (unifying : Bool) (path : Path) :
    (n.Rejected → ∃ fault, (n.work unifying path).run b = .error (.fault fault) b ∧
      fault.kind = .value) ∧
    (¬ n.Rejected → b.tree.get? path = none →
      ∃ fault, (n.work unifying path).run b = .error (.fault fault) b ∧ fault.kind = .path) ∧
    ∀ s, ¬ n.Rejected → b.tree.get? path = some s →
      ∃ c, (n.work unifying path).run b = .ok () c ∧ c.classes = b.classes ∧
        (n.Leaves s → c.feasible = true ∧
          (∀ q ∈ b.classes.members path, ∃ s u, b.tree.get? q = some s ∧ c.tree.get? q = some u ∧
            s.CutTo n.Keeps u) ∧
          ∀ q, q ∉ b.classes.members path → c.rootAt q = b.rootAt q) ∧
        (¬ n.Leaves s → c.feasible = false ∧ c.tree = b.tree) := by
  refine ⟨fun h => ?_, fun h hs => ?_, fun s h hs => ?_⟩
  · obtain ⟨fault, hwork, hkind⟩ := n.work_of_rejected h unifying path
    rw [hwork]
    exact ⟨fault, rfl, hkind⟩
  · obtain ⟨mask, flag, hwork, -⟩ := n.work_of_not_rejected h unifying path
    rw [hwork]
    exact ⟨_, BranchM.run_narrow_none hs flag mask, rfl⟩
  · obtain ⟨mask, flag, hwork, hmask⟩ := n.work_of_not_rejected h unifying path
    rw [hwork]
    by_cases hleaves : n.Leaves s
    · obtain ⟨_, c, hrun, hc⟩ :=
        (BranchM.meets_narrow_of_leaves (H := fun _ _ => False) hb hf hs hleaves hmask).exists_ok
      refine ⟨c, hrun, hc.classes, fun _ => ⟨hc.feasible, fun q hq => ?_, hc.apart⟩,
        fun hn => absurd hleaves hn⟩
      obtain ⟨v, u, hv, hu, hcut⟩ := hc.cut q hq
      exact ⟨v, u, hv, hu, hcut.resolve_right fun h => List.not_mem_nil h.1⟩
    · obtain ⟨_, c, hrun, rfl⟩ :=
        (BranchM.meets_narrow_of_not_leaves (H := fun _ _ => False) hb hf hs hleaves hmask).exists_ok
      exact ⟨b.fail, hrun, rfl, fun hl => absurd hl hleaves, fun _ => ⟨rfl, rfl⟩⟩

section Twins

theorem commanded_twinsUnited :
    Commanded .twins (.twins (.hole "S" (.ofList [0, 1]))) twinsUnited := by
  have hstart : Branch.start .twins 2 (.twins (.hole "S" (.ofList [0, 1]))) = .ok .twinsOpen := rfl
  have hequate : ((Command.request (.equate [0] [1])).work .twins 2).run .twinsOpen =
      .ok () .twinsUnited := rfl
  exact .command _ (.start (by decide) hstart) hequate

-- Two united holes: all bits but the lowest leave one rule in both, the third bit alone leaves
-- none, and a negative rule cannot be struck.
theorem narrowing_exact_twins : twinsUnited.Aligned ∧ twinsUnited.feasible = true ∧
    (∃ c u, ((Narrowing.keep (-2)).work false [0]).run twinsUnited = .ok () c ∧ c.feasible = true ∧
      c.tree.get? [1] = some u ∧
      (Tree.hole "S" (.ofList [0, 1])).CutTo (Narrowing.keep (-2)).Keeps u) ∧
    (∃ c, ((Narrowing.keep 4).work false [0]).run twinsUnited = .ok () c ∧ c.feasible = false ∧
      c.tree = twinsUnited.tree) ∧
    ∃ fault, ((Narrowing.strike (-1)).work false [0]).run twinsUnited =
      .error (.fault fault) twinsUnited := by
  have hb := commanded_twinsUnited.aligned Grammar.reachable_twins.regular rfl
  have hs : twinsUnited.tree.get? [0] = some (.hole "S" (.ofList [0, 1])) := rfl
  have hother : twinsUnited.tree.get? [1] = some (.hole "S" (.ofList [0, 1])) := rfl
  have hleaves : (Narrowing.keep (-2)).Leaves (.hole "S" (.ofList [0, 1])) := by
    refine ⟨1, by decide, ?_⟩
    show (-2 : Int) / 2 ^ 1 % 2 = 1
    decide
  have hnone : ¬ (Narrowing.keep 4).Leaves (.hole "S" (.ofList [0, 1])) := by
    rintro ⟨r, hr, hk⟩
    have hr : r = 0 ∨ r = 1 := by simpa using (Domain.mem_ofList [0, 1] r).mp hr
    have hk : (4 : Int) / 2 ^ r % 2 = 1 := hk
    obtain rfl | rfl := hr
    · omega
    · omega
  refine ⟨hb, rfl, ?_, ?_, ?_⟩
  · obtain ⟨c, hrun, -, hcut, -⟩ := (hb.narrowing_exact rfl (.keep (-2)) false [0]).2.2 _ id hs
    obtain ⟨hf, hmembers, -⟩ := hcut hleaves
    obtain ⟨s, u, hs', hu, hsu⟩ := hmembers [1] (by decide)
    obtain rfl := Option.some.inj (hother.symm.trans hs')
    exact ⟨c, u, hrun, hf, hu, hsu⟩
  · obtain ⟨c, hrun, -, -, hfail⟩ := (hb.narrowing_exact rfl (.keep 4) false [0]).2.2 _ id hs
    exact ⟨c, hrun, hfail hnone⟩
  · obtain ⟨fault, hrun, -⟩ := (hb.narrowing_exact rfl (.strike (-1)) false [0]).1 (by decide : (-1 : Int) < 0)
    exact ⟨fault, hrun⟩

end Twins

end Branch

end TreeSearch
