import TreeSearch.Proofs.Branch.Calm
import TreeSearch.Proofs.Branch.Settling

namespace TreeSearch

-- The changes that work makes, except that it may also post constraints.
inductive Branch.Change (p : Problem) (admitted : Watch → Prop) (b : Branch) : Branch → Prop
  | edit {path : Path} {old new tree : Tree} (unifying : Bool) (statistics : Statistics)
      (feasible : b.feasible = true) (change : Edit p path old new)
      (replaced : Tree.Replaced old new path b.tree tree) :
      Change p admitted b ({ b with tree, statistics }.notify unifying path)
  | fail : Change p admitted b b.fail
  | retire {w : Watch} (known : admitted w) : Change p admitted b (b.retire w)
  | log (entry : Announcement) : Change p admitted b { b with log := entry :: b.log }
  | unite {first second : Path} (placed : ∃ s, b.tree.get? first = some s)
      (placed' : ∃ s, b.tree.get? second = some s) :
      Change p admitted b { b with classes := b.classes.unite first second }
  | count (statistics : Statistics) : Change p admitted b { b with statistics }

-- What holds of a branch at all times, which constraints may act, what work leads to, and what it
-- leaves behind when it halts. Work is done at some stage, which says what is under way.
structure Discipline (p : Problem) (Stage : Type) where
  sound : Branch → Prop
  admits : Branch → Watch → Prop
  leads : Stage → Branch → Branch → Prop
  halts : Stage → Branch → Branch → Prop
  wellFormed {b : Branch} : sound b → p.grammar.WellFormed none b.tree
  refl (i : Stage) (b : Branch) : leads i b b
  trans {i : Stage} {b c d : Branch} : leads i b c → leads i c d → leads i b d
  halt {i : Stage} {b : Branch} : sound b → halts i b b
  halt_trans {i : Stage} {b c d : Branch} : leads i b c → halts i c d → halts i b d
  refines {i : Stage} {b c : Branch} : leads i b c → c.tree.Refines b.tree
  admitted {i : Stage} {b c : Branch} {w : Watch} : leads i b c → admits b w → admits c w
  change {i : Stage} {b c : Branch} : sound b → b.Change p (admits b) c → sound c ∧ leads i b c

variable {p : Problem} {Stage : Type} {D : Discipline p Stage} {i : Stage} {b c : Branch} {α β : Type}

namespace Discipline

theorem placed (h : D.leads i b c) {path : Path} (hs : ∃ s, b.tree.get? path = some s) :
    ∃ s, c.tree.get? path = some s := by
  obtain ⟨s, hs⟩ := hs
  obtain ⟨v, hv, -⟩ := (D.refines h).get? hs
  exact ⟨v, hv⟩

-- A node keeps its rule.
theorem node (h : D.leads i b c) {path : Path} {r : Int} (hs : ∃ cs, b.tree.get? path = some (.node r cs)) :
    ∃ cs, c.tree.get? path = some (.node r cs) := by
  obtain ⟨cs, hs⟩ := hs
  obtain ⟨v, hv, hr⟩ := (D.refines h).get? hs
  obtain ⟨ds, rfl, -⟩ := Tree.refines_node_iff.mp hr
  exact ⟨ds, hv⟩

-- Work that keeps to the discipline.
def Makes (D : Discipline p Stage) (i : Stage) (work : BranchM α) (b : Branch)
    (Q : α → Branch → Prop) : Prop :=
  D.sound b → work.Meets b (fun a c => D.sound c ∧ D.leads i b c ∧ Q a c) fun _ c => D.halts i b c

abbrev Made (D : Discipline p Stage) (i : Stage) (work : BranchM α) (b : Branch) : Prop :=
  D.Makes i work b fun _ _ => True

namespace Makes

variable {Q : α → Branch → Prop}

theorem post {work : BranchM α} {Q' : α → Branch → Prop} (h : D.Makes i work b Q)
    (hq : ∀ a c, D.sound c → D.leads i b c → Q a c → Q' a c) : D.Makes i work b Q' :=
  fun hb => (h hb).mono (fun a c ⟨hc, hl, ha⟩ => ⟨hc, hl, hq a c hc hl ha⟩) fun _ _ hh => hh

theorem made {work : BranchM α} (h : D.Makes i work b Q) : D.Made i work b :=
  h.post fun _ _ _ _ _ => trivial

theorem pure {a : α} (h : Q a b) : D.Makes i (pure a) b Q := fun hb => ⟨hb, D.refl i b, h⟩

theorem throw (halt : Halt) : D.Makes i (throw halt : BranchM α) b Q := D.halt

theorem bind {work : BranchM β} {next : β → BranchM α} {R : β → Branch → Prop}
    (h : D.Makes i work b R) (hn : ∀ a c, D.leads i b c → R a c → D.Makes i (next a) c Q) :
    D.Makes i (work >>= next) b Q := by
  intro hb
  rw [BranchM.meets_bind]
  refine (h hb).mono (fun a c ⟨hc, hl, ha⟩ => ?_) fun _ _ hh => hh
  exact (hn a c hl ha hc).mono (fun _ _ ⟨hd, hl', hq⟩ => ⟨hd, D.trans hl hl', hq⟩)
    fun _ _ hh => D.halt_trans hl hh

theorem get_bind {next : Branch → BranchM α} (h : D.Makes i (next b) b Q) :
    D.Makes i (get >>= next) b Q := h

theorem isFeasible_bind {next : Bool → BranchM α} (h : D.Makes i (next b.feasible) b Q) :
    D.Makes i (BranchM.isFeasible >>= next) b Q := h

theorem reckon_bind {result : Except Halt β} {next : β → BranchM α}
    (h : ∀ a, result = .ok a → D.Makes i (next a) b Q) :
    D.Makes i (BranchM.reckon result >>= next) b Q := by
  intro hb
  cases hr : result with
  | ok a => exact h a hr hb
  | error halt => exact D.halt hb

theorem attempt_bind {result : Except Fault β} {next : β → BranchM α}
    (h : ∀ a, result = .ok a → D.Makes i (next a) b Q) :
    D.Makes i (BranchM.attempt result >>= next) b Q :=
  reckon_bind fun a hr => h a (Except.mapError_eq_ok.mp hr)

theorem nodeAt_bind {path : Path} {next : Tree → BranchM α}
    (h : ∀ s, b.tree.get? path = some s → D.Makes i (next s) b Q) :
    D.Makes i (BranchM.nodeAt path >>= next) b Q :=
  fun hb => BranchM.meets_nodeAt_bind (fun _ => D.halt hb) fun s hs => h s hs hb

theorem change {f : Branch → Branch} {Q : PUnit → Branch → Prop} (h : b.Change p (D.admits b) (f b))
    (hq : Q ⟨⟩ (f b)) : D.Makes i (modify f) b Q := by
  intro hb
  obtain ⟨hc, hl⟩ := D.change (i := i) hb h
  exact ⟨hc, hl, hq⟩

theorem set_bind {next : PUnit → BranchM α} (h : D.sound b → D.sound c ∧ D.leads i b c)
    (hn : D.Makes i (next ⟨⟩) c Q) : D.Makes i (set c >>= next) b Q := by
  intro hb
  obtain ⟨hc, hl⟩ := h hb
  rw [BranchM.meets_bind, BranchM.meets_set]
  exact (hn hc).mono (fun _ _ ⟨hd, hl', hq⟩ => ⟨hd, D.trans hl hl', hq⟩) fun _ _ hh => D.halt_trans hl hh

theorem fail {Q : PUnit → Branch → Prop} (hq : Q ⟨⟩ b.fail) : D.Makes i BranchM.fail b Q :=
  change .fail hq

theorem whenFeasible {work : BranchM Unit} {Q : Unit → Branch → Prop}
    (h : b.feasible = true → D.Makes i work b Q) (hn : b.feasible = false → Q () b) :
    D.Makes i (BranchM.whenFeasible work) b Q :=
  fun hb => BranchM.meets_whenFeasible.mpr ⟨fun hf => h hf hb, fun hf => ⟨hb, D.refl i b, hn hf⟩⟩

theorem forM {work : β → BranchM Unit} {l : List β} (I : List β → Branch → Prop) (h : I l b)
    (hstep : ∀ a rest c, D.leads i b c → I (a :: rest) c → D.Makes i (work a) c fun _ d => I rest d) :
    D.Makes i (l.forM work) b fun _ c => I [] c := by
  intro hb
  refine BranchM.meets_forM (fun rest c => D.sound c ∧ D.leads i b c ∧ I rest c) ?_ ⟨hb, D.refl i b, h⟩
  rintro a rest c ⟨hc, hl, hi⟩
  exact (hstep a rest c hl hi hc).mono (fun _ _ ⟨hd, hl', hq⟩ => ⟨hd, D.trans hl hl', hq⟩)
    fun _ _ hh => D.halt_trans hl hh

-- The same without conditions on the results.
theorem ifFeasible {work : BranchM Unit} (h : b.feasible = true → D.Made i work b) :
    D.Made i (BranchM.whenFeasible work) b :=
  whenFeasible h fun _ => trivial

theorem done (a : α) : D.Made i (Pure.pure a : BranchM α) b := pure trivial

theorem followed {work : BranchM β} {next : β → BranchM α} (h : D.Made i work b)
    (hn : ∀ a c, D.leads i b c → D.Made i (next a) c) : D.Made i (work >>= next) b :=
  bind h fun a c hl _ => hn a c hl

theorem each {work : β → BranchM Unit} {l : List β}
    (h : ∀ a ∈ l, ∀ c, D.leads i b c → D.Made i (work a) c) : D.Made i (l.forM work) b := by
  refine (forM (fun left _ => ∀ a ∈ left, a ∈ l) (fun _ ha => ha) ?_).made
  intro a rest c hl hleft
  exact (h a (hleft a List.mem_cons_self) c hl).post fun _ _ _ _ _ x hx =>
    hleft x (List.mem_cons_of_mem a hx)

end Makes

end Discipline

namespace BranchM

open Discipline

section Narrowing

variable {unifying : Bool} {first second : Path}

theorem makes_narrowOne {mask : Mask} {path : Path} (hf : b.feasible = true) :
    D.Makes i (narrowOne unifying mask path) b fun _ c => c.feasible = true → Masked c.tree path mask := by
  intro hb
  cases hs : b.tree.get? path with
  | none => exact meets_nodeAt_none hs fun _ => D.halt hb
  | some s =>
      have hlost := D.change (i := i) hb .fail
      refine meets_narrowOne hs ((D.wellFormed hb).get? hs)
        (fun hkept => ⟨hb, D.refl i b, fun _ => ⟨s, hs, hkept⟩⟩) (fun _ => ⟨hlost.1, hlost.2, nofun⟩) ?_
      intro category rules tree statistics _ change replaced
      have h := D.change (i := i) hb (.edit unifying statistics hf change replaced)
      refine ⟨h.1, h.2, fun _ => ⟨.hole category (rules.restrict mask), ?_, fun n hn => ?_⟩⟩
      · rw [Branch.notify_tree]
        exact replaced.get?_new
      · exact ((Domain.mem_restrict n rules mask).mp hn).2

-- A position that has been narrowed takes no other rules, as long as the branch is feasible.
theorem makes_narrow (path : Path) (mask : Mask) : D.Makes i (narrow unifying path mask) b fun _ c =>
    c.feasible = true → Masked c.tree path mask := by
  refine .nodeAt_bind fun _ _ => .get_bind ?_
  refine (Makes.forM (fun rest c => path ∈ rest ∨ (c.feasible = true → Masked c.tree path mask))
    (Or.inl (b.classes.mem_members_self path)) fun member rest c _ hleft => ?_).post
      fun _ c _ _ hdone => hdone.resolve_left List.not_mem_nil
  refine .whenFeasible (fun hf => ?_) fun hf => Or.inr fun hf' => absurd (hf.symm.trans hf') nofun
  refine (makes_narrowOne hf).post fun _ d _ hl hmasked => ?_
  rcases hleft with hmem | hdone
  · rcases List.mem_cons.mp hmem with rfl | hmem
    · exact Or.inr hmasked
    · exact Or.inl hmem
  · exact Or.inr fun _ => (hdone hf).refines (D.refines hl)

theorem made_narrow (path : Path) (mask : Mask) : D.Made i (narrow unifying path mask) b :=
  (makes_narrow path mask).made

theorem made_narrowBy {result : Except Fault β} {mask : β → Mask} (path : Path) :
    D.Made i (attempt result >>= fun a => narrow unifying path (mask a)) b :=
  .attempt_bind fun _ _ => made_narrow path _

theorem made_compareRoots (r q : Int) : D.Made i (compareRoots p r q) b := by
  unfold compareRoots
  split
  · exact .done _
  · split
    · exact Makes.followed (Makes.fail trivial) fun _ _ _ => .done _
    · refine .attempt_bind fun terminal _ => ?_
      split <;> exact .done _

theorem made_lookAgain : D.Made i (lookAgain p first second) b := by
  unfold lookAgain
  refine .isFeasible_bind ?_
  split
  · exact .done _
  · refine .nodeAt_bind fun s _ => .nodeAt_bind fun t _ => ?_
    split
    · exact made_compareRoots _ _
    · refine .attempt_bind fun high _ => .attempt_bind fun low _ => ?_
      split <;> exact .done _

theorem made_compareHoles (s t : Tree) : D.Made i (compareHoles p unifying first second s t) b := by
  rw [compareHoles_eq]
  refine .followed ?_ fun _ _ _ => made_lookAgain
  split
  · exact made_narrowBy first
  · exact made_narrowBy second
  · exact .attempt_bind fun high _ => .followed (made_narrowBy first) fun _ _ _ =>
      .attempt_bind fun low _ => made_narrowBy second

theorem made_orderWith {below : BranchM Comparison} (hbelow : D.Made i below b) :
    D.Made i (orderWith p unifying below first second) b := by
  unfold orderWith
  refine .isFeasible_bind ?_
  split
  · exact .done _
  · refine .nodeAt_bind fun s _ => .nodeAt_bind fun t _ => ?_
    split
    · split
      · split
        · exact hbelow
        · exact made_compareRoots _ _
      · exact made_compareRoots _ _
    · exact made_compareHoles s t

theorem made_orderFrom (t : Tree) : D.Made i (orderFrom p unifying t first second) b := by
  induction t using Tree.induction generalizing first second b with
  | node r cs ih =>
      have hchildren (index : Nat) : D.Made i (orderChildren p unifying cs index first second) b := by
        induction cs generalizing index b with
        | nil => exact .done _
        | cons c cs ihc =>
            rw [orderChildren]
            refine .followed (ih c List.mem_cons_self) fun outcome _ _ => ?_
            split
            · exact ihc (fun d hd => ih d (List.mem_cons_of_mem c hd)) (index + 1)
            · exact .done _
      exact made_orderWith (hchildren 0)
  | hole => exact made_orderWith (.done _)
  | choice => exact made_orderWith (.done _)
  | var => exact made_orderWith (.done _)

theorem made_order : D.Made i (order p unifying first second) b := by
  unfold order
  refine .isFeasible_bind ?_
  split
  · exact .done _
  · exact .nodeAt_bind fun s _ => made_orderFrom s

end Narrowing

section Unifying

variable {unifying : Bool} {fill : Filler}

-- Work that fills a class of a feasible branch, whatever else is under way.
def MakesFills (D : Discipline p Stage) (fill : Filler) : Prop :=
  ∀ i b unifying path rule, b.feasible = true → D.Made i (fill unifying path rule) b

theorem made_sync (hfill : MakesFills D fill) (path : Path) : D.Made i (sync fill unifying path) b := by
  unfold sync
  refine .get_bind ?_
  dsimp only
  split
  · exact .done _
  · refine .attempt_bind fun trees _ => ?_
    split
    · exact made_narrow path _
    · refine .attempt_bind fun rule _ => .followed (made_narrow path _) fun _ c _ => ?_
      exact .ifFeasible (hfill i c unifying path rule)
    · exact Makes.fail trivial

theorem made_equate (hfill : MakesFills D fill) (first second : Path) :
    D.Made i (equate fill first second) b := by
  unfold equate
  refine .nodeAt_bind fun s hs => .nodeAt_bind fun t ht => .isFeasible_bind ?_
  split
  · exact .done _
  · split
    · exact Makes.fail trivial
    · exact Makes.followed (Makes.change (.unite ⟨s, hs⟩ ⟨t, ht⟩) trivial) fun _ _ _ => made_sync hfill first

theorem leads_uniteAll {anchor : Path} {others : List Path} {step : Path} (hb : D.sound b)
    (hplaced : ∀ q ∈ anchor :: others, ∃ s, b.tree.get? (q ++ step) = some s) :
    let c := { b with classes := others.foldl (fun classes member =>
      classes.unite (anchor ++ step) (member ++ step)) b.classes }
    D.sound c ∧ D.leads i b c := by
  induction others generalizing b with
  | nil => exact ⟨hb, D.refl i b⟩
  | cons member others ih =>
      obtain ⟨hc, hl⟩ := D.change (i := i) hb (.unite (hplaced anchor List.mem_cons_self)
        (hplaced member (List.mem_cons_of_mem anchor List.mem_cons_self)))
      obtain ⟨hd, hl'⟩ := ih hc fun q hq => hplaced q (by
        rcases List.mem_cons.mp hq with rfl | hq
        · exact List.mem_cons_self
        · exact List.mem_cons_of_mem anchor (List.mem_cons_of_mem member hq))
      exact ⟨hd, D.trans hl hl'⟩

theorem made_joinChildren (hfill : MakesFills D fill) {members : List Path} {arity : Nat}
    (hplaced : ∀ q ∈ members, ∀ n < arity, ∃ s, b.tree.get? (q ++ [(n : Int)]) = some s) :
    D.Made i (joinChildren fill unifying members arity) b := by
  cases members with
  | nil => exact .done _
  | cons anchor others =>
      refine .each fun n hn c hl => .ifFeasible fun _ => ?_
      have hchildren (q : Path) (hq : q ∈ anchor :: others) :
          ∃ s, c.tree.get? (q ++ [(n : Int)]) = some s :=
        placed hl (hplaced q hq n (List.mem_range.mp hn))
      refine Makes.followed (fun hc => ?_) fun _ _ _ => made_sync hfill _
      obtain ⟨hd, hl'⟩ := leads_uniteAll (i := i) hc hchildren
      exact ⟨hd, hl', trivial⟩

end Unifying

section Acting

variable {unifying : Bool} {fill : Filler} {w : Watch}

theorem made_orderNames (hw : D.admits b w) {bindings : List Binding} (names : List String)
    (settled : Bool) : D.Made i (orderNames p unifying w bindings names settled) b := by
  have hlast {b : Branch} (hw : D.admits b w) (settled : Bool) :
      D.Made i (if settled = true then modify (·.retire w) else return) b := by
    split
    · exact Makes.change (.retire hw) trivial
    · exact .done _
  induction names generalizing settled b with
  | nil => exact hlast hw settled
  | cons name names ih =>
      cases names with
      | nil => exact hlast hw settled
      | cons next rest =>
          rw [orderNames]
          refine .attempt_bind fun first _ => .attempt_bind fun second _ => ?_
          refine .followed made_order fun outcome c hl => ?_
          split
          · exact .done _
          · exact ih (D.admitted hl hw) false
          · exact ih (D.admitted hl hw) settled
          · exact ih (D.admitted hl hw) settled

theorem made_perform (hfill : MakesFills D fill) (hw : D.admits b w) (a : Action) :
    D.Made i (perform p fill unifying w a) b := by
  cases a with
  | retire => exact Makes.change (.retire hw) trivial
  | fail => exact Makes.fail trivial
  | keep path mask => exact made_narrow path mask
  | strike path rule => exact made_narrowBy path
  | equate first second => exact made_equate hfill first second
  | order bindings names => exact made_orderNames hw names true

theorem made_propagate (hfill : MakesFills D fill) (hw : D.admits b w) :
    D.Made i (propagate p fill unifying w) b :=
  .get_bind (.reckon_bind fun _ _ => .each fun a _ _ hl => made_perform hfill (D.admitted hl hw) a)

-- Work that shows a position to a constraint of the grammar.
def Posts (D : Discipline p Stage) (fill : Filler) : Prop :=
  ∀ i b unifying k path w, k ∈ p.grammar.constraints → (∃ s, b.tree.get? path = some s) →
    k.watchAt p b.tree path = .ok (some w) → D.Made i (post p fill unifying w) b

theorem made_announceTo {path : Path} {k : Constraint}
    (hpost : ∀ c w, D.leads i b c → k.watchAt p c.tree path = .ok (some w) →
      D.Made i (post p fill unifying w) c) :
    D.Made i (announceTo p fill unifying path k) b := by
  unfold announceTo
  refine .get_bind (.attempt_bind fun asked hasked => ?_)
  have hlogged : D.Makes i (modify fun b => { b with log := ⟨k, path, asked⟩ :: b.log }) b
      fun _ c => c.tree = b.tree := .change (.log _) rfl
  refine hlogged.bind fun _ c hl htree => ?_
  cases asked with
  | none => exact .done _
  | some w => exact hpost c w hl (htree ▸ hasked)

theorem made_announce (hposts : Posts D fill) {path : Path} (hs : ∃ s, b.tree.get? path = some s) :
    D.Made i (announce p fill unifying path) b :=
  .each fun k hk _ hl => .ifFeasible fun _ => made_announceTo fun d w hl' =>
    hposts i d unifying k path w hk (placed (D.trans hl hl') hs)

theorem made_announceAll (hposts : Posts D fill) {paths : List Path}
    (hs : ∀ path ∈ paths, ∃ s, b.tree.get? path = some s) :
    D.Made i (paths.forM fun path => whenFeasible (announce p fill unifying path)) b :=
  .each fun path hp _ hl => .ifFeasible fun _ => made_announce hposts (placed hl (hs path hp))

end Acting

section Filling

variable {unifying : Bool} {rule : Nat}

-- What filling positions comes to before their children are united.
structure Fresh (rule : Nat) (members opened : List Path) (c : Branch) : Prop where
  placed : ∀ path ∈ opened, ∃ s, c.tree.get? path = some s
  nodes : c.feasible = true → ∀ member ∈ members, ∃ cs, c.tree.get? member = some (.node rule cs)

theorem makes_fillMember (hg : p.grammar.Regular) {path : Path} (hf : b.feasible = true) :
    D.Makes i (fillMember p unifying rule path) b (Fresh rule [path]) := by
  intro hb
  cases hs : b.tree.get? path with
  | none => exact meets_nodeAt_none hs fun _ => D.halt hb
  | some s =>
      have hlost := D.change (i := i) hb .fail
      refine meets_fillMember hs ((D.wellFormed hb).get? hs) ?_
        (fun _ => ⟨hlost.1, hlost.2, nofun, nofun⟩) ?_
      · rintro cs rfl
        exact ⟨hb, D.refl i b, nofun, fun _ member hm => ⟨cs, List.mem_singleton.mp hm ▸ hs⟩⟩
      · rintro category rules rfl hmem
        refine meets_fillOne hg hs ((D.wellFormed hb).get? hs) hmem (fun _ => D.halt hb)
          (fun _ _ _ _ _ => ⟨hlost.1, hlost.2, nofun, nofun⟩) ?_
        intro production holes tree statistics _ _ change replaced
        have h := D.change (i := i) hb (.edit unifying statistics hf change replaced)
        have hnew : (({ b with tree, statistics } : Branch).notify unifying path).tree.get? path =
            some (.node rule holes) := by
          rw [Branch.notify_tree]
          exact replaced.get?_new
        refine ⟨h.1, h.2, fun q hq => ?_, fun _ member hm => ⟨holes, List.mem_singleton.mp hm ▸ hnew⟩⟩
        obtain ⟨n, hn, rfl⟩ := List.mem_map.mp hq
        rw [Tree.get?_below hnew]
        exact ⟨_, List.getElem?_eq_getElem (List.mem_range.mp hn)⟩

theorem makes_fillMembers (hg : p.grammar.Regular) (members : List Path) (hf : b.feasible = true) :
    D.Makes i (fillMembers p unifying rule members) b (Fresh rule members) := by
  induction members generalizing b with
  | nil => exact .pure ⟨nofun, nofun⟩
  | cons member rest ih =>
      refine .bind (makes_fillMember hg hf) fun opened c _ hopened => .isFeasible_bind ?_
      split
      · rename_i hfc
        refine .bind (ih hfc) fun more d hl hmore => .pure ⟨fun path hp => ?_, fun hfd other ho => ?_⟩
        · rcases List.mem_append.mp hp with hp | hp
          · exact placed hl (hopened.placed path hp)
          · exact hmore.placed path hp
        · rcases List.mem_cons.mp ho with rfl | ho
          · exact node hl (hopened.nodes hfc other (List.mem_singleton_self other))
          · exact hmore.nodes hfd other ho
      · rename_i hfc
        exact .pure ⟨nofun, fun h => absurd h hfc⟩

-- A position filled with a rule has the children that the rule asks for.
theorem children_placed (hw : p.grammar.WellFormed none b.tree) {path : Path} {production : Rule}
    (hs : ∃ cs, b.tree.get? path = some (.node rule cs)) (hr : p.grammar.rule? rule = some production)
    {n : Nat} (hn : n < production.children.length) : ∃ s, b.tree.get? (path ++ [(n : Int)]) = some s := by
  obtain ⟨cs, hs⟩ := hs
  obtain ⟨r, hr', -, -, hlen, -⟩ := Grammar.wellFormed_node_iff.mp (hw.get? hs)
  obtain rfl := Option.some.inj (hr.symm.trans hr')
  rw [Tree.get?_below hs]
  exact ⟨_, List.getElem?_eq_getElem (by omega)⟩

theorem makesFills_fillClass (hg : p.grammar.Regular)
    (hposts : ∀ fill, MakesFills D fill → Posts D fill) (steps : Nat) :
    MakesFills D (fillClass p steps) := by
  induction steps with
  | zero => exact fun _ _ _ _ _ _ => .throw _
  | succ steps ih =>
      intro i b unifying path rule hf
      have hshow := hposts _ ih
      unfold fillClass
      refine .get_bind (.bind (makes_fillMembers hg _ hf) fun opened c _ hopened => ?_)
      refine .ifFeasible fun hfc hc => ?_
      have hnodes := hopened.nodes hfc
      obtain ⟨cs, hcs⟩ := hnodes path (b.classes.mem_members_self path)
      obtain ⟨r, hr, -⟩ := Grammar.wellFormed_node_iff.mp ((D.wellFormed hc).get? hcs)
      refine meets_joinAndShow hr (Makes.followed (made_joinChildren ih ?_) (fun _ d hl => ?_) hc)
        fun _ => made_announceAll hshow hopened.placed hc
      · exact fun q hq n hn => children_placed (D.wellFormed hc) (hnodes q hq) hr hn
      · exact made_announceAll hshow fun q hq => placed hl (hopened.placed q hq)

end Filling

section Operations

variable (hfill : ∀ steps, MakesFills D (fillClass p steps))

include hfill

theorem made_fill (steps : Nat) (path : Path) (rule : Int) : D.Made i (fill p steps path rule) b := by
  unfold fill
  refine .nodeAt_bind fun s _ => ?_
  split
  · exact .throw _
  · refine .ifFeasible fun _ => .attempt_bind fun r _ => .followed (made_narrow path _) fun _ c _ => ?_
    exact .ifFeasible (hfill steps i c false path r)

theorem made_materialize (steps : Nat) : D.Made i (materialize p steps) b := by
  induction steps generalizing b with
  | zero => exact .throw _
  | succ steps ih =>
      unfold materialize
      refine .get_bind ?_
      split
      · exact .done _
      · rename_i hf
        split
        · exact .done _
        · exact .followed (hfill steps i b false _ _ (by simpa using hf)) fun _ _ _ =>
            .followed ih fun _ _ _ => .done _

omit hfill

theorem made_tightenHoles (total : Cost) (holes : List (Path × Cost)) (changed : Bool) :
    D.Made i (tightenHoles p total holes changed) b := by
  induction holes generalizing changed b with
  | nil => exact .done _
  | cons x holes ih =>
      unfold tightenHoles
      refine .reckon_bind fun fitting _ => .nodeAt_bind fun s _ => ?_
      split
      · split
        · exact ih changed
        · refine .followed (made_narrow _ _) fun _ _ _ => .isFeasible_bind ?_
          split
          · exact ih true
          · exact .done _
      · exact ih changed

theorem made_tighten : D.Made i (tighten p) b := by
  unfold tighten
  split
  · exact .done _
  · refine .get_bind (.reckon_bind fun analysis _ => .reckon_bind fun total _ => ?_)
    split
    · exact Makes.followed (Makes.fail trivial) fun _ _ _ => .done _
    · exact made_tightenHoles _ _ false

end Operations

end BranchM

end TreeSearch
