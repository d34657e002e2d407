import TreeSearch.Proofs.Branch.Ordering
import TreeSearch.Proofs.Result

namespace TreeSearch

namespace Branch

-- What stands in the tree, which paths are united, and whether there is a tree left. Nothing is
-- watched.
def core (b : Branch) : Branch := { Branch.of b.tree with classes := b.classes, feasible := b.feasible }

-- The branch with another line behind what is pending.
def lined (b : Branch) (line : List Watch) : Branch := { b with queue := ⟨line, b.queue.pending⟩ }

-- Takes a constraint into service, unless it is watched already.
def enlist (b : Branch) (w : Watch) : Branch :=
  if w ∈ b.active ∨ w ∈ b.retired then b
  else { b with active := b.active.insert w, statistics.posted := b.statistics.posted + 1 }

end Branch

namespace BranchM

variable {p : Problem} {L : {α : Type} → BranchM α → Prop} {α β : Type}

-- A property that work inherits from its parts, as long as the work looks at nothing but what
-- stands in the tree.
structure Composed (L : {α : Type} → BranchM α → Prop) : Prop where
  pure {α : Type} (a : α) : L (Pure.pure a : BranchM α)
  bind {α β : Type} {work : BranchM β} {next : β → BranchM α} (h : L work) (hn : ∀ a, L (next a)) :
    L (work >>= next)
  attempt {α : Type} (result : Except Fault α) : L (BranchM.attempt result)
  peek {α : Type} {next : Branch → BranchM α} (same : ∀ b, next b.core = next b)
    (hn : ∀ b, L (next b)) : L (get >>= next)

-- A property of work that looks at more than that. Where the places of the line are is not to be
-- looked at, which is up to the queue alone.
structure Inherited (L : {α : Type} → BranchM α → Prop) : Prop extends Composed L where
  look {α : Type} {next : Branch → BranchM α} (same : ∀ b line, next (b.lined line) = next b)
    (hn : ∀ b, L (next b)) : L (get >>= next)
  peek same hn := look (fun b line => (same (b.lined line)).symm.trans (same b)) hn

namespace Composed

theorem nodeAt (h : Composed L) (path : Path) : L (nodeAt path) :=
  h.peek (fun _ => rfl) fun _ => h.attempt _

theorem isFeasible (h : Composed L) : L isFeasible := h.peek (fun _ => rfl) fun _ => h.pure _

theorem whenFeasible (h : Composed L) {work : BranchM Unit} (hwork : L work) : L (whenFeasible work) := by
  refine h.bind h.isFeasible fun feasible => ?_
  split
  · exact hwork
  · exact h.pure _

theorem forM (h : Composed L) {work : β → BranchM Unit} {l : List β} (hwork : ∀ a ∈ l, L (work a)) :
    L (l.forM work) := by
  induction l with
  | nil => exact h.pure _
  | cons a l ih =>
      show L (work a >>= fun _ => l.forM work)
      exact h.bind (hwork a List.mem_cons_self) fun _ => ih fun x hx => hwork x (List.mem_cons_of_mem a hx)

theorem reckon_bind (h : Composed L) {result : Except Halt β} {next : β → BranchM α}
    (hr : L (BranchM.reckon result)) (hn : ∀ a, result = .ok a → L (next a)) :
    L (BranchM.reckon result >>= next) := by
  cases result with
  | ok a => exact hn a rfl
  | error halt =>
      -- whatever comes after a halt is not done
      have hnever (fault : Fault) : L (BranchM.reckon (.error halt : Except Halt β) >>=
          fun _ => (BranchM.attempt (.error fault) : BranchM α)) := h.bind hr fun _ => h.attempt _
      exact hnever .negativeShift

theorem attempt_bind (h : Composed L) {result : Except Fault β} {next : β → BranchM α}
    (hn : ∀ a, result = .ok a → L (next a)) : L (BranchM.attempt result >>= next) := by
  cases result with
  | ok a => exact hn a rfl
  | error fault => exact h.attempt (.error fault : Except Fault α)

-- Edits count what they do, but take nothing back into service.
theorem narrowOne (h : Composed L) (hfail : L fail) {unifying : Bool} {path : Path}
    (hedit : ∀ part count, (∀ s : Statistics, (count s).reactivations = s.reactivations) →
      L (edit unifying path part count)) (mask : Mask) : L (narrowOne unifying mask path) := by
  unfold BranchM.narrowOne
  refine h.bind (h.nodeAt path) fun s => ?_
  split
  · refine h.bind (h.attempt _) fun kept => ?_
    split
    · exact hfail
    · exact h.pure _
  · dsimp only
    split
    · exact h.pure _
    · split
      · exact hfail
      · exact hedit _ _ fun _ => rfl
  · exact h.pure _

theorem narrow (h : Composed L) {unifying : Bool}
    (hone : ∀ mask path, L (BranchM.narrowOne unifying mask path)) (path : Path) (mask : Mask) :
    L (narrow unifying path mask) :=
  h.bind (h.nodeAt path) fun _ => h.peek (fun _ => rfl) fun _ =>
    h.forM fun member _ => h.whenFeasible (hone mask member)

section Order

variable {unifying : Bool} (h : Composed L) (hfail : L fail)

include h hfail

theorem compareRoots (r q : Int) : L (compareRoots p r q) := by
  unfold BranchM.compareRoots
  split
  · exact h.pure _
  · split
    · exact h.bind hfail fun _ => h.pure _
    · refine h.bind (h.attempt _) fun terminal => ?_
      split <;> exact h.pure _

theorem lookAgain (first second : Path) : L (lookAgain p first second) := by
  unfold BranchM.lookAgain
  refine h.bind h.isFeasible fun feasible => ?_
  split
  · exact h.pure _
  · refine h.bind (h.nodeAt first) fun s => h.bind (h.nodeAt second) fun t => ?_
    split
    · exact h.compareRoots hfail _ _
    · refine h.bind (h.attempt _) fun high => h.bind (h.attempt _) fun low => ?_
      split <;> exact h.pure _

-- Nothing is narrowed but some positions, and with a position those below it are among them.
variable {P : Path → Prop} (hnarrow : ∀ path mask, P path → L (BranchM.narrow unifying path mask))

include hnarrow

theorem compareHoles {first second : Path} (hfirst : P first) (hsecond : P second) (s t : Tree) :
    L (compareHoles p unifying first second s t) := by
  have hstrike {β : Type} {path : Path} (hp : P path) (result : Except Fault β) (mask : β → Mask) :
      L (BranchM.attempt result >>= fun a => BranchM.narrow unifying path (mask a)) :=
    h.bind (h.attempt _) fun _ => hnarrow path _ hp
  rw [compareHoles_eq]
  refine h.bind ?_ fun _ => h.lookAgain hfail first second
  split
  · exact hstrike hfirst _ id
  · exact hstrike hsecond _ id
  · exact h.bind (h.attempt _) fun high => h.bind (hstrike hfirst _ id) fun _ =>
      h.bind (h.attempt _) fun low => hstrike hsecond _ id

theorem orderWith {below : BranchM Comparison} (hbelow : L below) {first second : Path}
    (hfirst : P first) (hsecond : P second) : L (orderWith p unifying below first second) := by
  unfold BranchM.orderWith
  refine h.bind h.isFeasible fun feasible => ?_
  split
  · exact h.pure _
  · refine h.bind (h.nodeAt first) fun s => h.bind (h.nodeAt second) fun t => ?_
    split
    · split
      · split
        · exact hbelow
        · exact h.compareRoots hfail _ _
      · exact h.compareRoots hfail _ _
    · exact h.compareHoles hfail hnarrow hfirst hsecond s t

variable (hdown : ∀ path (i : Nat), P path → P (path ++ [(i : Int)]))

include hdown

theorem orderFrom (t : Tree) {first second : Path} (hfirst : P first) (hsecond : P second) :
    L (orderFrom p unifying t first second) := by
  induction t using Tree.induction generalizing first second with
  | node r cs ih =>
      have hchildren (index : Nat) : L (orderChildren p unifying cs index first second) := by
        induction cs generalizing index with
        | nil => exact h.pure _
        | cons c cs ihc =>
            rw [orderChildren]
            have hone := ih c List.mem_cons_self (hdown first index hfirst) (hdown second index hsecond)
            refine h.bind hone fun outcome => ?_
            split
            · exact ihc (fun d hd => ih d (List.mem_cons_of_mem c hd)) (index + 1)
            · exact h.pure _
      exact h.orderWith hfail hnarrow (hchildren 0) hfirst hsecond
  | hole => exact h.orderWith hfail hnarrow (h.pure _) hfirst hsecond
  | choice => exact h.orderWith hfail hnarrow (h.pure _) hfirst hsecond
  | var => exact h.orderWith hfail hnarrow (h.pure _) hfirst hsecond

theorem order {first second : Path} (hfirst : P first) (hsecond : P second) :
    L (order p unifying first second) := by
  unfold BranchM.order
  refine h.bind h.isFeasible fun feasible => ?_
  split
  · exact h.pure _
  · exact h.bind (h.nodeAt first) fun s => h.orderFrom hfail hnarrow hdown s hfirst hsecond

end Order

end Composed

-- A property of giving up, narrowing and putting in order, and of looking up the rules below the
-- depth limit.
structure Pruning (p : Problem) (L : {α : Type} → BranchM α → Prop) : Prop extends Composed L where
  fail : L fail
  narrow (unifying : Bool) (path : Path) (mask : Mask) : L (narrow unifying path mask)
  order (unifying : Bool) (first second : Path) : L (order p unifying first second)
  shallow (path : Path) : L (reckon (p.shallow path))

theorem Composed.pruning (h : Composed L) (shallow : ∀ path, L (reckon (p.shallow path))) (fail : L fail)
    (narrowed : ∀ unifying mask path, L (BranchM.narrowOne unifying mask path)) : Pruning p L :=
  { h with
    fail
    narrow unifying path mask := h.narrow (narrowed unifying) path mask
    order unifying _ _ := h.order fail (P := fun _ => True)
      (fun path mask _ => h.narrow (narrowed unifying) path mask) (fun _ _ => id) trivial trivial
    shallow }

namespace Pruning

variable {fill : Filler}

section Uniting

variable (h : Pruning p L) (hfill : ∀ unifying path rule, L (fill unifying path rule))

include h hfill

theorem sync (unifying : Bool) (path : Path) : L (sync fill unifying path) := by
  refine h.peek (fun _ => rfl) fun b => ?_
  dsimp only
  split
  · exact h.pure _
  · refine h.bind (h.attempt _) fun trees => ?_
    split
    · exact h.narrow unifying path _
    · refine h.bind (h.attempt _) fun rule => h.bind (h.narrow unifying path _) fun _ => ?_
      exact h.whenFeasible (hfill unifying path rule)
    · exact h.fail

variable (unites : ∀ f : PathClasses → PathClasses,
  L (modify fun b : Branch => { b with classes := f b.classes } : BranchM PUnit))

include unites

theorem equate (first second : Path) : L (equate fill first second) := by
  unfold BranchM.equate
  refine h.bind (h.nodeAt first) fun _ => h.bind (h.nodeAt second) fun _ => ?_
  refine h.bind h.isFeasible fun feasible => ?_
  split
  · exact h.pure _
  · split
    · exact h.fail
    · exact h.bind (unites (·.unite first second)) fun _ => h.sync hfill true first

theorem joinChildren (unifying : Bool) (members : List Path) (arity : Nat) :
    L (joinChildren fill unifying members arity) := by
  cases members with
  | nil => exact h.pure _
  | cons anchor others =>
      refine h.forM fun index _ => h.whenFeasible (h.bind ?_ fun _ => h.sync hfill unifying _)
      exact unites (others.foldl (fun classes member =>
        classes.unite (anchor ++ [(index : Int)]) (member ++ [(index : Int)])) ·)

end Uniting

section Filling

variable (h : Pruning p L) (hedit : ∀ unifying path part count,
  (∀ s : Statistics, (count s).reactivations = s.reactivations) → L (edit unifying path part count))

include h hedit

theorem fillMember (unifying : Bool) (rule : Nat) (path : Path) : L (fillMember p unifying rule path) := by
  have hone : L (fillOne p unifying rule path) := by
    refine h.bind (h.shallow _) fun fitting => h.bind (h.attempt _) fun production => ?_
    refine h.bind (h.attempt _) fun holes => ?_
    split
    · exact h.bind h.fail fun _ => h.pure _
    · exact h.bind (hedit unifying path _ _ fun _ => rfl) fun _ => h.pure _
  refine h.bind (h.nodeAt path) fun s => ?_
  split
  · split
    · exact h.bind h.fail fun _ => h.pure _
    · exact h.pure _
  · split
    · exact hone
    · exact h.bind h.fail fun _ => h.pure _

theorem fillMembers (unifying : Bool) (rule : Nat) (members : List Path) :
    L (fillMembers p unifying rule members) := by
  induction members with
  | nil => exact h.pure _
  | cons member rest ih =>
      refine h.bind (h.fillMember hedit unifying rule member) fun opened => h.bind h.isFeasible fun feasible => ?_
      split
      · exact h.bind ih fun _ => h.pure _
      · exact h.pure _

-- Showing the new positions to the constraints is up to whoever fills on their behalf.
theorem fillClass (stops : ∀ unifying path rule, L (fillClass p 0 unifying path rule))
    (unites : ∀ f : PathClasses → PathClasses,
      L (modify fun b : Branch => { b with classes := f b.classes } : BranchM PUnit))
    (shows : ∀ (fill : Filler) unifying path, (∀ unifying path rule, L (fill unifying path rule)) →
      L (announce p fill unifying path))
    (steps : Nat) (unifying : Bool) (path : Path) (rule : Nat) :
    L (fillClass p steps unifying path rule) := by
  induction steps generalizing unifying path rule with
  | zero => exact stops unifying path rule
  | succ steps ih =>
      have hshown (opened : List Path) : L (opened.forM fun path =>
          BranchM.whenFeasible (announce p (BranchM.fillClass p steps) unifying path)) :=
        h.forM fun path _ => h.whenFeasible (shows _ unifying path ih)
      refine h.peek (fun _ => rfl) fun b => ?_
      dsimp only
      refine h.bind (h.fillMembers hedit unifying rule _) fun opened => h.whenFeasible ?_
      split
      · refine h.bind (h.attempt _) fun arity => ?_
        exact h.bind (h.joinChildren ih unites unifying _ arity) fun _ => hshown opened
      · exact hshown opened

end Filling

end Pruning

-- A property of taking numbers from the tables and the limits.
structure Figures (p : Problem) (L : {α : Type} → BranchM α → Prop) : Prop where
  measured : L (reckon p.measured)
  measure (t : Tree) : L (reckon (p.measure t))
  fitting (total : Cost) (path : Path) (hole : Cost) : L (reckon (p.fitting total path hole))

-- A property of the work that constraints do, unless they unite paths.
structure Steady (p : Problem) (L : {α : Type} → BranchM α → Prop) : Prop extends
    Inherited L, Pruning p L where
  retire (w : Watch) : L (modify (Branch.retire · w) : BranchM PUnit)
  enlist (w : Watch) : L (modify (Branch.enlist · w) : BranchM PUnit)

theorem Inherited.steady (h : Inherited L) (shallow : ∀ path, L (reckon (p.shallow path))) (fail : L fail)
    (retire : ∀ w, L (modify (Branch.retire · w) : BranchM PUnit))
    (enlist : ∀ w, L (modify (Branch.enlist · w) : BranchM PUnit))
    (narrowed : ∀ unifying mask path, L (narrowOne unifying mask path)) : Steady p L :=
  { h, h.pruning shallow fail narrowed with retire, enlist }

theorem Steady.fill (h : Steady p L) {steps : Nat} (hfill : ∀ path rule, L (BranchM.fillClass p steps false path rule))
    (path : Path) (rule : Int) : L (fill p steps path rule) := by
  unfold BranchM.fill
  refine h.bind (h.nodeAt path) fun s => ?_
  split
  · exact h.attempt (.error (.alreadyFilled path))
  · refine h.whenFeasible (h.bind (h.attempt _) fun r => h.bind (h.narrow false path _) fun _ => ?_)
    exact h.whenFeasible (hfill path r)

theorem Steady.materialize (h : Steady p L) (stops : L (throw .outOfFuel : BranchM Bool))
    (hfill : ∀ steps path rule, L (BranchM.fillClass p steps false path rule)) (steps : Nat) :
    L (materialize p steps) := by
  induction steps with
  | zero => exact stops
  | succ steps ih =>
      unfold BranchM.materialize
      refine h.look (fun _ _ => rfl) fun b => ?_
      split
      · exact h.pure _
      · split
        · exact h.pure _
        · exact h.bind (hfill steps _ _) fun _ => h.bind ih fun _ => h.pure _

theorem post_eq (fill : Filler) (unifying : Bool) (w : Watch) :
    post p fill unifying w = get >>= fun b =>
      if !b.feasible ∨ w ∈ b.active ∨ w ∈ b.retired then Pure.pure ()
      else modify (Branch.enlist · w) >>= fun _ => propagate p fill unifying w := by
  funext b
  show (post p fill unifying w).run b = EStateM.run _ b
  unfold post
  rw [run_bind, run_bind]
  show (if _ then _ else _ : BranchM Unit).run b = (if _ then _ else _ : BranchM Unit).run b
  split
  · rfl
  · rename_i hnew
    have henlist : b.enlist w =
        { b with active := b.active.insert w, statistics.posted := b.statistics.posted + 1 } :=
      if_neg fun hw => hnew (Or.inr hw)
    rw [run_bind, run_bind]
    show (propagate p fill unifying w).run _ = (propagate p fill unifying w).run (b.enlist w)
    rw [henlist]

namespace Steady

variable {fill : Filler} {unifying : Bool} {w : Watch}

theorem narrowBy (h : Steady p L) {result : Except Fault β} {mask : β → Mask} (path : Path) :
    L (BranchM.attempt result >>= fun a => BranchM.narrow unifying path (mask a)) :=
  h.bind (h.attempt _) fun _ => h.narrow unifying path _

theorem orderNames (h : Steady p L) (bindings : List Binding) (names : List String) (settled : Bool) :
    L (orderNames p unifying w bindings names settled) := by
  have hlast (settled : Bool) : L (if settled = true then modify (·.retire w) else return : BranchM Unit) := by
    split
    · exact h.retire w
    · exact h.pure _
  induction names generalizing settled with
  | nil => exact hlast settled
  | cons name names ih =>
      cases names with
      | nil => exact hlast settled
      | cons next rest =>
          rw [BranchM.orderNames]
          refine h.bind (h.attempt _) fun first => h.bind (h.attempt _) fun second => ?_
          refine h.bind (h.order unifying first second) fun outcome => ?_
          split
          · exact h.pure _
          · exact ih false
          · exact ih settled
          · exact ih settled

-- Uniting paths is up to whoever fills them.
theorem perform (h : Steady p L) {a : Action}
    (hunites : ∀ first second, a = .equate first second → L (equate fill first second)) :
    L (perform p fill unifying w a) := by
  cases a with
  | retire => exact h.retire w
  | fail => exact h.fail
  | keep path mask => exact h.narrow unifying path mask
  | strike path rule => exact h.narrowBy path
  | equate first second => exact hunites first second rfl
  | order bindings names => exact h.orderNames bindings names true

theorem propagate (h : Steady p L) (hactions : ∀ t, L (reckon (w.actions p t))) (hunites : ∀ t acts first second, w.actions p t = .ok acts →
    .equate first second ∈ acts → L (equate fill first second)) : L (propagate p fill unifying w) :=
  h.look (fun _ _ => rfl) fun b => h.reckon_bind (hactions b.tree) fun acts hacts => h.forM fun _ ha =>
    h.perform fun first second he => hunites b.tree acts first second hacts (he ▸ ha)

theorem post (h : Steady p L) (hactions : ∀ t, L (reckon (w.actions p t))) (hunites : ∀ t acts first second, w.actions p t = .ok acts →
    .equate first second ∈ acts → L (equate fill first second)) : L (post p fill unifying w) := by
  rw [post_eq]
  refine h.look (fun _ _ => rfl) fun b => ?_
  split
  · exact h.pure _
  · exact h.bind (h.enlist w) fun _ => h.propagate hactions hunites

theorem tightenHoles (h : Steady p L) (figures : Figures p L) (total : Cost) (holes : List (Path × Cost)) (changed : Bool) :
    L (tightenHoles p total holes changed) := by
  induction holes generalizing changed with
  | nil => exact h.pure _
  | cons x holes ih =>
      unfold BranchM.tightenHoles
      refine h.bind (figures.fitting total x.1 x.2) fun fitting => h.bind (h.nodeAt x.1) fun s => ?_
      split
      · split
        · exact ih changed
        · refine h.bind (h.narrow false x.1 _) fun _ => h.bind h.isFeasible fun feasible => ?_
          split
          · exact ih true
          · exact h.pure _
      · exact ih changed

theorem tighten (h : Steady p L) (figures : Figures p L) : L (tighten p) := by
  unfold BranchM.tighten
  split
  · exact h.pure _
  · refine h.look (fun _ _ => rfl) fun b => h.bind figures.measured fun analysis => ?_
    refine h.bind (figures.measure b.tree) fun total => ?_
    split
    · exact h.bind h.fail fun _ => h.pure _
    · exact h.tightenHoles figures _ _ false

-- Propagation takes from the queue and counts what it takes.
theorem fixPoint (h : Steady p L) (figures : Figures p L) (stops : L (throw .outOfFuel : BranchM Bool)) (pops : L pop)
    (counts : L (modify fun b : Branch =>
      { b with statistics.propagations := b.statistics.propagations + 1 } : BranchM PUnit))
    (propagates : ∀ steps w, L (BranchM.propagate p (fillClass p steps) false w)) (steps : Nat) :
    L (fixPoint p steps) := by
  induction steps with
  | zero => exact stops
  | succ steps ih =>
      unfold BranchM.fixPoint
      refine h.bind h.isFeasible fun feasible => ?_
      split
      · exact h.pure _
      · refine h.bind pops fun next => ?_
        cases next with
        | some w =>
            refine h.bind (h.look (fun _ _ => rfl) fun b => ?_) fun _ => ih
            split
            · exact h.bind counts fun _ => propagates steps w
            · exact h.pure _
        | none =>
            refine h.bind (h.tighten figures) fun again => ?_
            split
            · exact ih
            · exact h.isFeasible

end Steady

section Preserving

variable {I : Branch → Prop} {E : Halt → Prop}

theorem inherited_preserves (hfault : ∀ fault, E (.fault fault)) :
    Inherited fun work => Preserves I E work where
  pure := .pure
  bind := .bind
  attempt := .attempt hfault
  look _ hn := .bind .get hn

theorem inherited_outlasts (I : Branch → Prop) (H : Halt → Prop) : Inherited fun work => Outlasts I H work where
  pure _ _ hb := hb
  bind h hn b hb := by
    rw [meets_bind]
    exact (h b hb).mono (fun a c hc => hn a c hc) fun _ _ hh => hh
  attempt _ := .reckon _
  look _ hn b hb := hn b b hb

end Preserving

end BranchM

end TreeSearch
