import TreeSearch.Proofs.Branch.Commands
import TreeSearch.Proofs.Branch.Discipline

namespace TreeSearch

variable {p : Problem} {Stage : Type} {D : Discipline p Stage} {i : Stage} {a b c : Branch}

namespace Discipline

-- Any constraint may act, be posted, and be taken off the queue.
structure Welcomes (D : Discipline p Stage) : Prop where
  admits (b : Branch) (w : Watch) : D.admits b w
  posted (i : Stage) {b : Branch} (w : Watch) (statistics : Statistics) (hb : D.sound b) :
    D.sound { b with active := b.active.insert w, statistics } ∧
      D.leads i b { b with active := b.active.insert w, statistics }
  popped (i : Stage) {b : Branch} (hb : D.sound b) : D.sound b.popped ∧ D.leads i b b.popped

namespace Welcomes

open BranchM

theorem post (hD : D.Welcomes) {fill : Filler} (hfill : MakesFills D fill) {unifying : Bool} (w : Watch) :
    D.Made i (post p fill unifying w) b := by
  unfold BranchM.post
  refine .get_bind ?_
  split
  · exact .done _
  · exact .set_bind (hD.posted i w _) (made_propagate hfill (hD.admits _ w))

theorem posts (hD : D.Welcomes) {fill : Filler} (hfill : MakesFills D fill) : Posts D fill :=
  fun _ _ _ _ _ w _ _ _ => hD.post hfill w

theorem makesFills (hD : D.Welcomes) (hg : p.grammar.Regular) (steps : Nat) :
    MakesFills D (fillClass p steps) :=
  makesFills_fillClass hg (fun _ => hD.posts) steps

theorem fixPoint (hD : D.Welcomes) (hg : p.grammar.Regular) (steps : Nat) :
    D.Made i (fixPoint p steps) b := by
  induction steps generalizing b with
  | zero => exact .throw _
  | succ steps ih =>
      unfold BranchM.fixPoint
      refine .isFeasible_bind ?_
      split
      · exact .done _
      · have hpop : D.Made i pop b := fun hb => ⟨(hD.popped i hb).1, (hD.popped i hb).2, trivial⟩
        refine .followed hpop fun next c _ => ?_
        cases next with
        | some w =>
            refine .followed ?_ fun _ _ _ => ih
            refine .get_bind ?_
            split
            · exact .followed (.change (.count _) trivial) fun _ _ _ =>
                made_propagate (hD.makesFills hg steps) (hD.admits _ w)
            · exact .done _
        | none =>
            refine .followed made_tighten fun again _ _ => ?_
            split
            · exact ih
            · exact .isFeasible_bind (.done _)

theorem request (hD : D.Welcomes) (hg : p.grammar.Regular) (steps : Nat) (request : Request) :
    D.Made i (request.work p steps) b := by
  have hfill := hD.makesFills hg
  cases request with
  | fill path rule => exact made_fill hfill steps path rule
  | strike path rule => exact made_narrowBy path
  | strikeAll path rules => exact made_narrowBy path
  | keep path mask => exact made_narrow path mask
  | keepAll path rules => exact made_narrowBy path
  | strikeAbove path rule => exact made_narrowBy path
  | strikeBelow path rule => exact made_narrowBy path
  | equate first second => exact made_equate (hfill steps) first second
  | order first second => exact .followed made_order fun _ _ _ => .done _
  | post w => exact hD.post (hfill steps) w
  | fixPoint => exact .followed (hD.fixPoint hg steps) fun _ _ _ => .done _
  | materialize => exact .followed (made_materialize hfill steps) fun _ _ _ => .done _

-- Only scheduling is no business of a discipline.
theorem command (hD : D.Welcomes) (hg : p.grammar.Regular) (steps : Nat) (command : Command)
    (hc : ∀ w, command ≠ .schedule w) : D.Made i (command.work p steps) b := by
  have hfill := hD.makesFills hg steps
  cases command with
  | request asked => exact hD.request hg steps asked
  | fail => exact .fail trivial
  | retire w => exact .change (.retire (hD.admits b w)) trivial
  | schedule w => exact absurd rfl (hc w)
  | propagate w => exact made_propagate hfill (hD.admits b w)
  | announce path k => exact made_announceTo fun _ w _ _ => hD.post hfill w

theorem start (hD : D.Welcomes) (hg : p.grammar.Regular) (steps : Nat) {tree : Tree} :
    D.Made i ((tree.positions []).forM fun x =>
      whenFeasible (announce p (fillClass p steps) false x.1)) (.of tree) :=
  .each fun x hx _ hl => .ifFeasible fun _ => made_announce (hD.posts (hD.makesFills hg steps))
    (placed hl ⟨x.2, (Tree.mem_positions_nil tree x.1 x.2).mp hx⟩)

end Welcomes

end Discipline

end TreeSearch
