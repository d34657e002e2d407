import TreeSearch.Proofs.Branch.Operating
import TreeSearch.Proofs.Branch.Scheduling

namespace TreeSearch

variable {p : Problem} {a b c : Branch}

theorem Worklist.isEmpty_iff {α : Type} {q : Worklist α} : q.isEmpty = true ↔ q.pending = [] :=
  List.isEmpty_iff

namespace Branch

-- A branch that has failed has nothing queued.
def Spent (b : Branch) : Prop := b.feasible = false → b.queue.isEmpty = true

-- What has been decided stays decided. As long as it is calm, a failed branch has nothing to do.
structure Lasts (calm : Prop) (b c : Branch) : Prop where
  refines : c.tree.Refines b.tree
  infeasible : b.feasible = false → c.feasible = false ∧ c.tree = b.tree
  spent : calm → b.Spent → c.Spent

variable {calm calm' : Prop}

namespace Lasts

theorem of_eq (htree : c.tree = b.tree) (hf : c.feasible = b.feasible) (hs : calm → b.Spent → c.Spent) :
    b.Lasts calm c :=
  ⟨htree ▸ .refl b.tree, fun h => ⟨hf.trans h, htree⟩, hs⟩

theorem refl (calm : Prop) (b : Branch) : b.Lasts calm b := of_eq rfl rfl fun _ hb => hb

theorem trans (h : a.Lasts calm b) (h' : b.Lasts calm' c) : a.Lasts (calm ∧ calm') c where
  refines := h'.refines.trans h.refines
  infeasible hf := by
    obtain ⟨hf', htree⟩ := h'.infeasible (h.infeasible hf).1
    exact ⟨hf', htree.trans (h.infeasible hf).2⟩
  spent hcalm ha := h'.spent hcalm.2 (h.spent hcalm.1 ha)

theorem mono (h : b.Lasts calm c) (hcalm : calm' → calm) : b.Lasts calm' c :=
  { h with spent := fun hc => h.spent (hcalm hc) }

end Lasts

theorem Change.lasts {admitted : Watch → Prop} (h : b.Change p admitted c) : b.Lasts True c := by
  cases h with
  | @edit path old new tree unifying statistics feasible change replaced =>
      let changed : Branch := { b with tree, statistics }
      have hc : (changed.notify unifying path).feasible = true :=
        (notify_feasible changed path unifying).trans feasible
      refine ⟨?_, fun hf => absurd (feasible.symm.trans hf) nofun, fun _ _ hf => absurd (hc.symm.trans hf) nofun⟩
      rw [notify_tree]
      exact replaced.refines change.refines
  | fail => exact ⟨.refl b.tree, fun _ => ⟨rfl, rfl⟩, fun _ _ _ => rfl⟩
  | @retire w =>
      refine .of_eq rfl rfl fun _ hb hf => Worklist.isEmpty_iff.mpr ?_
      simp [Branch.retire, Worklist.remove, Worklist.isEmpty_iff.mp (hb hf)]
  | log => exact .of_eq rfl rfl fun _ hb => hb
  | unite => exact .of_eq rfl rfl fun _ hb => hb
  | count => exact .of_eq rfl rfl fun _ hb => hb

theorem Change.wellFormed {admitted : Watch → Prop} (h : b.Change p admitted c)
    (hw : p.grammar.WellFormed none b.tree) : p.grammar.WellFormed none c.tree := by
  cases h with
  | edit unifying statistics feasible change replaced =>
      rw [notify_tree]
      exact hw.replaced replaced fun _ => change.wellFormed
  | _ => exact hw

theorem lasts_popped : b.Lasts True b.popped := by
  refine .of_eq rfl rfl fun _ hb hf => Worklist.isEmpty_iff.mpr ?_
  have hpending := Worklist.isEmpty_iff.mp (hb hf)
  show b.queue.pop.2.pending = []
  unfold Worklist.pop
  split
  · simp [hpending]
  · exact hpending

-- All work keeps to what has been decided, whichever constraints act.
def lasting (p : Problem) : Discipline p Unit where
  sound b := p.grammar.WellFormed none b.tree
  admits _ _ := True
  leads _ b c := b.Lasts True c
  halts _ b c := p.grammar.WellFormed none c.tree ∧ b.Lasts True c
  wellFormed h := h
  refl _ := .refl True
  trans h h' := (h.trans h').mono fun _ => ⟨trivial, trivial⟩
  halt h := ⟨h, .refl True _⟩
  halt_trans h h' := ⟨h'.1, (h.trans h'.2).mono fun _ => ⟨trivial, trivial⟩⟩
  refines h := h.refines
  admitted _ _ := trivial
  change hw h := ⟨h.wellFormed hw, h.lasts⟩

theorem lasting_welcomes (p : Problem) : (lasting p).Welcomes where
  admits _ _ := trivial
  posted _ _ _ _ hw := ⟨hw, .of_eq rfl rfl fun _ hb => hb⟩
  popped _ _ hw := ⟨hw, lasts_popped⟩

end Branch

-- What commands make of a branch and its copies. A command that halts, for whatever reason, leaves
-- behind what it has done until then, and other commands may follow.
inductive Branch.Ran (p : Problem) (b : Branch) : List Command → Branch → Prop
  | refl : Ran p b [] b
  | fork {commands : List Command} {c : Branch} (h : Ran p b commands c) : Ran p b commands c.fork
  | command {fuel : Nat} {commands : List Command} {c d : Branch} (command : Command)
      (h : Ran p b commands c) (done : (command.work p fuel).run c = .ok () d) :
      Ran p b (commands ++ [command]) d
  | halt {fuel : Nat} {halt : Halt} {commands : List Command} {c d : Branch} (command : Command)
      (h : Ran p b commands c) (halted : (command.work p fuel).run c = .error halt d) :
      Ran p b (commands ++ [command]) d

namespace Branch

-- A command lasts wherever it ends.
theorem lasts_command (hg : p.grammar.Regular) (fuel : Nat) (command : Command)
    (hw : p.grammar.WellFormed none b.tree) :
    (command.work p fuel).Meets b
      (fun _ c => p.grammar.WellFormed none c.tree ∧ b.Lasts (∀ w, command ≠ .schedule w) c)
      fun _ c => p.grammar.WellFormed none c.tree ∧ b.Lasts (∀ w, command ≠ .schedule w) c := by
  by_cases hc : ∀ w, command ≠ .schedule w
  · exact ((lasting_welcomes p).command (i := ()) hg fuel command hc hw).mono
      (fun _ _ ⟨hw, hl, _⟩ => ⟨hw, hl.mono fun _ => trivial⟩) fun _ _ h => ⟨h.1, h.2.mono fun _ => trivial⟩
  · obtain ⟨w, rfl⟩ : ∃ w, command = .schedule w := by simpa using hc
    have hsame : (b.schedule w).tree = b.tree ∧ (b.schedule w).feasible = b.feasible := by
      unfold Branch.schedule
      split <;> exact ⟨rfl, rfl⟩
    have hlasts : b.Lasts (∀ v, Command.schedule w ≠ .schedule v) (b.schedule w) :=
      .of_eq hsame.1 hsame.2 fun hcalm => absurd rfl (hcalm w)
    exact ⟨hsame.1 ▸ hw, hlasts⟩

theorem Ran.lasts (hg : p.grammar.Regular) (hw : p.grammar.WellFormed none b.tree)
    {commands : List Command} (h : b.Ran p commands c) :
    p.grammar.WellFormed none c.tree ∧ b.Lasts (∀ w, .schedule w ∉ commands) c := by
  have hlater {commands : List Command} {command : Command} {c d : Branch}
      (hc : b.Lasts (∀ w, .schedule w ∉ commands) c) (hd : c.Lasts (∀ w, command ≠ .schedule w) d) :
      b.Lasts (∀ w, .schedule w ∉ commands ++ [command]) d := by
    refine (hc.trans hd).mono fun hcalm => ⟨?_, ?_⟩
    · exact fun w hmem => hcalm w (List.mem_append_left _ hmem)
    · rintro w rfl
      exact hcalm w (by simp)
  induction h with
  | refl => exact ⟨hw, .refl _ b⟩
  | fork _ ih => exact ⟨ih.1, ih.2.refines, ih.2.infeasible, ih.2.spent⟩
  | command command _ done ih =>
      obtain ⟨hd, hl⟩ := (lasts_command hg _ command ih.1).ok done
      exact ⟨hd, hlater ih.2 hl⟩
  | halt command _ halted ih =>
      obtain ⟨hd, hl⟩ := (lasts_command hg _ command ih.1).error halted
      exact ⟨hd, hlater ih.2 hl⟩

-- Whatever is asked of a branch, the tree is only ever refined. Once the branch has failed, it does
-- not recover, its tree stays as it is, and nothing is queued unless by an explicit command.
theorem Ran.infeasible_is_final (hg : p.grammar.Reachable) {fuel : Nat} {root : Tree}
    (start : Branch.start p fuel root = .ok a) {before commands : List Command}
    (past : a.Ran p before b) (h : b.Ran p commands c) :
    c.tree.Refines b.tree ∧ (b.feasible = false → c.feasible = false ∧ c.tree = b.tree) ∧
      ((∀ w, .schedule w ∉ commands) → (b.feasible = true ∨ b.queue.isEmpty = true ∨ before = []) →
        c.feasible = false → c.queue.isEmpty = true) := by
  obtain ⟨hcheck, hshown⟩ := start_eq_ok.mp start
  have hroot := (Grammar.check_ofTree hg.regular _).mp hcheck
  obtain ⟨hwa, ha, -⟩ := ((lasting_welcomes p).start (i := ()) hg.regular fuel hroot).ok hshown
  obtain ⟨hwb, hb⟩ := past.lasts hg.regular hwa
  obtain ⟨-, hc⟩ := h.lasts hg.regular hwb
  refine ⟨hc.refines, hc.infeasible, fun hcalm hready => hc.spent hcalm ?_⟩
  rcases hready with hf | hidle | rfl
  · exact fun hf' => absurd (hf.symm.trans hf') nofun
  · exact fun _ => hidle
  · refine hb.spent (fun w => List.not_mem_nil) (ha.spent trivial ?_)
    exact fun hf => absurd hf nofun

section Twins

-- The root loses its rule.
def twinsLost : Branch := { twinsUnited with feasible := false }

-- Neither a request nor one that ends in a fault brings the branch back.
theorem infeasible_is_final_twins :
    twinsOpen.Ran .twins [.request (.equate [0] [1]), .request (.strike [] 1)] twinsLost ∧
      twinsLost.Ran .twins [.request (.fill [0] 1), .request (.fill [] 1)] twinsLost ∧
      twinsLost.tree.Refines twinsLost.tree ∧
      (twinsLost.feasible = false → twinsLost.feasible = false ∧ twinsLost.tree = twinsLost.tree) ∧
      ((∀ w, .schedule w ∉ [Command.request (.fill [0] 1), .request (.fill [] 1)]) →
        (twinsLost.feasible = true ∨ twinsLost.queue.isEmpty = true ∨
          [Command.request (.equate [0] [1]), .request (.strike [] 1)] = []) →
        twinsLost.feasible = false → twinsLost.queue.isEmpty = true) := by
  have hstart : Branch.start .twins 2 (.twins (.hole "S" (.ofList [0, 1]))) = .ok twinsOpen := rfl
  have hequate : ((Command.request (.equate [0] [1])).work .twins 2).run twinsOpen = .ok () twinsUnited := rfl
  have hstrike : ((Command.request (.strike [] 1)).work .twins 2).run twinsUnited = .ok () twinsLost := rfl
  have hfill : ((Command.request (.fill [0] 1)).work .twins 2).run twinsLost = .ok () twinsLost := rfl
  have hfilled : ((Command.request (.fill [] 1)).work .twins 2).run twinsLost =
      .error (.fault (.alreadyFilled [])) twinsLost := rfl
  have hpast : twinsOpen.Ran .twins [.request (.equate [0] [1]), .request (.strike [] 1)] twinsLost :=
    .command _ (.command _ .refl hequate) hstrike
  have hrun : twinsLost.Ran .twins [.request (.fill [0] 1), .request (.fill [] 1)] twinsLost :=
    .halt _ (.command _ .refl hfill) hfilled
  exact ⟨hpast, hrun, Ran.infeasible_is_final Grammar.reachable_twins hstart hpast hrun⟩

end Twins

-- A retired constraint is one of the grammar's, and every complete tree that the branch can become
-- satisfies it, within the limits or not, and whatever the other constraints say.
theorem Reached.retired_entailed (hg : p.grammar.Reachable) {category : String}
    (h : b.Reached p category) (hf : b.feasible = true) :
    ∀ w ∈ b.retired, w.constraint ∈ p.grammar.constraints ∧ w.Fits ∧
      ∀ t, p.grammar.WellFormed none t → t.Complete → t.Refines b.tree →
        w.constraint.HoldsAt t w.path := by
  have hb := h.sustained hg.regular
  intro w hw
  obtain ⟨hmem, hfits, -⟩ := hb.ready.sound.watched w (Or.inr hw)
  refine ⟨hmem, hfits, fun t hwt hct hr => ?_⟩
  have hentailed := ((hb.tended hf).attended.retired w hw).resolve_left id
  exact hentailed t ⟨hwt, hct, hr⟩

theorem retired_entailed_triple : Branch.Reached .triple "S" .tripleOuter ∧
    Watch.inner ∈ tripleOuter.retired ∧
    ∀ t, Grammar.triple.WellFormed none t → t.Complete → t.Refines tripleOuter.tree →
      Constraint.inner.HoldsAt t [] := by
  have hrun : (BranchM.fixPoint .triple 4).run .tripleOpen = .ok true .tripleOuter := by
    decide +kernel
  have h : Branch.Reached .triple "S" .tripleOuter := reached_triple.fixPoint hrun
  have hmem : Watch.inner ∈ tripleOuter.retired := by decide
  exact ⟨h, hmem, (h.retired_entailed Grammar.reachable_triple rfl .inner hmem).2.2⟩

end Branch

end TreeSearch
