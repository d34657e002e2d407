import TreeSearch.Proofs.Pattern.Match

namespace TreeSearch

-- What was found in a tree, as it is reported when the tree stands at a path.
def Binding.under (base : Path) (b : Binding) : Binding := { b with path := base ++ b.path }

def Requirement.under (base : Path) (r : Requirement) : Requirement := { r with path := base ++ r.path }

def Findings.under (base : Path) (found : Findings) : Findings where
  requirements := found.requirements.map (·.under base)
  equalities := found.equalities.map fun e => (base ++ e.1, base ++ e.2)
  bindings := found.bindings.map (·.under base)

def Verdict.under (base : Path) : Verdict → Verdict
  | .refuted => .refuted
  | .matched bindings => .matched (bindings.map (·.under base))
  | .undecided found => .undecided (found.under base)

namespace Findings

variable {base path first second : Path} {found : Findings}

theorem require_under {rules : Domain} {settled : Bool} :
    (found.under base).require (base ++ path) rules settled =
      (found.require path rules settled).under base := by
  simp [under, require, Requirement.under]

theorem equate_under : (found.under base).equate (base ++ first) (base ++ second) =
    (found.equate first second).under base := by
  simp [under, equate]

theorem bind_under {name : String} {t : Tree} : (found.under base).bind name (base ++ path) t =
    (found.bind name path t).under base := by
  simp [under, bind, Binding.under]

theorem binding?_under (name : String) :
    (found.under base).binding? name = (found.binding? name).map (·.under base) := by
  unfold binding? under
  rw [List.find?_map]
  rfl

theorem verdict_under : (found.under base).verdict = found.verdict.under base := by
  unfold verdict
  have hempty : ((found.under base).requirements.isEmpty && (found.under base).equalities.isEmpty) =
      (found.requirements.isEmpty && found.equalities.isEmpty) := by
    simp [under]
  rw [hempty]
  split <;> rfl

end Findings

namespace Pattern

variable {g : Option Grammar} {base first second path : Path} {found : Findings}

-- An outcome as it is reported when the tree stands at a path.
def relocate (base : Path) (out : Except Fault (Option Findings)) : Except Fault (Option Findings) :=
  out.map (Option.map (·.under base))

@[simp]
theorem relocate_none : relocate base (.ok none) = .ok none := rfl

@[simp]
theorem relocate_some : relocate base (.ok (some found)) = .ok (some (found.under base)) := rfl

@[simp]
theorem relocate_error {fault : Fault} : relocate base (.error fault) = .error fault := rfl

theorem compareOpen_under {r : Int} {cs : List Tree} {rules : Domain} :
    compareOpen r cs (base ++ path) rules (base ++ first) (base ++ second) (found.under base) =
      relocate base (compareOpen r cs path rules first second found) := by
  unfold compareOpen
  cases rules.has r with
  | error fault => rfl
  | ok has =>
      cases has with
      | false => rfl
      | true =>
          by_cases hcs : cs.isEmpty = true
          · cases Domain.single r with
            | error fault => simp [hcs]
            | ok only => by_cases h : rules = only <;> simp [hcs, h, Findings.require_under]
          · simp [hcs, Findings.equate_under]

theorem compareAll_under {cs ds : List Tree} (index : Nat)
    (ih : ∀ c ∈ cs, ∀ (d : Tree) (a b : Path) (found : Findings),
      compare g (base ++ a) (base ++ b) c d (found.under base) = relocate base (compare g a b c d found)) :
    compareAll g (base ++ first) (base ++ second) index cs ds (found.under base) =
      relocate base (compareAll g first second index cs ds found) := by
  induction cs generalizing ds index found with
  | nil => simp [compareAll]
  | cons c cs ihc =>
      cases ds with
      | nil => simp [compareAll]
      | cons d ds =>
          have hfirst := ih c List.mem_cons_self d (first ++ [(index : Int)]) (second ++ [(index : Int)]) found
          simp only [compareAll, List.append_assoc, hfirst]
          rcases compare g (first ++ [(index : Int)]) (second ++ [(index : Int)]) c d found with
            fault | (_ | f)
          · rfl
          · rfl
          · exact ihc (index + 1) fun c hm => ih c (List.mem_cons_of_mem _ hm)

-- Two subtrees neither of which is filled.
theorem compare_closed {s t : Tree} (hs : ∀ r cs, s ≠ .node r cs) (ht : ∀ r cs, t ≠ .node r cs) :
    compare g first second s t found = match s.domain?, t.domain? with
      | some d, some e => do
          if (d ∩ e).isEmpty then return none
          if ← sameTerminal g d e then return some found
          return some (found.equate first second)
      | _, _ => .ok none := by
  cases s with
  | node r cs => exact absurd rfl (hs r cs)
  | hole => cases t <;> first | exact absurd rfl (ht _ _) | simp [compare, Tree.domain?]
  | choice => cases t <;> first | exact absurd rfl (ht _ _) | simp [compare, Tree.domain?]
  | var => cases t <;> first | exact absurd rfl (ht _ _) | simp [compare, Tree.domain?]

theorem compare_closed_under {s t : Tree} (hs : ∀ r cs, s ≠ .node r cs) (ht : ∀ r cs, t ≠ .node r cs) :
    compare g (base ++ first) (base ++ second) s t (found.under base) =
      relocate base (compare g first second s t found) := by
  rw [compare_closed hs ht, compare_closed hs ht]
  cases s.domain? with
  | none => rfl
  | some d =>
      cases t.domain? with
      | none => rfl
      | some e =>
          by_cases hempty : (d ∩ e).isEmpty = true
          · simp [hempty]
          · cases hsame : sameTerminal g d e with
            | error fault => simp [hempty, hsame]
            | ok same => cases same <;> simp [hempty, hsame, Findings.equate_under]

theorem compare_under {s t : Tree} :
    compare g (base ++ first) (base ++ second) s t (found.under base) =
      relocate base (compare g first second s t found) := by
  induction s using Tree.induction generalizing t first second found with
  | node r cs ih =>
      cases t with
      | node q ds =>
          rw [compare, compare]
          split
          · exact compareAll_under 0 fun c hc d a b found => ih c hc
          · rfl
      | hole category d => simp [compare, Tree.domain?, compareOpen_under]
      | choice d parts => simp [compare, Tree.domain?, compareOpen_under]
      | var name => simp [compare, Tree.domain?]
  | hole category d =>
      cases t with
      | node q ds => simp [compare, Tree.domain?, compareOpen_under]
      | _ => exact compare_closed_under (by simp) (by simp)
  | choice d parts =>
      cases t with
      | node q ds => simp [compare, Tree.domain?, compareOpen_under]
      | _ => exact compare_closed_under (by simp) (by simp)
  | var name =>
      cases t with
      | node q ds => simp [compare, Tree.domain?]
      | _ => exact compare_closed_under (by simp) (by simp)

theorem matchOpen_under {allowed rules : Domain} {arity : Nat} :
    matchOpen g allowed arity (base ++ path) rules (found.under base) =
      relocate base (matchOpen g allowed arity path rules found) := by
  unfold matchOpen
  cases withArity g (rules ∩ allowed) arity with
  | error fault => rfl
  | ok kept =>
      by_cases hempty : kept.isEmpty = true
      · simp [hempty]
      · by_cases h0 : arity = 0
        · by_cases hall : (rules \ kept).isEmpty = true <;>
            simp [hempty, h0, hall, Findings.require_under]
        · simp [hempty, h0, Findings.require_under]

theorem matchRoot_under {allowed : Domain} {arity : Nat} {t : Tree} :
    matchRoot g allowed arity (base ++ path) t (found.under base) =
      (matchRoot g allowed arity path t found).map (Option.map fun x => (x.1.under base, x.2)) := by
  have hopen (rules : Domain) :
      (do return (← matchOpen g allowed arity (base ++ path) rules (found.under base)).map (·, [])) =
        (do return (← matchOpen g allowed arity path rules found).map (·, []) :
          Except Fault (Option (Findings × List Tree))).map
            (Option.map fun x => (x.1.under base, x.2)) := by
    rw [matchOpen_under]
    rcases matchOpen g allowed arity path rules found with fault | (_ | f) <;> rfl
  cases t with
  | node r cs =>
      simp only [matchRoot]
      rcases allowed.has r with fault | has
      · rfl
      · by_cases h : has = true ∧ cs.length = arity <;> simp [h, Except.map]
  | hole category rules => exact hopen rules
  | choice rules parts => exact hopen rules
  | var name => rfl

theorem matchAll_under {parts cs : List Tree} (index : Nat)
    (ih : ∀ part ∈ parts, ∀ (path : Path) (c : Tree) (found : Findings),
      matchAt g (base ++ path) part c (found.under base) = relocate base (matchAt g path part c found)) :
    matchAll g (base ++ path) index parts cs (found.under base) =
      relocate base (matchAll g path index parts cs found) := by
  induction parts generalizing cs index found with
  | nil => simp [matchAll]
  | cons part parts ihp =>
      cases cs with
      | nil => simp [matchAll]
      | cons c cs =>
          have hfirst := ih part List.mem_cons_self (path ++ [(index : Int)]) c found
          simp only [matchAll, List.append_assoc, hfirst]
          rcases matchAt g (path ++ [(index : Int)]) part c found with fault | (_ | f)
          · rfl
          · rfl
          · exact ihp (index + 1) fun part hm => ih part (List.mem_cons_of_mem _ hm)

-- A part of the template with parts of its own.
theorem matchParts_under {allowed : Domain} {arity : Nat} {parts : List Tree} {t : Tree}
    (ih : ∀ part ∈ parts, ∀ (path : Path) (c : Tree) (found : Findings),
      matchAt g (base ++ path) part c (found.under base) = relocate base (matchAt g path part c found)) :
    (do match ← matchRoot g allowed arity (base ++ path) t (found.under base) with
        | some (found, cs) => matchAll g (base ++ path) 0 parts cs found
        | none => return none) =
      relocate base (do match ← matchRoot g allowed arity path t found with
        | some (found, cs) => matchAll g path 0 parts cs found
        | none => return none) := by
  rw [matchRoot_under]
  rcases matchRoot g allowed arity path t found with fault | (_ | ⟨f, cs⟩)
  · rfl
  · rfl
  · exact matchAll_under 0 ih

theorem matchAt_under {template t : Tree} :
    matchAt g (base ++ path) template t (found.under base) =
      relocate base (matchAt g path template t found) := by
  induction template using Tree.induction generalizing t path found with
  | var name =>
      rw [matchAt, matchAt, Findings.binding?_under]
      cases found.binding? name with
      | none => simp [Findings.bind_under]
      | some bound => exact compare_under
  | node r parts ih =>
      rw [matchAt, matchAt]
      rcases Domain.single r with fault | allowed
      · rfl
      · exact matchParts_under fun part hm path c found => ih part hm
  | choice allowed parts ih =>
      rw [matchAt, matchAt]
      exact matchParts_under fun part hm path c found => ih part hm
  | hole category allowed =>
      rw [matchAt, matchAt, matchRoot_under]
      rcases matchRoot g allowed 0 path t found with fault | (_ | ⟨f, cs⟩) <;> rfl

end Pattern

theorem Tree.match?_under (template t : Tree) (g : Option Grammar) (base : Path) :
    template.match? t g base = (template.match? t g []).map (·.under base) := by
  have hat : Pattern.matchAt g (base ++ []) template t (Findings.none.under base) =
      Pattern.relocate base (Pattern.matchAt g [] template t Findings.none) := Pattern.matchAt_under
  rw [List.append_nil, show Findings.none.under base = Findings.none from rfl] at hat
  unfold Tree.match?
  rw [hat]
  rcases Pattern.matchAt g [] template t Findings.none with fault | (_ | f)
  · rfl
  · rfl
  · exact congrArg Except.ok Findings.verdict_under

end TreeSearch
