import TreeSearch.Domain.Bits
import TreeSearch.Grammar.Basic
import TreeSearch.Tree.Node

namespace TreeSearch.Grammar

-- The rules that are out of place are listed, which takes steps.
def checkHole (g : Grammar) (steps : Nat) (expected : Option String) (category : String)
    (domain : Int) : Except Halt Unit := do
  if let some required := expected then
    if category ≠ required then throw (.fault (.wrongHole category required))
  let allowed ← (g.domainFor category).mapError .fault
  if Bits.both domain (~~~(allowed.bits : Int)) ≠ 0 then
    let rules ← Bits.listed steps domain
    throw (.fault (Fault.naming (.strayRules rules category) (rules.map Int.ofNat)))

def liveRule (g : Grammar) (r : Int) : Except Fault Rule :=
  match g.rule? r with
  | some rule => if rule.removed then .error (Fault.naming (.deadRule r) [r]) else .ok rule
  | none => .error (Fault.naming (.deadRule r) [r])

def checkRule (g : Grammar) (expected : Option String) (r : Int) (children : Nat) :
    Except Fault Rule := do
  let rule ← g.liveRule r
  if let some required := expected then
    if rule.category ≠ required then throw (.wrongCategory rule required)
  if children ≠ rule.arity then throw (.wrongArity rule children)
  return rule

mutual

-- A node is checked before what is below it, and the last child before the others.
-- Without an expected category any will do.
def check (g : Grammar) (steps : Nat) (expected : Option String) : Node → Except Halt Unit
  | .hole category domain => g.checkHole steps expected category domain
  | .node r cs => do
      let rule ← (g.checkRule expected r cs.length).mapError .fault
      g.checkAll steps rule.children cs
  | part => .error (.fault (Fault.naming (.notATree part.fullText) part.numbers))

def checkAll (g : Grammar) (steps : Nat) : List String → List Node → Except Halt Unit
  | category :: categories, c :: cs => do
      g.checkAll steps categories cs
      g.check steps (some category) c
  | _, _ => .ok ()

end

-- What a node asks of the nodes below it: nothing is asked beyond the node itself, and each
-- child comes with the category that the rule names in its place.
def visit (g : Grammar) (steps : Nat) (expected : Option String) :
    Node → Except Halt (List (Node × Option String))
  | .hole category domain => do
      g.checkHole steps expected category domain
      return []
  | .node r cs => do
      let rule ← (g.checkRule expected r cs.length).mapError .fault
      return cs.zip (rule.children.map some)
  | part => .error (.fault (Fault.naming (.notATree part.fullText) part.numbers))

-- How much is left to check.
noncomputable def pendingSize : List (Node × Option String) → Nat
  | [] => 0
  | (n, _) :: pending => sizeOf n + pendingSize pending

@[simp]
theorem pendingSize_append (earlier later : List (Node × Option String)) :
    pendingSize (earlier ++ later) = pendingSize earlier + pendingSize later := by
  induction earlier with
  | nil => simp [pendingSize]
  | cons first rest ih => simp [pendingSize, ih, Nat.add_assoc]

@[simp]
theorem pendingSize_reverse (pending : List (Node × Option String)) :
    pendingSize pending.reverse = pendingSize pending := by
  induction pending with
  | nil => rfl
  | cons first rest ih => simp [pendingSize, ih, Nat.add_comm]

theorem pendingSize_zip_le (cs : List Node) (categories : List (Option String)) :
    pendingSize (cs.zip categories) ≤ sizeOf cs := by
  induction cs generalizing categories with
  | nil => simp [pendingSize]
  | cons c cs ih =>
      cases categories with
      | nil => simp [pendingSize]
      | cons category categories =>
          have := ih categories
          simp only [pendingSize, List.zip_cons_cons, List.cons.sizeOf_spec]
          omega

theorem pendingSize_visit_lt {g : Grammar} {steps : Nat} {expected : Option String} {n : Node}
    {below : List (Node × Option String)} (h : g.visit steps expected n = .ok below) :
    pendingSize below < sizeOf n := by
  cases n with
  | node r cs =>
      rw [visit] at h
      cases hrule : g.checkRule expected r cs.length with
      | error fault =>
          rw [hrule] at h
          exact nomatch h
      | ok rule =>
          have hbelow : cs.zip (rule.children.map some) = below := by
            rw [hrule] at h
            exact Except.ok.inj h
          have := pendingSize_zip_le cs (rule.children.map some)
          rw [Node.node.sizeOf_spec, ← hbelow]
          omega
  | hole category domain =>
      rw [visit] at h
      cases hhole : g.checkHole steps expected category domain with
      | error fault => simp [hhole, bind, Except.bind] at h
      | ok _ =>
          have hbelow : [] = below := by
            simpa [hhole, bind, Except.bind, pure, Except.pure] using h
          rw [Node.hole.sizeOf_spec, ← hbelow]
          simp only [pendingSize]
          omega
  | choice => simp [visit] at h
  | var => simp [visit] at h

-- The nodes that are still to be checked, with the category expected of each. The one that
-- was put there last comes first, so all below a node is done before its other siblings.
def checkPending (g : Grammar) (steps : Nat) : List (Node × Option String) → Except Halt Unit
  | [] => .ok ()
  | (n, expected) :: pending => match _visited : g.visit steps expected n with
      | .ok below => g.checkPending steps (below.reverse ++ pending)
      | .error halt => .error halt
termination_by pending => pendingSize pending
decreasing_by
  have := pendingSize_visit_lt _visited
  simp only [pendingSize_append, pendingSize_reverse, pendingSize]
  omega

def checkTree (g : Grammar) (steps : Nat) (expected : Option String) (n : Node) :
    Except Halt Unit :=
  g.checkPending steps [(n, expected)]

end TreeSearch.Grammar
