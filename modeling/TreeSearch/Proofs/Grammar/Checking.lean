import Mathlib.Data.Set.Finite.Lattice
import TreeSearch.Proofs.Domain.Bits
import TreeSearch.Proofs.Grammar.Categories

namespace TreeSearch.Grammar

variable {g : Grammar} {n : Node}

section Pending

variable {steps : Nat}

theorem checkPending_eq (g : Grammar) (expected : Option String) (n : Node)
    (pending : List (Node × Option String)) :
    g.checkPending steps ((n, expected) :: pending) =
      (do g.checkPending steps ((← g.visit steps expected n).reverse ++ pending)) := by
  rw [checkPending]
  split
  · rename_i below h
    rw [h]
    rfl
  · rename_i halt h
    rw [h]
    rfl

-- Children are taken out again from the last to the first, and whatever is behind them waits.
theorem checkPending_zip {cs : List Node}
    (ih : ∀ c ∈ cs, ∀ (expected : Option String) (pending : List (Node × Option String)),
      g.checkPending steps ((c, expected) :: pending) =
        (do g.check steps expected c; g.checkPending steps pending))
    (categories : List String) (pending : List (Node × Option String)) :
    g.checkPending steps ((cs.zip (categories.map some)).reverse ++ pending) =
      (do g.checkAll steps categories cs; g.checkPending steps pending) := by
  induction cs generalizing categories pending with
  | nil => cases categories <;> rfl
  | cons c cs ihc =>
      cases categories with
      | nil => rfl
      | cons category categories =>
          have hrest := ihc (fun d hd => ih d (List.mem_cons_of_mem c hd)) categories
            ((c, some category) :: pending)
          rw [List.map_cons, List.zip_cons_cons, List.reverse_cons, List.append_assoc,
            List.singleton_append, hrest, ih c List.mem_cons_self, checkAll, bind_assoc]

-- A node at the front is checked to the end before anything else is looked at. By induction on
-- the node: its children are in front of what was behind it.
theorem checkPending_cons (g : Grammar) (expected : Option String) (n : Node)
    (pending : List (Node × Option String)) :
    g.checkPending steps ((n, expected) :: pending) =
      (do g.check steps expected n; g.checkPending steps pending) := by
  induction n using Node.induction generalizing expected pending with
  | node r cs ih =>
      rw [checkPending_eq, visit, check, bind_assoc, bind_assoc]
      congr 1
      funext rule
      exact checkPending_zip ih rule.children pending
  | hole category domain =>
      rw [checkPending_eq, visit, check, bind_assoc]
      rfl
  | choice => rw [checkPending_eq]; rfl
  | var => rw [checkPending_eq]; rfl

theorem checkTree_eq (g : Grammar) (steps : Nat) (expected : Option String) (n : Node) :
    g.checkTree steps expected n = g.check steps expected n := by
  rw [checkTree, checkPending_cons]
  cases g.check steps expected n with
  | error halt => rfl
  | ok _ => rw [checkPending]; rfl

end Pending

section Verdicts

-- With steps enough to list the rules of some open positions, a check comes to one verdict, and
-- whatever is refused is called malformed.
def Decides (domains : List Int) (result : Nat → Except Halt Unit) : Prop :=
  ∃ verdict : Except Fault Unit, (∀ fault, verdict = .error fault → fault.kind = .structural) ∧
    ∀ steps : Nat, (∀ d ∈ domains, d < steps) → result steps = verdict.mapError .fault

variable {domains : List Int} {first second : Nat → Except Halt Unit}

theorem Decides.mono {more : List Int} (h : Decides domains first) (hsub : domains ⊆ more) :
    Decides more first := by
  obtain ⟨verdict, hstructural, heq⟩ := h
  exact ⟨verdict, hstructural, fun steps hsteps => heq steps fun d hd => hsteps d (hsub hd)⟩

theorem decides_ok : Decides domains fun _ => .ok () := ⟨.ok (), nofun, fun _ _ => rfl⟩

theorem decides_error {fault : Fault} (h : fault.kind = .structural) :
    Decides domains fun _ => .error (.fault fault) :=
  ⟨.error fault, fun _ he => Except.error.inj he ▸ h, fun _ _ => rfl⟩

theorem Decides.seq (hfirst : Decides domains first) (hsecond : Decides domains second) :
    Decides domains fun steps => (do first steps; second steps) := by
  obtain ⟨verdict, hstructural, heq⟩ := hfirst
  obtain ⟨verdict', hstructural', heq'⟩ := hsecond
  cases verdict with
  | error fault =>
      refine ⟨.error fault, hstructural, fun steps hsteps => ?_⟩
      beta_reduce
      rw [heq steps hsteps]
      rfl
  | ok _ =>
      refine ⟨verdict', hstructural', fun steps hsteps => ?_⟩
      beta_reduce
      rw [heq steps hsteps, ← heq' steps hsteps]
      rfl

theorem Decides.afterwards {α : Type} {result : Except Fault α} {next : α → Nat → Except Halt Unit}
    (h : ∀ fault, result = .error fault → fault.kind = .structural)
    (hnext : ∀ a, result = .ok a → Decides domains (next a)) :
    Decides domains fun steps => (do next (← result.mapError .fault) steps) := by
  cases result with
  | error fault => exact decides_error (h fault rfl)
  | ok a => exact hnext a rfl

theorem naming_eq {fault : Fault} {numbers : List Int} (h : ∀ k ∈ numbers, Text.isWritable k = true) :
    fault.naming numbers = fault :=
  if_pos (List.all_eq_true.mpr h)

theorem structural_domainFor {category : String} {fault : Fault}
    (h : g.domainFor category = .error fault) : fault.kind = .structural := by
  obtain h | ⟨rules, -, h⟩ := Except.bind_eq_error.mp h
  · unfold rulesFor at h
    split at h
    · cases h
    · cases h
      rfl
  · cases h

theorem structural_checkRule {expected : Option String} {r : Int} {children : Nat} {fault : Fault}
    (hr : Text.isWritable r = true) (h : g.checkRule expected r children = .error fault) :
    fault.kind = .structural := by
  have hnaming : (Fault.deadRule r).naming [r] = .deadRule r := naming_eq (by simpa using hr)
  obtain h | ⟨rule, -, h⟩ := Except.bind_eq_error.mp h
  · unfold liveRule at h
    rw [hnaming] at h
    split at h
    · split at h <;> cases h
      rfl
    · cases h
      rfl
  · have harity (h : (if children ≠ rule.arity then .error (.wrongArity rule children)
        else .ok rule : Except Fault Rule) = .error fault) : fault.kind = .structural := by
      split at h <;> cases h
      rfl
    cases expected with
    | none => exact harity h
    | some required =>
        by_cases hfits : rule.category = required
        · exact harity (by simpa [hfits] using h)
        · obtain rfl : Fault.wrongCategory rule required = fault := by simpa [hfits] using h
          rfl

-- A rule is less than the number with its bit.
theorem isWritable_of_mem_rules {bits r : Nat} (h : Text.isWritable bits = true) (hr : r ∈ Bits.rules bits) :
    Text.isWritable r = true := by
  have hle : 2 ^ r ≤ bits := Nat.ge_two_pow_of_testBit (((Bits.rules_spec bits).2 r).mp hr)
  have hlt : r < 2 ^ r := Nat.lt_two_pow_self
  simp only [Text.isWritable, Int.natAbs_natCast, decide_eq_true_eq] at h ⊢
  omega

theorem decides_checkHole {expected : Option String} {category : String} {domain : Int}
    (hdomain : 0 ≤ domain) (hwritable : Text.isWritable domain = true) :
    Decides [domain] fun steps => g.checkHole steps expected category domain := by
  have hfree : Decides [domain] fun steps => g.checkHole steps none category domain := by
    refine Decides.afterwards (fun _ => structural_domainFor) fun allowed _ => ?_
    split
    · obtain ⟨bits, rfl⟩ := Int.eq_ofNat_of_zero_le hdomain
      have hnaming : (Fault.strayRules (Bits.rules bits) category).naming ((Bits.rules bits).map Int.ofNat) =
          .strayRules (Bits.rules bits) category := by
        refine naming_eq fun k hk => ?_
        obtain ⟨r, hr, rfl⟩ := List.mem_map.mp hk
        exact isWritable_of_mem_rules hwritable hr
      refine ⟨.error (.strayRules (Bits.rules bits) category), fun _ he => Except.error.inj he ▸ rfl,
        fun steps hsteps => ?_⟩
      beta_reduce
      rw [Bits.listed_natCast (Int.ofNat_lt.mp (hsteps _ List.mem_cons_self)), Except.ok_bind, hnaming]
      rfl
    · exact decides_ok
  cases expected with
  | none => exact hfree
  | some required =>
      by_cases hfits : category = required
      · simpa [checkHole, hfits] using hfree
      · simpa [checkHole, hfits] using decides_error rfl

theorem decides_checkAll {cs : List Node}
    (ih : ∀ c ∈ cs, ∀ expected, Decides c.openDomains fun steps => g.check steps expected c)
    (categories : List String) :
    Decides (Node.openDomainsIn cs) fun steps => g.checkAll steps categories cs := by
  induction cs generalizing categories with
  | nil => cases categories <;> exact decides_ok
  | cons c cs ihc =>
      cases categories with
      | nil => exact decides_ok
      | cons category categories =>
          have hrest := ihc (fun d hd => ih d (List.mem_cons_of_mem c hd)) categories
          exact (hrest.mono (List.subset_append_right _ _)).seq
            ((ih c List.mem_cons_self (some category)).mono (List.subset_append_left _ _))

theorem mem_openDomainsIn {cs : List Node} {d : Int} :
    d ∈ Node.openDomainsIn cs ↔ ∃ c ∈ cs, d ∈ c.openDomains := by
  induction cs with
  | nil => simp [Node.openDomainsIn]
  | cons c cs ih => simp [Node.openDomainsIn, ih]

theorem mem_numbersIn {cs : List Node} {k : Int} :
    k ∈ Node.numbersIn cs ↔ ∃ c ∈ cs, k ∈ c.numbers := by
  induction cs with
  | nil => simp [Node.numbersIn]
  | cons c cs ih => simp [Node.numbersIn, ih]

theorem decides_check (hdomains : ∀ d ∈ n.openDomains, 0 ≤ d)
    (hnumbers : ∀ k ∈ n.numbers, Text.isWritable k = true) (expected : Option String) :
    Decides n.openDomains fun steps => g.check steps expected n := by
  induction n using Node.induction generalizing expected with
  | node r cs ih =>
      rw [Node.openDomains] at hdomains ⊢
      simp only [check]
      refine Decides.afterwards (fun _ => structural_checkRule (hnumbers r List.mem_cons_self)) fun rule _ => ?_
      refine decides_checkAll (fun c hc => ih c hc (fun d hd => ?_) fun k hk => ?_) rule.children
      · exact hdomains d (mem_openDomainsIn.mpr ⟨c, hc, hd⟩)
      · exact hnumbers k (List.mem_cons_of_mem r (mem_numbersIn.mpr ⟨c, hc, hk⟩))
  | hole category domain =>
      simp only [check]
      exact decides_checkHole (hdomains domain List.mem_cons_self) (hnumbers domain List.mem_cons_self)
  | choice domain cs =>
      simp only [check, naming_eq hnumbers]
      exact decides_error rfl
  | var name =>
      simp only [check, naming_eq hnumbers]
      exact decides_error rfl

end Verdicts

-- The rules of a domain below zero are never listed to the end.
theorem checkHole_of_neg {steps : Nat} {expected : Option String} {category : String} {domain : Int}
    (hneg : domain < 0) (known : category ∈ g.categories)
    (fits : ∀ c ∈ expected, category = c) :
    g.checkHole steps expected category domain = .error .outOfFuel := by
  obtain ⟨allowed, ha⟩ := domainFor_eq_ok known
  have hne : Bits.both domain (~~~(allowed.bits : Int)) ≠ 0 := by
    obtain ⟨m, rfl⟩ := Int.eq_negSucc_of_lt_zero hneg
    exact Int.negSucc_ne_zero _
  unfold checkHole
  cases expected with
  | none => simp [ha, hne, Bits.listed_of_neg hneg, Except.mapError]
  | some required => simp [fits required rfl, fits required rfl ▸ ha, hne, Bits.listed_of_neg hneg, Except.mapError]

-- The check accepts what respects the grammar and nothing else. It calls all else malformed, as long
-- as no open position has a domain below zero and all numbers can be written. For a domain below zero
-- in its place it does not end.
theorem Reachable.checkTree_exact (hg : g.Reachable) (expected : Option String) (n : Node) :
    (∀ steps, g.checkTree steps expected n = .ok () ↔ g.Respects expected n) ∧
    (¬ g.Respects expected n → (∀ d ∈ n.openDomains, 0 ≤ d) →
      (∀ k ∈ n.numbers, k.natAbs < Text.digitLimit) →
      ∃ fault, fault.kind = .structural ∧ ∀ steps : Nat, (∀ d ∈ n.openDomains, d < steps) →
        g.checkTree steps expected n = .error (.fault fault)) ∧
    ∀ category domain, n = .hole category domain → domain < 0 → category ∈ g.categories →
      (∀ c ∈ expected, category = c) → ∀ steps, g.checkTree steps expected n = .error .outOfFuel := by
  simp only [checkTree_eq]
  refine ⟨fun steps => check_eq_ok_iff hg.regular, fun hno hdomains hnumbers => ?_, ?_⟩
  · obtain ⟨verdict, hstructural, heq⟩ := decides_check (g := g) hdomains
      (fun k hk => decide_eq_true (hnumbers k hk)) expected
    cases verdict with
    | error fault => exact ⟨fault, hstructural fault rfl, heq⟩
    | ok _ =>
        obtain ⟨most, hmost⟩ := n.openDomains.toFinset.bddAbove
        have henough : ∀ d ∈ n.openDomains, d < (most.toNat + 1 : Nat) := by
          intro d hd
          have := hmost (List.mem_toFinset.mpr hd)
          omega
        exact absurd ((check_eq_ok_iff hg.regular).mp (heq _ henough)) hno
  · rintro category domain rfl hneg known fits steps
    exact checkHole_of_neg hneg known fits

section Lopped

-- Trees that end or fork. They could end in another way too until that was removed.
def lopped : Grammar :=
  ⟨[⟨0, "S", [], none, none, false⟩, ⟨1, "S", ["S", "S"], none, none, false⟩,
    ⟨2, "S", [], none, none, true⟩], ["S"], [], 4⟩

theorem reachable_lopped : lopped.Reachable := by
  let leaf : Rule := ⟨0, "S", [], none, none, false⟩
  let fork : Rule := ⟨1, "S", ["S", "S"], none, none, false⟩
  let other : Rule := ⟨2, "S", [], none, none, false⟩
  have hleaf : empty.add "S" [] none none = .ok (⟨[leaf], ["S"], [], 1⟩, 0) := rfl
  have hfork : (⟨[leaf], ["S"], [], 1⟩ : Grammar).add "S" ["S", "S"] none none =
    .ok (⟨[leaf, fork], ["S"], [], 2⟩, 1) := rfl
  have hother : (⟨[leaf, fork], ["S"], [], 2⟩ : Grammar).add "S" [] none none =
    .ok (⟨[leaf, fork, other], ["S"], [], 3⟩, 2) := rfl
  have hremove : (⟨[leaf, fork, other], ["S"], [], 3⟩ : Grammar).remove 2 = .ok lopped := rfl
  exact .remove (.add (.add (.add .empty hleaf) hfork) hother) hremove

-- A node with an open position, one with a removed rule, one with a variable inside, and an open
-- position with all rules there are.
theorem checkTree_exact_lopped :
    lopped.Respects (some "S") (.node 1 [.node 0 [], .hole "S" 3]) ∧
    (∃ fault, fault.kind = .structural ∧
      lopped.checkTree 1 (some "S") (.node 1 [.node 2 [], .node 0 []]) = .error (.fault fault)) ∧
    (∃ fault, fault.kind = .structural ∧
      lopped.checkTree 1 none (.node 1 [.node 0 [], .var "x"]) = .error (.fault fault)) ∧
    ∀ steps, lopped.checkTree steps (some "S") (.hole "S" (-1)) = .error .outOfFuel := by
  have hopen : lopped.checkTree 1 (some "S") (.node 1 [.node 0 [], .hole "S" 3]) = .ok () := by
    rw [checkTree_eq]
    rfl
  have hdead : lopped.checkTree 1 (some "S") (.node 1 [.node 2 [], .node 0 []]) =
      .error (.fault (.deadRule 2)) := by
    rw [checkTree_eq]
    rfl
  have hvar : lopped.checkTree 1 none (.node 1 [.node 0 [], .var "x"]) =
      .error (.fault (.notATree (Node.var "x").fullText)) := by
    rw [checkTree_eq]
    rfl
  refine ⟨((reachable_lopped.checkTree_exact _ _).1 1).mp hopen, ?_, ?_,
    (reachable_lopped.checkTree_exact _ _).2.2 "S" (-1) rfl (by decide) (by decide) (by simp)⟩
  · obtain ⟨fault, hkind, hfault⟩ := (reachable_lopped.checkTree_exact _ _).2.1
      (fun hw => nomatch hdead.symm.trans (((reachable_lopped.checkTree_exact _ _).1 1).mpr hw))
      (by decide) (by decide)
    exact ⟨fault, hkind, hfault 1 (by decide)⟩
  · obtain ⟨fault, hkind, hfault⟩ := (reachable_lopped.checkTree_exact _ _).2.1
      (fun hw => nomatch hvar.symm.trans (((reachable_lopped.checkTree_exact _ _).1 1).mpr hw))
      (by decide) (by decide)
    exact ⟨fault, hkind, hfault 1 (by decide)⟩

-- Nothing can be said of a part whose number is too long.
example : lopped.check 1 none (.choice Text.digitLimit []) = .error (.fault .tooManyDigits) := rfl

end Lopped

end TreeSearch.Grammar
