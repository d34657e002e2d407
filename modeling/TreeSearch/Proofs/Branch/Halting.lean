import TreeSearch.Proofs.Branch.Calm
import TreeSearch.Proofs.Branch.Commands
import TreeSearch.Proofs.Branch.Copies

namespace TreeSearch

variable {p : Problem} {b c d : Branch} {first second path : Path} {D steps : Nat} {α β : Type}

namespace BranchM

-- Work that goes on copying and does not use up its steps.
def Copying (p : Problem) (b : Branch) (first second : Path) (work : BranchM α) (c : Branch) : Prop :=
  work.Meets c (fun _ d => b.Copies p first second d) fun halt _ => halt ≠ .outOfFuel

-- A filler that goes on copying in a class with a node of the rule, as long as the tree is not
-- deeper than its steps and the class together.
def CopiesNodes (p : Problem) (b : Branch) (first second : Path) (D steps : Nat) (fill : Filler) : Prop :=
  ∀ (c : Branch) (unifying : Bool) (path : Path) (rule : Nat), b.Copies p first second c →
    (∃ s, c.tree.get? path = some s) →
      (∃ member ∈ c.classes.members path, ∃ n, c.rootAt member = some (.inl ((rule : Int), n))) →
        D < steps + c.reach path → Copying p b first second (fill unifying path rule) c

section Rules

theorem Copying.bind {work : BranchM β} {next : β → BranchM α} {Q : β → Branch → Prop}
    (h : Copying p b first second work c) (hk : Keeps p (fun _ => True) Set.univ work c Q)
    (hn : ∀ a d, c.Grows d → b.Copies p first second d → Q a d → Copying p b first second (next a) d) :
    Copying p b first second (work >>= next) c := by
  unfold Copying
  rw [meets_bind]
  exact (Meets.and h hk).mono (fun a d ⟨hd, hg, _, hq⟩ => hn a d hg hd hq) fun _ _ hh => hh.1

theorem Copying.whenFeasible {work : BranchM Unit} (hc : b.Copies p first second c)
    (h : c.feasible = true → Copying p b first second work c) :
    Copying p b first second (whenFeasible work) c :=
  meets_whenFeasible.mpr ⟨h, fun _ => hc⟩

end Rules

-- Narrowing makes no nodes.
theorem calm_copies (p : Problem) (b : Branch) (first second : Path) :
    Calm p (b.Copies p first second) (· ≠ .outOfFuel) := by
  refine ⟨fun _ => nofun, fun _ => nofun, fun c d hc => hc.congr, fun unifying mask path c hc => ?_⟩
  cases hs : c.tree.get? path with
  | none => exact meets_nodeAt_none hs fun _ => nofun
  | some s =>
      refine meets_narrowOne hs (hc.intact.wellFormed.get? hs) (fun _ => hc) (fun _ => hc.congr rfl rfl) ?_
      rintro category rules tree statistics rfl change replaced
      exact hc.edit change replaced (Branch.notify_tree _ _ _) (Branch.notify_classes _ _ _) nofun

section Uniting

variable {fill : Filler} {unifying : Bool}

theorem copying_sync (hfill : CopiesNodes p b first second D steps fill)
    (hc : b.Copies p first second c) (hs : ∃ s, c.tree.get? path = some s)
    (hD : D < steps + c.reach path) : Copying p b first second (sync fill unifying path) c := by
  refine meets_sync hc.intact.wellFormed (fun q hq => hc.intact.member hs hq) (fun _ => hc)
    (fun trees _ _ => (calm_copies p b first second).narrow path _ c hc) (fun member hm n cs hnode => ?_)
    fun _ => hc.congr rfl rfl
  refine Copying.bind ((calm_copies p b first second).narrow path _ c hc)
    (keeps_narrow hc.intact.balanced (Or.inl lenient)) fun _ d hg hd ⟨hclasses, _⟩ => ?_
  refine .whenFeasible hd fun _ => hfill d unifying path n hd (hg.placed hs) ?_ ?_
  · rw [hclasses]
    exact ⟨member, hm, cs.length, hg.rootAt (Branch.rootAt_eq_some hnode)⟩
  · rwa [Branch.reach, hclasses]

-- The children of a class are one level further down.
theorem copying_joinChildren (hfill : CopiesNodes p b first second D steps fill)
    (hlevels : Levels p fill) (hc : b.Copies p first second c) {members : List Path} {rule : Int}
    {arity : Nat} (hroots : ∀ q ∈ members, c.rootAt q = some (.inl (rule, arity)))
    (hcongruent : ∀ x ∈ members, ∀ y ∈ members, Congruent (b.Equated first second) x y)
    {lowest : Path} (hlowest : lowest ∈ members) (hD : D < steps + (lowest.length + 1)) :
    Copying p b first second (joinChildren fill unifying members arity) c := by
  cases members with
  | nil => cases hlowest
  | cons anchor others =>
      refine (meets_forM (fun rest d => (∀ i ∈ rest, i < arity) ∧ c.Grows d ∧ b.Copies p first second d)
        ?_ ⟨fun i hi => List.mem_range.mp hi, .refl c, hc⟩).mono (fun _ _ hd => hd.2.2) fun _ _ hh => hh
      rintro i rest d ⟨hrest, hg, hd⟩
      have hrest' := fun j hj => hrest j (List.mem_cons_of_mem i hj)
      refine meets_whenFeasible.mpr ⟨fun _ => ?_, fun _ => ⟨hrest', hg, hd⟩⟩
      have hplaced (q : Path) (hq : q ∈ anchor :: others) : ∃ s, d.tree.get? (q ++ [(i : Int)]) = some s := by
        obtain ⟨cs, hcs, hlen⟩ := Branch.rootAt_eq_inl.mp (hg.rootAt (hroots q hq))
        have hi := hrest i List.mem_cons_self
        rw [Tree.get?_below hcs]
        exact ⟨_, List.getElem?_eq_getElem (by omega)⟩
      have hanchor := hplaced anchor List.mem_cons_self
      have hothers : ∀ q ∈ others.map (· ++ [(i : Int)]),
          Congruent (b.Equated first second) (anchor ++ [(i : Int)]) q :=
        List.forall_mem_map.mpr fun q hq =>
          (hcongruent anchor List.mem_cons_self q (List.mem_cons_of_mem anchor hq)).child i
      have hunited := hd.uniteAll hothers hanchor
        (List.forall_mem_map.mpr fun q hq => hplaced q (List.mem_cons_of_mem anchor hq))
      have hjoined := hd.intact.classes.foldl_unite (anchor ++ [(i : Int)]) (others.map (· ++ [(i : Int)]))
      rw [List.foldl_map] at hunited hjoined
      refine (Meets.and (Q := fun _ e => b.Copies p first second e) (H := fun halt _ => halt ≠ .outOfFuel)
        ?_ (keeps_joinChild hlevels hd.intact.balanced hplaced)).mono
        (fun _ e ⟨he, hge, _⟩ => ⟨hrest', hg.trans hge, he⟩) fun _ _ hh => hh.1
      rw [meets_bind, meets_modify]
      refine copying_sync hfill hunited hanchor (Nat.lt_of_lt_of_le hD (Nat.add_le_add_left ?_ steps))
      rw [← List.length_singleton (a := (i : Int)), ← List.length_append]
      refine Branch.le_reach _ ?_
      rcases List.mem_cons.mp hlowest with rfl | hlowest
      · exact PathClasses.mem_members_self _ _
      · exact hjoined.2 _ (List.mem_map_of_mem hlowest)

end Uniting

section Filling

variable {unifying : Bool} {rule : Nat}

theorem copying_fillMember (hg : p.grammar.Regular) (hb : b.Intact p) (hc : b.Copies p first second c)
    (hs : ∃ s, c.tree.get? path = some s)
    (hsource : ∃ origin, Congruent (b.Equated first second) origin path ∧
      ∃ n, b.rootAt origin = some (.inl ((rule : Int), n))) :
    Copying p b first second (fillMember p unifying rule path) c := by
  obtain ⟨s, hs⟩ := hs
  have hw := hc.intact.wellFormed.get? hs
  have hfailed : b.Copies p first second c.fail := hc.congr rfl rfl
  refine meets_fillMember hs hw (fun _ _ => hc) (fun _ => hfailed) ?_
  rintro category rules rfl hmem
  refine meets_fillOne hg hs hw hmem (fun _ => nofun) (fun _ _ _ _ _ => hfailed) ?_
  intro production holes tree statistics hr hholes change replaced
  refine hc.edit change replaced (Branch.notify_tree _ _ _) (Branch.notify_classes _ _ _) ?_
  -- nodes of one rule have the same number of children
  rintro _ ⟨⟩
  obtain ⟨origin, horigin, n, hn⟩ := hsource
  obtain ⟨ds, hds, rfl⟩ := Branch.rootAt_eq_inl.mp hn
  obtain ⟨r, hr', -, -, hlen, -⟩ := Grammar.wellFormed_node_iff.mp (hb.wellFormed.get? hds)
  obtain rfl := Option.some.inj (hr.symm.trans hr')
  refine ⟨origin, horigin, ?_⟩
  rw [hn, hlen, hholes.length_eq]

theorem copying_fillMembers (hg : p.grammar.Regular) (hb : b.Intact p) {members : List Path}
    (hc : b.Copies p first second c) (hs : ∀ member ∈ members, ∃ s, c.tree.get? member = some s)
    (hsource : ∀ member ∈ members, ∃ origin, Congruent (b.Equated first second) origin member ∧
      ∃ n, b.rootAt origin = some (.inl ((rule : Int), n))) :
    Copying p b first second (fillMembers p unifying rule members) c := by
  induction members generalizing c with
  | nil => exact hc
  | cons member rest ih =>
      have hplaced := hs member List.mem_cons_self
      refine Copying.bind (copying_fillMember hg hb hc hplaced (hsource member List.mem_cons_self))
        (keeps_fillMember hg hc.intact.balanced (Set.mem_univ _) hplaced) fun opened d hgd hd _ => ?_
      have hrest := ih hd (fun other ho => hgd.placed (hs other (List.mem_cons_of_mem member ho)))
        fun other ho => hsource other (List.mem_cons_of_mem member ho)
      unfold Copying
      rw [meets_bind, meets_isFeasible]
      split
      · rw [meets_bind]
        exact hrest
      · exact hd

theorem copiesNodes_fillClass (hg : p.grammar.Regular) (hb : b.Intact p)
    (hdepth : ∀ c, b.Copies p first second c → c.tree.depth ≤ D) (steps : Nat) :
    CopiesNodes p b first second D steps (fillClass p steps) := by
  induction steps with
  | zero =>
      intro c unifying path rule hc hs _ hD
      have := Branch.reach_lt (hdepth c hc) fun _ ho => hc.intact.member hs ho
      omega
  | succ steps ih =>
      intro c unifying path rule hc hs ⟨source, hsource, n, hn⟩ hD
      obtain ⟨origin, horigin, hnode⟩ := hc.nodes source _ hn
      have hmember (member : Path) (hm : member ∈ c.classes.members path) :
          Congruent (b.Equated first second) path member := hc.united path member hm
      have hplaced (member : Path) (hm : member ∈ c.classes.members path) := hc.intact.member hs hm
      unfold fillClass Copying
      rw [meets_bind, meets_get]
      refine Copying.bind (copying_fillMembers hg hb hc hplaced fun member hm => ⟨origin, ?_, n, hnode⟩)
        (keeps_fillMembers hg hc.intact.balanced (fun _ _ => Set.mem_univ _) hplaced)
        fun opened d hgd hd hfilled => ?_
      · exact horigin.trans ((hmember source hsource).symm.trans (hmember member hm))
      have hannounce : Preserves (b.Copies p first second) (· ≠ .outOfFuel)
          (opened.forM fun path => whenFeasible (announce p (fillClass p steps) unifying path)) :=
        .forM fun q hq => .whenFeasible ((calm_copies p b first second).announce hg (hfilled.placed q hq).1)
      refine .whenFeasible hd fun hf => ?_
      obtain ⟨cs, hcs⟩ := hfilled.nodes hf path (c.classes.mem_members_self path)
      obtain ⟨r, hr, -⟩ := Grammar.wellFormed_node_iff.mp (hd.intact.wellFormed.get? hcs)
      obtain ⟨lowest, hlowest, hreach⟩ := c.exists_reach path
      refine meets_joinAndShow hr ?_ fun _ => hannounce d hd
      rw [meets_bind]
      exact (copying_joinChildren ih (levels_fillClass hg steps) hd (hfilled.rootAt hd.intact hf hr)
        (fun x hx y hy => (hmember x hx).symm.trans (hmember y hy)) hlowest (by omega)).mono
        (fun _ e he => hannounce e he) fun _ _ hh => hh

end Filling

theorem copying_equate (hg : p.grammar.Regular) (hb : b.Intact p)
    (hdepth : ∀ c, b.Copies p first second c → c.tree.depth ≤ D) (hsteps : D < steps) :
    Copying p b first second (equate (fillClass p steps) first second) b := by
  have hcopies := hb.copies first second
  unfold equate
  refine meets_nodeAt_bind (fun _ => nofun) fun s hs => ?_
  refine meets_nodeAt_bind (fun _ => nofun) fun v hv => ?_
  rw [meets_bind, meets_isFeasible]
  split
  · exact hcopies
  · split
    · exact hcopies.congr (d := b.fail) rfl rfl
    · rw [meets_bind, meets_modify]
      exact copying_sync (copiesNodes_fillClass hg hb hdepth steps)
        (hcopies.unite (.joined (Or.inr ⟨rfl, rfl⟩)) ⟨s, hs⟩ ⟨v, hv⟩) ⟨s, hs⟩ (by omega)

end BranchM

end TreeSearch
