import TreeSearch.Proofs.Branch.Keeping

namespace TreeSearch

variable {p : Problem} {F : Halt → Prop} {D : Set (Set Path)} {b c : Branch}

-- A filler that levels the class of its path.
def Levels (p : Problem) (fill : Filler) : Prop :=
  ∀ (b : Branch) (unifying : Bool) (path : Path) (rule : Nat) (D : Set (Set Path)),
    b.Balanced p (insert (b.classAt path) D) → (∃ s, b.tree.get? path = some s) →
      BranchM.Keeps p (fun _ => False) D (fill unifying path rule) b fun _ _ => True

namespace Action

-- What an action needs to come to its end in a tree that goes on.
def Found (t : Tree) : Action → Prop
  | retire | fail => True
  | keep path _ => ∃ s, t.get? path = some s
  | strike path rule => (∃ s, t.get? path = some s) ∧ 0 ≤ rule
  | equate first second => (∃ s, t.get? first = some s) ∧ ∃ s, t.get? second = some s
  | order bindings names => ∀ name ∈ names, ∃ path, BranchM.pathOf bindings name = .ok path ∧
      ∃ s, t.get? path = some s

variable {a : Action}

theorem Placed.found {t : Tree} (h : a.Placed t) : a.Found t := by
  cases a with
  | order bindings names =>
      intro name hn
      obtain ⟨x, hx⟩ := h.2 name hn
      exact ⟨x.path, BranchM.pathOf_eq_ok hx, x.tree, h.1.bindings x (List.mem_of_find?_eq_some hx)⟩
  | _ => exact h

theorem Found.grows (h : a.Found b.tree) (hg : b.Grows c) : a.Found c.tree := by
  cases a with
  | retire => trivial
  | fail => trivial
  | keep path mask => exact hg.placed h
  | strike path rule => exact ⟨hg.placed h.1, h.2⟩
  | equate first second => exact ⟨hg.placed h.1, hg.placed h.2⟩
  | order bindings names =>
      intro name hn
      obtain ⟨path, hp, hs⟩ := h name hn
      exact ⟨path, hp, hg.placed hs⟩

end Action

namespace BranchM

variable {fill : Filler} {unifying : Bool} {path : Path}

section Unifying

-- Open positions that have lost all rules but the common ones are in the same state.
theorem level_of_commonRules {members : List Path} {trees : List Tree} (hb : b.Intact p)
    (htrees : ∀ q ∈ members, ∃ v ∈ trees, b.tree.get? q = some v) (hnone : filledRules trees = [])
    (hc : c.Intact p) (hnarrowed : ∀ q ∈ members,
      c.rootAt q = (b.rootAt q).map (narrowedRoot (commonRules trees))) :
    c.Level members := by
  have hopen (q : Path) (hq : q ∈ members) : ∃ (category : String) (e : Domain),
      commonRules trees = .only e ∧ c.tree.get? q = some (.hole category e) := by
    obtain ⟨v, hv, hget⟩ := htrees q hq
    have hw := hb.wellFormed.get? hget
    cases hw.concrete with
    | node r cs => exact absurd (mem_filledRules.mpr ⟨cs, hv⟩) (by simp [hnone])
    | hole category d =>
        obtain ⟨e, he, hsub⟩ := commonRules_eq hv (rfl : (Tree.hole category d).domain? = some d)
        have hkept : d.restrict (.only e) = e := by
          ext r
          rw [Domain.mem_restrict]
          exact ⟨And.right, fun hr => ⟨hsub _ hv d rfl r hr, hr⟩⟩
        have hroot := hnarrowed q hq
        rw [he, Branch.rootAt_eq_some hget] at hroot
        exact ⟨category, e, he, hkept ▸ Branch.get?_of_rootAt hroot⟩
  refine ⟨fun first hf second hs => ?_, fun first hf _ _ r n i hr _ => ?_⟩
  · obtain ⟨category, e, he, hfirst⟩ := hopen first hf
    obtain ⟨category', e', he', hsecond⟩ := hopen second hs
    obtain rfl := Mask.only.inj (he.symm.trans he')
    -- a rule that is left belongs to the categories of both
    obtain ⟨n, hn⟩ := (Domain.isEmpty_eq_false_iff e).mp (hc.rules first category e hfirst)
    obtain ⟨r, hr, -, hcategory⟩ :=
      (Grammar.wellFormed_hole_iff.mp (hc.wellFormed.get? hfirst)).2.2 n hn
    obtain ⟨r', hr', -, hcategory'⟩ :=
      (Grammar.wellFormed_hole_iff.mp (hc.wellFormed.get? hsecond)).2.2 n hn
    obtain rfl := Option.some.inj (hr.symm.trans hr')
    rw [Branch.rootAt, Branch.rootAt, hfirst, hsecond, ← hcategory, ← hcategory']
  · obtain ⟨category, e, -, hfirst⟩ := hopen first hf
    rw [Branch.rootAt_eq_some hfirst] at hr
    cases hr

theorem keeps_sync (hfill : Levels p fill) (hb : b.Balanced p (insert (b.classAt path) D))
    (hs : ∃ s, b.tree.get? path = some s) :
    Keeps p (fun _ => False) D (sync fill unifying path) b fun _ _ => True := by
  have hclass {c : Branch} (h : c.classes = b.classes) : c.classAt path = b.classAt path := by
    rw [Branch.classAt, Branch.classAt, h]
  have hplaced (q : Path) (hq : q ∈ b.classes.members path) := hb.intact.member hs hq
  refine meets_sync hb.intact.wellFormed hplaced (fun hlen => ?_) (fun trees htrees hnone => ?_)
    (fun q hq n cs hv => ?_) fun _ => ?_
  · exact ⟨.refl b, hb.release fun _ => b.level_of_length hlen, trivial⟩
  · refine Keeps.settle (p := p) (F := fun _ => False) (keeps_narrow hb (Or.inr hs)) ?_
    rintro _ c hg hc ⟨hclasses, hnarrowed⟩
    refine ⟨?_, trivial⟩
    rw [← hclass hclasses] at hc
    refine hc.release fun hf => ?_
    rw [hclasses]
    refine level_of_commonRules hb.intact (fun q hq => ?_) hnone hc.intact (hnarrowed hf)
    obtain ⟨v, hv⟩ := hplaced q hq
    exact ⟨v, (htrees v).mpr ⟨q, hq, hv⟩, hv⟩
  · show Keeps p (fun _ => False) D _ b fun _ _ => True
    refine (keeps_narrow hb (Or.inr hs)).bind_settle fun _ c hg hc hnarrowed => ?_
    refine .whenFeasible hc (fun _ => ?_) fun _ => trivial
    exact hfill c unifying path n D (by rwa [hclass hnarrowed.1]) (hg.placed hs)
  · have hfail {P : Prop} : b.fail.feasible = true → P := fun h => Bool.noConfusion h
    exact ⟨.of_eq rfl rfl hfail, ⟨hb.intact.congr rfl rfl, hfail⟩, trivial⟩

-- The paths make one class, which is then brought into one state.
theorem keeps_equate {first second : Path} (hfill : Levels p fill) (hb : b.Balanced p D)
    (hfirst : Lenient F ∨ ∃ s, b.tree.get? first = some s) (hsecond : Lenient F ∨ ∃ s, b.tree.get? second = some s) :
    Keeps p F D (equate fill first second) b fun _ c =>
      c.feasible = true → second ∈ c.classes.members first := by
  unfold equate
  refine .nodeAt_bind hb hfirst fun s hs => .nodeAt_bind hb hsecond fun v hv => ?_
  rw [keeps_isFeasible_bind]
  by_cases hdone : (!b.feasible) = true ∨ first = second
  · rw [if_pos hdone]
    refine .pure hb fun hf => ?_
    obtain rfl : first = second := hdone.resolve_left (by simp [hf])
    exact b.classes.mem_members_self first
  · rw [if_neg hdone]
    split
    · exact .fail hb nofun
    · have hunited := (hb.excuse (b.classAt first)).unite ⟨s, hs⟩ ⟨v, hv⟩
      refine Keeps.bind_settle (R := fun _ c =>
        c = { b with classes := b.classes.unite first second }) ⟨.unite hb.intact, hunited, rfl⟩ ?_
      rintro _ c - hc rfl
      refine (keeps_sync hfill hc ⟨s, hs⟩).calm.post fun _ d hd _ _ _ => ?_
      exact hd.members _ _ (hb.intact.classes.mem_members_unite first second)

-- The children of some positions at one index are united with the first of them.
theorem keeps_joinChild (hfill : Levels p fill) (hb : b.Balanced p D) {anchor : Path}
    {others : List Path} {i : Nat}
    (hplaced : ∀ q ∈ anchor :: others, ∃ s, b.tree.get? (q ++ [(i : Int)]) = some s) :
    Keeps p (fun _ => False) D (modify (fun b => { b with
        classes := others.foldl (fun classes member =>
          classes.unite (anchor ++ [(i : Int)]) (member ++ [(i : Int)])) b.classes }) >>= fun _ =>
      sync fill unifying (anchor ++ [(i : Int)])) b fun _ c => c.Joined (anchor :: others) i := by
  let united : Branch := { b with
    classes := others.foldl (fun classes member =>
      classes.unite (anchor ++ [(i : Int)]) (member ++ [(i : Int)])) b.classes }
  have hclasses : united.classes = (others.map (· ++ [(i : Int)])).foldl
      (fun classes q => classes.unite (anchor ++ [(i : Int)]) q) b.classes :=
    List.foldl_map.symm
  have hanchor := hplaced anchor List.mem_cons_self
  obtain ⟨hgrows, hunited⟩ := (hb.excuse _).uniteAll hanchor
    (List.forall_mem_map.mpr fun q hq => hplaced q (List.mem_cons_of_mem anchor hq)) hclasses
  refine Keeps.bind_settle (R := fun _ d => d = united) ⟨hgrows, hunited, rfl⟩ ?_
  rintro _ d - hd rfl
  refine (keeps_sync hfill hd hanchor).post fun _ e hge he _ => ?_
  have hjoined := hb.intact.classes.foldl_unite (anchor ++ [(i : Int)]) (others.map (· ++ [(i : Int)]))
  rw [← hclasses] at hjoined
  have hmember (q : Path) (hq : q ∈ anchor :: others) :
      q ++ [(i : Int)] ∈ e.classes.members (anchor ++ [(i : Int)]) := by
    refine hge.members _ _ ?_
    rcases List.mem_cons.mp hq with rfl | hq
    · exact united.classes.mem_members_self _
    · exact hjoined.2 _ (List.mem_map_of_mem hq)
  intro first hfirst second hsecond
  rw [he.intact.classes.members_of_mem (hmember first hfirst)]
  exact hmember second hsecond

-- The children of filled positions are united one by one.
theorem keeps_joinChildren (hfill : Levels p fill) (hb : b.Balanced p D) {members : List Path}
    {rule : Int} {arity : Nat} (hroots : ∀ q ∈ members, b.rootAt q = some (.inl (rule, arity))) :
    Keeps p (fun _ => False) D (joinChildren fill unifying members arity) b fun _ c =>
      c.feasible = true → ∀ i < arity, c.Joined members i := by
  cases members with
  | nil => exact .pure hb nofun
  | cons anchor others =>
      refine (Keeps.forM (fun rest c => (∀ i ∈ rest, i < arity) ∧ (c.feasible = true →
        ∀ i < arity, i ∈ rest ∨ c.Joined (anchor :: others) i)) hb ⟨fun i hi => List.mem_range.mp hi,
          fun _ i hi => Or.inl (List.mem_range.mpr hi)⟩ ?_).post ?_
      · rintro i rest c hg hc ⟨hrest, hdone⟩
        have hrest' := fun j hj => hrest j (List.mem_cons_of_mem i hj)
        refine .whenFeasible hc (fun hf => ?_)
          fun hf => ⟨hrest', fun hf' => absurd (hf.symm.trans hf') Bool.false_ne_true⟩
        refine (keeps_joinChild hfill hc fun q hq => ?_).post fun _ d hgd _ hjoined =>
          ⟨hrest', fun _ j hj => ?_⟩
        · obtain ⟨cs, hcs, hlen⟩ := Branch.rootAt_eq_inl.mp (hg.rootAt (hroots q hq))
          rw [Tree.get?_below hcs]
          have := hrest i List.mem_cons_self
          exact ⟨_, List.getElem?_eq_getElem (by omega)⟩
        · rcases hdone hf j hj with hin | hj
          · rcases List.mem_cons.mp hin with rfl | hin
            · exact Or.inr hjoined
            · exact Or.inl hin
          · exact Or.inr (hgd.joined hj)
      · rintro _ c - - ⟨-, hdone⟩ hf i hi
        exact (hdone hf i hi).resolve_left List.not_mem_nil

end Unifying

section Acting

variable {w : Watch}

theorem keeps_lastName (settled : Bool) (hb : b.Balanced p D) :
    Keeps p F D (if settled = true then modify (·.retire w) else return) b fun _ _ => True := by
  split
  · exact .modify hb rfl rfl (fun hf => hf) trivial
  · exact .pure hb trivial

theorem keeps_orderNames {bindings : List Binding} {names : List String} (settled : Bool)
    (hb : b.Balanced p D) (h : Lenient F ∨ (Action.order bindings names).Found b.tree) :
    Keeps p F D (orderNames p unifying w bindings names settled) b fun _ _ => True := by
  induction names generalizing b settled with
  | nil => exact keeps_lastName settled hb
  | cons name names ih =>
      cases names with
      | nil => exact keeps_lastName settled hb
      | cons next rest =>
          rw [orderNames]
          refine .attempt_bind_with hb (h.imp_right fun h => h name List.mem_cons_self) fun first hfirst => ?_
          refine .attempt_bind_with hb (h.imp_right fun h =>
            h next (List.mem_cons_of_mem name List.mem_cons_self)) fun second hsecond => ?_
          refine (keeps_order hb hfirst hsecond).bind fun outcome c hg hc _ => ?_
          have hrest (settled : Bool) := ih settled hc (h.imp_right fun h =>
            Action.Found.grows (fun name' hn => h name' (List.mem_cons_of_mem name hn)) hg)
          cases outcome with
          | violated => exact .pure hc trivial
          | undecided => exact hrest false
          | less => exact hrest settled
          | equal => exact hrest settled

theorem keeps_perform {a : Action} (hfill : Levels p fill) (hb : b.Balanced p D)
    (h : Lenient F ∨ a.Found b.tree) :
    Keeps p F D (perform p fill unifying w a) b fun _ _ => True := by
  cases a with
  | retire => exact .modify hb rfl rfl (fun hf => hf) trivial
  | fail => exact .fail hb trivial
  | keep path mask => exact (keeps_narrow hb h).post fun _ _ _ _ _ => trivial
  | strike path rule => exact keeps_strike hb h
  | equate first second =>
      exact (keeps_equate hfill hb (h.imp_right And.left) (h.imp_right And.right)).post
        fun _ _ _ _ _ => trivial
  | order bindings names => exact keeps_orderNames true hb h

-- The constraints of the grammar find what they act on. Others may not. At the root, numbers may grow
-- too large.
theorem keeps_propagate (hg : p.grammar.Regular) (hfill : Levels p fill) (hb : b.Balanced p D)
    (hw : Lenient F ∨ w.constraint.Tame ∧ w.Fits ∧ ∃ s, b.tree.get? w.path = some s)
    (hroot : w.path = [] → F .overflow) :
    Keeps p F D (propagate p fill unifying w) b fun _ _ => True := by
  have hacts : Lenient F ∨
      ∃ acts, ReckonsUnless (w.path = []) (w.actions p b.tree) acts ∧ ∀ a ∈ acts, a.Found b.tree := by
    refine hw.imp_right fun ⟨htame, hfits, s, hs⟩ => ?_
    obtain ⟨acts, hacts, hanswers⟩ := Watch.actions_spec hg hb.intact.wellFormed htame hfits hs
      (fun hp _ => hp) fun hp _ _ _ => hp
    exact ⟨acts, hacts, fun a ha => (hanswers.placed a ha).found⟩
  unfold propagate
  rw [keeps_get_bind]
  refine .reckon_bind_with hb hacts hroot fun acts hfound => ?_
  refine (Keeps.forM (fun left c => Lenient F ∨ ∀ a ∈ left, a.Found c.tree) hb hfound ?_).post
    fun _ _ _ _ _ => trivial
  intro a left c _ hc hleft
  refine (keeps_perform hfill hc (hleft.imp_right fun h => h a List.mem_cons_self)).post
    fun _ d hd _ _ => hleft.imp_right fun h x hx => ?_
  exact (h x (List.mem_cons_of_mem a hx)).grows hd

theorem keeps_post (hg : p.grammar.Regular) (hfill : Levels p fill) (hb : b.Balanced p D)
    (hw : Lenient F ∨ w.constraint.Tame ∧ w.Fits ∧ ∃ s, b.tree.get? w.path = some s)
    (hroot : w.path = [] → F .overflow) :
    Keeps p F D (post p fill unifying w) b fun _ _ => True := by
  unfold post
  rw [keeps_get_bind]
  split
  · exact .pure hb trivial
  · let watching : Branch := { b with
      active := b.active.insert w
      statistics.posted := b.statistics.posted + 1 }
    have hwatching : watching.Balanced p D := hb.congr rfl rfl fun hf => hf
    refine Keeps.bind (R := fun _ c => c = watching) ⟨.of_eq rfl rfl fun hf => hf, hwatching, rfl⟩ ?_
    rintro _ c - hc rfl
    exact keeps_propagate hg hfill hc hw hroot

theorem keeps_announceTo {k : Constraint} (hg : p.grammar.Regular) (hfill : Levels p fill)
    (hb : b.Balanced p D) (hs : ∃ s, b.tree.get? path = some s) (hk : k ∈ p.grammar.constraints)
    (hroot : path = [] → F .overflow) :
    Keeps p F D (announceTo p fill unifying path k) b fun _ _ => True := by
  unfold announceTo
  have htame := hg.tame k hk
  rw [keeps_get_bind]
  have hlog {asked : Option Watch} {next : BranchM Unit}
      (hnext : ∀ c : Branch, b.Grows c → c.Balanced p D → Keeps p F D next c fun _ _ => True) :
      Keeps p F D (do modify fun b => { b with log := ⟨k, path, asked⟩ :: b.log }; next) b fun _ _ => True :=
    Keeps.bind (R := fun _ _ => True) (.modify hb rfl rfl (fun hf => hf) trivial)
      fun _ c hc hcb _ => hnext c hc hcb
  obtain ⟨s, hs⟩ := hs
  rcases k.watchAt_spec hb.intact.wellFormed htame hs with ⟨hw, hfits⟩ | ⟨hw, -⟩
  · rw [keeps_attempt_bind hw]
    refine hlog fun c hc hcb => ?_
    exact keeps_post hg hfill hcb (Or.inr ⟨htame, hfits, hc.placed ⟨s, hs⟩⟩) hroot
  · rw [keeps_attempt_bind hw]
    exact hlog fun _ _ hcb => .pure hcb trivial

theorem keeps_announce (hg : p.grammar.Regular) (hfill : Levels p fill) (hb : b.Balanced p D)
    (hs : ∃ s, b.tree.get? path = some s) (hroot : path = [] → F .overflow) :
    Keeps p F D (announce p fill unifying path) b fun _ _ => True := by
  refine (Keeps.forM (fun left _ => ∀ k ∈ left, k ∈ p.grammar.constraints) hb (fun _ h => h) ?_).post
    fun _ _ _ _ _ => trivial
  intro k left c hc hcb hleft
  have hleft' := fun x hx => hleft x (List.mem_cons_of_mem k hx)
  refine .whenFeasible hcb (fun _ => ?_) fun _ => hleft'
  exact (keeps_announceTo hg hfill hcb (hc.placed hs) (hleft k List.mem_cons_self) hroot).post
    fun _ _ _ _ _ => hleft'

end Acting

section Filling

variable {rule : Nat}

-- What filling positions comes to before their children are united. No root is opened.
structure Filled (rule : Nat) (members : List Path) (b : Branch) (opened : List Path) (c : Branch) :
    Prop where
  classes : c.classes = b.classes
  placed : ∀ path ∈ opened, path ≠ [] ∧ ∃ s, c.tree.get? path = some s
  nodes : c.feasible = true → ∀ member ∈ members, ∃ cs, c.tree.get? member = some (.node rule cs)

theorem Filled.rootAt {members opened : List Path} (h : Filled rule members b opened c)
    (hc : c.Intact p) (hf : c.feasible = true) {r : Rule} (hr : p.grammar.rule? rule = some r) :
    ∀ q ∈ members, c.rootAt q = some (.inl ((rule : Int), r.children.length)) := by
  intro q hq
  obtain ⟨cs, hcs⟩ := h.nodes hf q hq
  obtain ⟨r', hr', -, -, hlen, -⟩ := Grammar.wellFormed_node_iff.mp (hc.wellFormed.get? hcs)
  obtain rfl := Option.some.inj (hr.symm.trans hr')
  exact Branch.rootAt_eq_inl.mpr ⟨cs, hcs, hlen⟩

theorem keeps_giveUp {members : List Path} (hb : b.Balanced p D) :
    Keeps p F D (fail >>= fun _ => pure ([] : List Path)) b (Filled rule members b) := by
  refine Keeps.bind (R := fun _ c => c = b.fail) (.fail hb rfl) ?_
  rintro _ c - hc rfl
  exact .pure hc ⟨rfl, nofun, nofun⟩

theorem keeps_fillOne (hg : p.grammar.Regular) (hb : b.Balanced p D) (hin : b.classAt path ∈ D)
    {category : String} {rules : Domain} (hs : b.tree.get? path = some (.hole category rules))
    (hmem : rule ∈ rules) :
    Keeps p F D (fillOne p unifying rule path) b (Filled rule [path] b) := by
  refine meets_fillOne hg hs (hb.intact.wellFormed.get? hs) hmem (fun ho ⟨_, hok⟩ => nomatch ho.symm.trans hok)
    (fun _ _ _ _ _ => ?_) ?_
  · exact keeps_giveUp (F := F) hb
  · intro production holes tree statistics _ _ change replaced
    have htree := Branch.notify_tree { b with tree, statistics } path unifying
    have hclasses := Branch.notify_classes { b with tree, statistics } path unifying
    have hf := Branch.notify_feasible { b with tree, statistics } path unifying
    have hnew : (({ b with tree, statistics } : Branch).notify unifying path).tree.get? path =
        some (.node rule holes) := by
      rw [htree, replaced.get?_new]
    refine ⟨.edit change replaced htree hclasses hf, hb.edit hin change replaced htree hclasses hf,
      hclasses, fun q hq => ?_, fun _ member hm => ?_⟩
    · obtain ⟨n, hn, rfl⟩ := List.mem_map.mp hq
      rw [Tree.get?_below hnew]
      exact ⟨by simp, _, List.getElem?_eq_getElem (List.mem_range.mp hn)⟩
    · obtain rfl := List.mem_singleton.mp hm
      exact ⟨holes, hnew⟩

theorem keeps_fillMember (hg : p.grammar.Regular) (hb : b.Balanced p D) (hin : b.classAt path ∈ D)
    (hs : ∃ s, b.tree.get? path = some s) :
    Keeps p F D (fillMember p unifying rule path) b (Filled rule [path] b) := by
  obtain ⟨s, hs⟩ := hs
  refine meets_fillMember hs (hb.intact.wellFormed.get? hs) ?_ (fun _ => keeps_giveUp (F := F) hb) ?_
  · rintro cs rfl
    exact ⟨.refl b, hb, rfl, nofun, fun _ member hm => ⟨cs, List.mem_singleton.mp hm ▸ hs⟩⟩
  · rintro category rules rfl hmem
    exact keeps_fillOne hg hb hin hs hmem

theorem keeps_fillMembers (hg : p.grammar.Regular) {members : List Path} (hb : b.Balanced p D)
    (hin : ∀ member ∈ members, b.classAt member ∈ D)
    (hs : ∀ member ∈ members, ∃ s, b.tree.get? member = some s) :
    Keeps p F D (fillMembers p unifying rule members) b (Filled rule members b) := by
  induction members generalizing b with
  | nil => exact .pure hb ⟨rfl, nofun, nofun⟩
  | cons member rest ih =>
      refine (keeps_fillMember hg hb (hin member List.mem_cons_self) (hs member List.mem_cons_self)).bind
        fun opened c hc hcb hfilled => ?_
      rw [keeps_isFeasible_bind]
      by_cases hf : c.feasible = true
      · rw [if_pos hf]
        have hin' (other : Path) (ho : other ∈ rest) : c.classAt other ∈ D := by
          rw [Branch.classAt, hfilled.classes]
          exact hin other (List.mem_cons_of_mem member ho)
        refine (ih hcb hin' fun other ho => hc.placed (hs other (List.mem_cons_of_mem member ho))).bind
          fun more d hd hdb hrest => .pure hdb ⟨hrest.classes.trans hfilled.classes, fun q hq => ?_,
            fun hfd other ho => ?_⟩
        · rcases List.mem_append.mp hq with hq | hq
          · exact (hfilled.placed q hq).imp_right hd.placed
          · exact hrest.placed q hq
        · rcases List.mem_cons.mp ho with rfl | ho
          · obtain ⟨cs, hcs⟩ := hfilled.nodes hf other (List.mem_singleton_self other)
            obtain ⟨ds, hds, -⟩ := Branch.rootAt_eq_inl.mp (hd.rootAt (Branch.rootAt_eq_some hcs))
            exact ⟨ds, hds⟩
          · exact hrest.nodes hfd other ho
      · rw [if_neg hf]
        exact .pure hcb ⟨hfilled.classes, nofun, fun h => absurd h hf⟩

theorem keeps_announceAll (hg : p.grammar.Regular) (hfill : Levels p fill) (hb : b.Balanced p D)
    {opened : List Path} (hs : ∀ path ∈ opened, path ≠ [] ∧ ∃ s, b.tree.get? path = some s) :
    Keeps p F D (opened.forM fun path => whenFeasible (announce p fill unifying path)) b
      fun _ _ => True := by
  refine (Keeps.forM (fun left _ => ∀ path ∈ left, path ∈ opened) hb (fun _ h => h) ?_).post
    fun _ _ _ _ _ => trivial
  intro path left c hc hcb hleft
  have hleft' := fun x hx => hleft x (List.mem_cons_of_mem path hx)
  refine .whenFeasible hcb (fun _ => ?_) fun _ => hleft'
  obtain ⟨hne, hplaced⟩ := hs path (hleft path List.mem_cons_self)
  exact (keeps_announce hg hfill hcb (hc.placed hplaced) fun h => absurd h hne).post
    fun _ _ _ _ _ => hleft'

-- The class that was there at first is level once its children are united. Whatever was united
-- with it meanwhile makes another class, which was levelled at that time.
theorem keeps_levelUp (hfill : Levels p fill) {members : List Path} {arity : Nat}
    (hb : b.Balanced p (insert {q | q ∈ members} D))
    (hroots : ∀ q ∈ members, b.rootAt q = some (.inl ((rule : Int), arity))) :
    Keeps p (fun _ => False) (insert {q | q ∈ members} D) (joinChildren fill unifying members arity) b
      fun _ c => c.Balanced p D := by
  refine (keeps_joinChildren hfill hb hroots).post fun _ c hg hc hjoined => ?_
  refine hc.settle fun hf k _ he => ?_
  have hin (q : Path) (hq : q ∈ k) : q ∈ members := (Set.ext_iff.mp he q).mp hq
  have hroot (q : Path) (hq : q ∈ k) := hg.rootAt (hroots q (hin q hq))
  refine ⟨fun first hfirst second hsecond => (hroot first hfirst).trans (hroot second hsecond).symm, ?_⟩
  intro first hfirst second hsecond r n i hr hi
  obtain ⟨-, rfl⟩ := Prod.mk.inj (Sum.inl.inj (Option.some.inj ((hroot first hfirst).symm.trans hr)))
  exact hjoined hf i hi first (hin first hfirst) second (hin second hsecond)

theorem levels_fillClass (hg : p.grammar.Regular) (steps : Nat) : Levels p (fillClass p steps) := by
  induction steps with
  | zero => exact fun b unifying path rule D hb hs hbetween => hbetween.elim
  | succ steps ih =>
      intro b unifying path rule D hb hs
      unfold fillClass
      rw [keeps_get_bind]
      have hclass (member : Path) (hm : member ∈ b.classes.members path) :
          b.classAt member = b.classAt path := by
        rw [Branch.classAt, hb.intact.classes.members_of_mem hm]
        rfl
      refine (keeps_fillMembers hg hb (fun member hm => hclass member hm ▸ Set.mem_insert _ _)
        fun member hm => hb.intact.member hs hm).bind_settle fun opened c _ hc hfilled => ?_
      refine .whenFeasible hc (fun hf => ?_) fun _ => trivial
      obtain ⟨cs, hcs⟩ := hfilled.nodes hf path (b.classes.mem_members_self path)
      obtain ⟨r, hr, -⟩ := Grammar.wellFormed_node_iff.mp (hc.intact.wellFormed.get? hcs)
      have hroots := hfilled.rootAt hc.intact hf hr
      refine meets_joinAndShow hr ?_ fun hlen => ?_
      · exact (keeps_levelUp ih hc hroots).bind_settle fun _ d hd _ hdb =>
          keeps_announceAll hg ih hdb fun q hq => (hfilled.placed q hq).imp_right hd.placed
      · have hsame : b.classAt path = c.classAt path := by
          rw [Branch.classAt, Branch.classAt, hfilled.classes]
        rw [hsame] at hc
        refine keeps_announceAll hg ih (hc.release fun _ => c.level_of_length ?_) hfilled.placed
        rw [hfilled.classes]
        omega

end Filling

end BranchM

end TreeSearch
