import TreeSearch.Proofs.Constraint.Local
import TreeSearch.Proofs.Constraint.Sequences
import TreeSearch.Proofs.Grammar.Renumbering

namespace TreeSearch

open TreeSearch.Tree

variable {g next : Grammar} {m : Renumbering} {old : Int → Int} {t : Tree}

section Domains

theorem bitOf_eq_ok {r : Int} {n : Nat} : bitOf r = .ok n ↔ r = n := by
  unfold bitOf
  split
  · rw [Except.ok.injEq]
    omega
  · exact iff_of_false nofun (by omega)

theorem Domain.mem_renumber {d kept : Domain} (h : d.renumber m = .ok kept) (s : Nat) :
    s ∈ kept ↔ ∃ r : Nat, r ∈ d ∧ m.new? r = some s := by
  obtain ⟨bits, hbits, h⟩ := Except.bind_eq_ok.mp h
  obtain rfl := Except.ok.inj h
  have hall := Except.mapM_eq_ok.mp hbits
  rw [mem_ofList]
  constructor
  · intro hs
    obtain ⟨r, hr, hbit⟩ := exists_of_forall₂ hall.flip hs
    obtain rfl := bitOf_eq_ok.mp hbit
    obtain ⟨n, hn, hnew⟩ := List.mem_filterMap.mp hr
    exact ⟨n, (mem_rules n d).mp hn, hnew⟩
  · rintro ⟨r, hr, hnew⟩
    obtain ⟨bit, hin, hbit⟩ := exists_of_forall₂ hall (List.mem_filterMap.mpr ⟨r, (mem_rules r d).mpr hr, hnew⟩)
    rwa [← Int.ofNat_inj.mp (bitOf_eq_ok.mp hbit)] at hin

end Domains

section Templates

variable {value : String → Tree}

theorem forall₂_iff_getElem? {α β : Type} {R : α → β → Prop} {l : List α} {k : List β} :
    List.Forall₂ R l k ↔ l.length = k.length ∧ ∀ (i : Nat) a b, l[i]? = some a → k[i]? = some b → R a b := by
  rw [List.forall₂_iff_get]
  refine and_congr_right fun hlen => ⟨fun h i a b ha hb => ?_, fun h i hi hi' => ?_⟩
  · obtain ⟨hi, rfl⟩ := List.getElem?_eq_some_iff.mp ha
    obtain ⟨hi', rfl⟩ := List.getElem?_eq_some_iff.mp hb
    exact h i hi hi'
  · exact h i _ _ (List.getElem?_eq_getElem hi) (List.getElem?_eq_getElem hi')

theorem matchesUnder_node_iff {r q : Int} {parts cs : List Tree} :
    MatchesUnder value (.node r parts) (.node q cs) ↔ r = q ∧ List.Forall₂ (MatchesUnder value) parts cs := by
  rw [forall₂_iff_getElem?]
  constructor
  · intro h
    cases h with
    | node length below => exact ⟨rfl, length, below⟩
  · rintro ⟨rfl, length, below⟩
    exact .node length below

theorem matchesUnder_choice_iff {d : Domain} {q : Int} {parts cs : List Tree} :
    MatchesUnder value (.choice d parts) (.node q cs) ↔
      (∃ n : Nat, q = n ∧ n ∈ d) ∧ List.Forall₂ (MatchesUnder value) parts cs := by
  rw [forall₂_iff_getElem?]
  constructor
  · intro h
    cases h with
    | choice mem length below => exact ⟨⟨_, rfl, mem⟩, length, below⟩
  · rintro ⟨⟨n, rfl, mem⟩, length, below⟩
    exact .choice mem length below

-- What a template says about a tree, it says under the new indices too, if it is still there.
structure Carries (m : Renumbering) (old : Int → Int) (template : Tree) (found : Option Tree) (t : Tree) :
    Prop where
  there : ∀ value, MatchesUnder value template t → ∃ new, found = some new ∧
    MatchesUnder (fun x => (value x).renamed m.rename) new (t.renamed m.rename)
  back : ∀ new, found = some new → ∀ value, MatchesUnder value new (t.renamed m.rename) →
    MatchesUnder (fun x => (value x).renamed old) template t

-- The same for parts and children.
structure CarriesAll (m : Renumbering) (old : Int → Int) (parts : List Tree) (found : Option (List Tree))
    (cs : List Tree) : Prop where
  there : ∀ value, List.Forall₂ (MatchesUnder value) parts cs → ∃ news, found = some news ∧
    List.Forall₂ (MatchesUnder fun x => (value x).renamed m.rename) news (cs.map (Tree.renamed m.rename))
  back : ∀ news, found = some news → ∀ value, List.Forall₂ (MatchesUnder value) news (cs.map (Tree.renamed m.rename)) →
    List.Forall₂ (MatchesUnder fun x => (value x).renamed old) parts cs

section Parts

variable {part new : Tree} {parts cs : List Tree} {c : Tree} {below : Option (List Tree)}
  {r q s : Int}

theorem Carries.cons (h : Carries m old part (some new) c) (hrest : CarriesAll m old parts below cs) :
    CarriesAll m old (part :: parts) (below.map (new :: ·)) (c :: cs) := by
  constructor
  · rintro value (_ | ⟨hc, hall⟩)
    obtain ⟨_, ⟨⟩, hnew⟩ := h.there value hc
    obtain ⟨news, rfl, hnews⟩ := hrest.there value hall
    exact ⟨new :: news, rfl, .cons hnew hnews⟩
  · intro news hnews value hmatch
    obtain ⟨others, rfl, rfl⟩ := Option.map_eq_some_iff.mp hnews
    cases hmatch with
    | cons hc hall => exact .cons (h.back new rfl value hc) (hrest.back others rfl value hall)

-- One part that is gone takes the others along, and none of them matched.
theorem Carries.gone (h : Carries m old part none c) :
    CarriesAll m old (part :: parts) none (c :: cs) := by
  refine ⟨?_, nofun⟩
  rintro value (_ | ⟨hc, -⟩)
  obtain ⟨_, ⟨⟩, -⟩ := h.there value hc

-- Parts match nothing where there are no children.
theorem carriesAll_childless (h : ∀ news, below = some news → news ≠ []) :
    CarriesAll m old (part :: parts) below [] := by
  refine ⟨fun value hmatch => (nomatch hmatch), fun news hnews value hmatch => ?_⟩
  cases hmatch
  exact absurd rfl (h [] hnews)

-- The children of a node, below a part with one rule.
theorem CarriesAll.node (h : CarriesAll m old parts below cs) (hm : g.Renumbers next m)
    (hq : m.new? q = some s) : Carries m old (.node r parts)
      (below.bind fun news => (m.new? r).map (.node · news)) (.node q cs) := by
  constructor
  · intro value hmatch
    obtain ⟨rfl, hall⟩ := matchesUnder_node_iff.mp hmatch
    obtain ⟨news, rfl, hnews⟩ := h.there value hall
    refine ⟨.node s news, by rw [Option.bind_some, hq]; rfl, ?_⟩
    rw [renamed_node, m.rename_eq hq]
    exact matchesUnder_node_iff.mpr ⟨rfl, hnews⟩
  · intro template hfound value hmatch
    obtain ⟨news, rfl, hfound⟩ := Option.bind_eq_some_iff.mp hfound
    obtain ⟨s', hs', rfl⟩ := Option.map_eq_some_iff.mp hfound
    rw [renamed_node, m.rename_eq hq] at hmatch
    obtain ⟨rfl, hall⟩ := matchesUnder_node_iff.mp hmatch
    exact matchesUnder_node_iff.mpr ⟨hm.inj hs' hq, h.back news rfl value hall⟩

-- Below one with several rules. It is gone when none of them has a new index.
theorem CarriesAll.choice {d : Domain} {found : Option Tree} (h : CarriesAll m old parts below cs)
    (hm : g.Renumbers next m) (hq : m.new? q = some s)
    (hfound : below = none ∧ found = none ∨ ∃ news kept, below = some news ∧ d.renumber m = .ok kept ∧
      (kept.isEmpty = true ∧ found = none ∨ found = some (.choice kept news))) :
    Carries m old (.choice d parts) found (.node q cs) := by
  obtain ⟨k, rfl⟩ := hm.new_nonneg hq
  constructor
  · intro value hmatch
    obtain ⟨⟨n, rfl, hn⟩, hall⟩ := matchesUnder_choice_iff.mp hmatch
    obtain ⟨news, rfl, hnews⟩ := h.there value hall
    obtain ⟨he, -⟩ | ⟨_, kept, ⟨⟩, hkept, hfound⟩ := hfound
    · cases he
    · have hin : k ∈ kept := (Domain.mem_renumber hkept k).mpr ⟨n, hn, hq⟩
      have hopen := (Domain.isEmpty_eq_false_iff kept).mpr ⟨k, hin⟩
      refine ⟨.choice kept news, hfound.resolve_left fun h => absurd (hopen.symm.trans h.1) nofun, ?_⟩
      rw [renamed_node, m.rename_eq hq]
      exact matchesUnder_choice_iff.mpr ⟨⟨k, rfl, hin⟩, hnews⟩
  · intro template htemplate value hmatch
    subst htemplate
    obtain ⟨-, he⟩ | ⟨news, kept, rfl, hkept, ⟨-, he⟩ | he⟩ := hfound
    · cases he
    · cases he
    · obtain rfl := Option.some.inj he
      rw [renamed_node, m.rename_eq hq] at hmatch
      obtain ⟨⟨n, hn, hin⟩, hall⟩ := matchesUnder_choice_iff.mp hmatch
      obtain rfl := Int.ofNat_inj.mp hn
      obtain ⟨r, hr, hnew⟩ := (Domain.mem_renumber hkept k).mp hin
      exact matchesUnder_choice_iff.mpr ⟨⟨r, (hm.inj hnew hq).symm, hr⟩, h.back news rfl value hall⟩

end Parts

theorem carriesAll_renumberAll {parts cs : List Tree} {found : Option (List Tree)}
    (ih : ∀ part ∈ parts, ∀ found, part.renumber m = .ok found → ∀ c, c.Survives m → Carries m old part found c)
    (h : renumberAll m parts = .ok found) (hcs : ∀ c ∈ cs, c.Survives m) :
    CarriesAll m old parts found cs := by
  induction parts generalizing cs found with
  | nil =>
      obtain rfl := Except.ok.inj h
      constructor
      · rintro value h
        cases h
        exact ⟨[], rfl, .nil⟩
      · rintro _ ⟨⟩ value h
        cases cs with
        | nil => exact .nil
        | cons => cases h
  | cons part parts ihp =>
      obtain ⟨first, hfirst, h⟩ := Except.bind_eq_ok.mp h
      have hpart := ih part List.mem_cons_self first hfirst
      cases first with
      | none =>
          obtain rfl := Except.ok.inj h
          cases cs with
          | nil => exact carriesAll_childless nofun
          | cons c cs => exact (hpart c (hcs c List.mem_cons_self)).gone
      | some new =>
          obtain ⟨rest, hrest, h⟩ := Except.bind_eq_ok.mp h
          obtain rfl := Except.ok.inj h
          cases cs with
          | nil =>
              refine carriesAll_childless fun news hnews => ?_
              obtain ⟨others, -, rfl⟩ := Option.map_eq_some_iff.mp hnews
              exact List.cons_ne_nil new others
          | cons c cs =>
              exact (hpart c (hcs c List.mem_cons_self)).cons
                (ihp (fun part hp => ih part (List.mem_cons_of_mem _ hp)) hrest
                  fun d hd => hcs d (List.mem_cons_of_mem c hd))

theorem renumber_node_eq_ok {r : Int} {parts : List Tree} {found : Option Tree} :
    (node r parts).renumber m = .ok found ↔ ∃ below, renumberAll m parts = .ok below ∧
      found = below.bind fun news => (m.new? r).map (node · news) := by
  rw [renumber, Except.bind_eq_ok]
  refine exists_congr fun below => and_congr_right fun _ => ?_
  cases below with
  | none => exact ⟨fun h => (Except.ok.inj h).symm, fun h => h ▸ rfl⟩
  | some news => exact ⟨fun h => (Except.ok.inj h).symm, fun h => h ▸ rfl⟩

theorem renumber_choice_eq_some {d : Domain} {parts : List Tree} {found : Option Tree}
    (h : (choice d parts).renumber m = .ok found) : ∃ below, renumberAll m parts = .ok below ∧
      (below = none ∧ found = none ∨ ∃ news kept, below = some news ∧ d.renumber m = .ok kept ∧
        (kept.isEmpty = true ∧ found = none ∨ found = some (choice kept news))) := by
  obtain ⟨below, hbelow, h⟩ := Except.bind_eq_ok.mp h
  refine ⟨below, hbelow, ?_⟩
  cases below with
  | none => exact Or.inl ⟨rfl, (Except.ok.inj h).symm⟩
  | some news =>
      obtain ⟨kept, hkept, h⟩ := Except.bind_eq_ok.mp h
      refine Or.inr ⟨news, kept, rfl, hkept, ?_⟩
      cases he : kept.isEmpty with
      | true => exact Or.inl ⟨rfl, by simpa [he] using h.symm⟩
      | false => exact Or.inr (by simpa [he] using h.symm)

-- The induction is on the template; a part is looked for at a tree whose rules all have new
-- indices, so a part that is dropped could not match there.
theorem carries_renumber (hm : g.Renumbers next m) (hold : ∀ r s, m.new? r = some s → old s = r)
    {template : Tree} {found : Option Tree} (h : template.renumber m = .ok found) (ht : t.Survives m) :
    Carries m old template found t := by
  induction template using Tree.induction generalizing found t with
  | node r parts ih =>
      obtain ⟨below, hbelow, rfl⟩ := renumber_node_eq_ok.mp h
      cases ht with
      | node new hcs =>
          exact (carriesAll_renumberAll (fun c hc found hf d hd => ih c hc hf hd) hbelow hcs).node hm new
  | hole =>
      obtain rfl := Except.ok.inj h
      refine ⟨fun value hmatch => ?_, nofun⟩
      cases hmatch
  | choice d parts ih =>
      obtain ⟨below, hbelow, hfound⟩ := renumber_choice_eq_some h
      cases ht with
      | node new hcs =>
          exact (carriesAll_renumberAll (fun c hc found hf d hd => ih c hc hf hd) hbelow hcs).choice hm new
            hfound
  | var name =>
      obtain rfl := Except.ok.inj h
      constructor
      · intro value hmatch
        cases hmatch with
        | var he => exact ⟨.var name, rfl, .var (by rw [he])⟩
      · rintro _ ⟨⟩ value hmatch
        cases hmatch with
        | var he => exact .var (by rw [he, ht.renamed_back hold])

theorem Carries.matches_iff {template : Tree} {found : Option Tree} (h : Carries m old template found t) :
    template.Matches t ↔ ∃ new, found = some new ∧ new.Matches (t.renamed m.rename) := by
  constructor
  · rintro ⟨value, hmatch⟩
    obtain ⟨new, hnew, hmatch⟩ := h.there value hmatch
    exact ⟨new, hnew, _, hmatch⟩
  · rintro ⟨new, hnew, value, hmatch⟩
    exact ⟨_, h.back new hnew value hmatch⟩

-- What a template binds is part of the tree.
theorem exists_of_matchesUnder {template : Tree} (h : MatchesUnder value template t) {name : String}
    (hname : name ∈ template.occurrences) : ∃ path, t.get? path = some (value name) := by
  have hbelow (parts : List Tree) (h : name ∈ occurrencesIn parts) : ∃ part ∈ parts, name ∈ part.occurrences := by
    induction parts with
    | nil => simp [occurrencesIn] at h
    | cons part parts ih =>
        rcases List.mem_append.mp h with h | h
        · exact ⟨part, List.mem_cons_self, h⟩
        · exact (ih h).imp fun _ => And.imp_left (List.mem_cons_of_mem part)
  have hchild {r : Int} {parts cs : List Tree} (hlen : parts.length = cs.length)
      (ih : ∀ (i : Nat) (part c : Tree), parts[i]? = some part → cs[i]? = some c →
        name ∈ part.occurrences → ∃ path, c.get? path = some (value name))
      (hname : name ∈ occurrencesIn parts) : ∃ path, (node r cs).get? path = some (value name) := by
    obtain ⟨part, hin, hpart⟩ := hbelow parts hname
    obtain ⟨i, hi⟩ := List.mem_iff_getElem?.mp hin
    have hlt : i < cs.length := hlen ▸ (List.getElem?_eq_some_iff.mp hi).1
    obtain ⟨path, hpath⟩ := ih i part _ hi (List.getElem?_eq_getElem hlt) hpart
    exact ⟨(i : Int) :: path, by simpa [get?_cons, hlt] using hpath⟩
  induction h with
  | @var other t he =>
      obtain rfl : name = other := by simpa [occurrences] using hname
      exact ⟨[], by simp [he]⟩
  | node length _ ih => exact hchild length (fun i part c hp hc hn => ih i part c hp hc hn) hname
  | choice _ length _ ih => exact hchild length (fun i part c hp hc hn => ih i part c hp hc hn) hname

theorem Tree.Survives.exists_of_matchesUnder_renamed {new : Tree} (ht : t.Survives m)
    (h : MatchesUnder value new (t.renamed m.rename)) {name : String} (hname : name ∈ new.occurrences) :
    ∃ u : Tree, u.Survives m ∧ u.renamed m.rename = value name := by
  obtain ⟨path, hpath⟩ := exists_of_matchesUnder h hname
  rw [get?_renamed] at hpath
  obtain ⟨u, hu, he⟩ := Option.map_eq_some_iff.mp hpath
  exact ⟨u, ht.get? hu, he⟩

end Templates

section Order

theorem upTo_renamed (hm : g.Renumbers next m) {s t : Tree} (hs : s.Survives m) (ht : t.Survives m) :
    UpTo (s.renamed m.rename) (t.renamed m.rename) ↔ UpTo s t :=
  or_congr ⟨Survives.renamed_inj hm hs ht, congrArg _⟩
    ⟨Survives.before_of_renamed hm hs ht, fun h => Survives.before_renamed hm h hs ht⟩

end Order

section Sequences

variable {ignore sequence rules : List Int} {path : Path}

theorem rulesTo_renamed (ht : t.Survives m) : (t.renamed m.rename).RulesTo path rules ↔
    ∃ before, t.RulesTo path before ∧ rules = before.map m.rename := by
  induction path generalizing t rules with
  | nil =>
      cases ht with
      | node => rw [renamed_node]; simp [RulesTo]
  | cons i path ih =>
      cases ht with
      | @node r s cs new below =>
          rw [renamed_node, m.rename_eq new]
          constructor
          · rintro ⟨d, rest, hd, hrest, rfl⟩
            obtain ⟨n, rfl, hn⟩ := child?_eq_some.mp hd
            rw [children, List.getElem?_map] at hn
            obtain ⟨c, hc, rfl⟩ := Option.map_eq_some_iff.mp hn
            obtain ⟨before, hbefore, rfl⟩ := (ih (below c (List.mem_of_getElem? hc))).mp hrest
            exact ⟨r :: before, ⟨c, before, child?_eq_some.mpr ⟨n, rfl, hc⟩, hbefore, rfl⟩,
              by rw [List.map_cons, m.rename_eq new]⟩
          · rintro ⟨_, ⟨c, before, hc, hbefore, rfl⟩, rfl⟩
            obtain ⟨n, rfl, hn⟩ := child?_eq_some.mp hc
            refine ⟨c.renamed m.rename, before.map m.rename, child?_eq_some.mpr ⟨n, rfl, ?_⟩,
              (ih (below c (List.mem_of_getElem? hn))).mpr ⟨before, hbefore, rfl⟩,
              by rw [List.map_cons, m.rename_eq new]⟩
            rw [children, List.getElem?_map]
            exact Option.map_eq_some_iff.mpr ⟨c, hn, rfl⟩

-- The rules on the way to a node have new indices.
theorem exists_new_of_rulesTo (ht : t.Survives m) (h : t.RulesTo path rules) :
    ∀ r ∈ rules, ∃ s, m.new? r = some s := by
  induction path generalizing t rules with
  | nil =>
      cases ht with
      | node new _ =>
          obtain rfl : rules = _ := h
          simpa using ⟨_, new⟩
  | cons i path ih =>
      cases ht with
      | node new below =>
          obtain ⟨c, rest, hc, hrest, rfl⟩ := h
          obtain ⟨n, -, hn⟩ := child?_eq_some.mp hc
          intro r hr
          rcases List.mem_cons.mp hr with rfl | hr
          · exact ⟨_, new⟩
          · exact ih (below c (List.mem_of_getElem? hn)) hrest r hr

theorem rename_inj (hm : g.Renumbers next m) {x y : Int} (hx : ∃ s, m.new? x = some s)
    (hy : ∃ s, m.new? y = some s) (h : m.rename x = m.rename y) : x = y := by
  obtain ⟨s, hs⟩ := hx
  obtain ⟨s', hs'⟩ := hy
  rw [m.rename_eq hs, m.rename_eq hs'] at h
  exact hm.inj hs (h ▸ hs')

theorem mapM_new?_eq_some {l new : List Int} :
    l.mapM m.new? = some new ↔ (∀ r ∈ l, ∃ s, m.new? r = some s) ∧ new = l.map m.rename := by
  induction l generalizing new with
  | nil => simp [eq_comm]
  | cons r l ih =>
      simp only [List.mapM_cons, Option.bind_eq_bind, Option.bind_eq_some_iff, ih]
      constructor
      · rintro ⟨s, hs, _, ⟨hl, rfl⟩, he⟩
        obtain rfl := Option.some.inj he
        exact ⟨List.forall_mem_cons.mpr ⟨⟨s, hs⟩, hl⟩, by rw [List.map_cons, m.rename_eq hs]⟩
      · rintro ⟨h, rfl⟩
        obtain ⟨⟨s, hs⟩, hl⟩ := List.forall_mem_cons.mp h
        exact ⟨s, hs, _, ⟨hl, rfl⟩, by rw [List.map_cons, m.rename_eq hs]; rfl⟩

theorem Woven.mem (h : Woven ignore sequence rules) : ∀ r ∈ sequence, r ∈ rules := by
  induction h with
  | last r => exact fun _ h => h
  | step _ _ ih =>
      intro x hx
      rcases List.mem_cons.mp hx with rfl | hx
      · simp
      · exact List.mem_append_right _ (ih x hx)

theorem Woven.map (hm : g.Renumbers next m) (h : Woven ignore sequence rules)
    (hrules : ∀ r ∈ rules, ∃ s, m.new? r = some s) :
    Woven (ignore.filterMap m.new?) (sequence.map m.rename) (rules.map m.rename) := by
  induction h with
  | last r => exact .last (m.rename r)
  | @step r gap sequence rules free _ ih =>
      rw [List.map_append, List.map_cons]
      refine .step (fun x hx => ?_) (ih fun r hr => hrules r (by simp [hr]))
      obtain ⟨y, hy, rfl⟩ := List.mem_map.mp hx
      obtain ⟨s, hs⟩ := hrules y (by simp [hy])
      intro hin
      obtain ⟨z, hz, hnew⟩ := List.mem_filterMap.mp hin
      rw [m.rename_eq hs] at hnew
      exact free y hy (hm.inj hnew hs ▸ hz)

theorem Woven.of_map (hm : g.Renumbers next m) (hrules : ∀ r ∈ rules, ∃ s, m.new? r = some s)
    (hsequence : ∀ r ∈ sequence, ∃ s, m.new? r = some s)
    (h : Woven (ignore.filterMap m.new?) (sequence.map m.rename) (rules.map m.rename)) :
    Woven ignore sequence rules := by
  induction sequence generalizing rules with
  | nil => exact absurd rfl h.sequence_ne_nil
  | cons r sequence ih =>
      obtain ⟨hr, hrest'⟩ := List.forall_mem_cons.mp hsequence
      rcases woven_cons_iff.mp h with ⟨hnil, hone⟩ | ⟨gap, rest, hall, free, hrest⟩
      · obtain ⟨x, rfl, hx⟩ := List.map_eq_singleton_iff.mp hone
        obtain rfl := List.map_eq_nil_iff.mp hnil
        obtain rfl := rename_inj hm (hrules x List.mem_cons_self) hr hx
        exact .last x
      · rw [List.cons_append] at hall
        obtain ⟨x, after, rfl, hx, hafter⟩ := List.map_eq_cons_iff.mp hall
        obtain ⟨hlive, hrules⟩ := List.forall_mem_cons.mp hrules
        obtain rfl := rename_inj hm hlive hr hx
        obtain ⟨between, after, rfl, rfl, rfl⟩ := List.map_eq_append_iff.mp hafter
        refine .step (fun y hy hin => ?_) (ih (fun y hy => hrules y (List.mem_append_right _ hy)) hrest' hrest)
        obtain ⟨s, hs⟩ := hrules y (List.mem_append_left _ hy)
        exact free (m.rename y) (List.mem_map_of_mem hy)
          (m.rename_eq hs ▸ List.mem_filterMap.mpr ⟨y, hin, hs⟩)

theorem sequenceEnds_renamed (hm : g.Renumbers next m) (hrules : ∀ r ∈ rules, ∃ s, m.new? r = some s) :
    SequenceEnds ignore sequence rules ↔ ∃ new, sequence.mapM m.new? = some new ∧
      SequenceEnds (ignore.filterMap m.new?) new (rules.map m.rename) := by
  constructor
  · rintro ⟨above, woven, rfl, h⟩
    have hwoven := fun r hr => hrules r (List.mem_append_right above hr)
    exact ⟨_, mapM_new?_eq_some.mpr ⟨fun r hr => hwoven r (h.mem r hr), rfl⟩,
      above.map m.rename, woven.map m.rename, List.map_append, h.map hm hwoven⟩
  · rintro ⟨new, hnew, above, woven, he, h⟩
    obtain ⟨hsequence, rfl⟩ := mapM_new?_eq_some.mp hnew
    obtain ⟨before, woven, rfl, rfl, rfl⟩ := List.map_eq_append_iff.mp he
    exact ⟨before, woven, rfl, .of_map hm (fun r hr => hrules r (List.mem_append_right before hr)) hsequence h⟩

end Sequences

section Occurring

variable {r s : Int} {path : Path}

theorem get?_renamed_node (hm : g.Renumbers next m) (ht : t.Survives m) (hr : m.new? r = some s) :
    (∃ ds, (t.renamed m.rename).get? path = some (.node s ds)) ↔ ∃ cs, t.get? path = some (.node r cs) := by
  rw [get?_renamed]
  constructor
  · rintro ⟨ds, hds⟩
    obtain ⟨u, hu, he⟩ := Option.map_eq_some_iff.mp hds
    cases ht.get? hu with
    | node new _ =>
        rw [renamed_node, m.rename_eq new] at he
        obtain rfl := (node.inj he).1
        exact ⟨_, hm.inj hr new ▸ hu⟩
  · rintro ⟨cs, hcs⟩
    exact ⟨cs.map (Tree.renamed m.rename), by rw [hcs, Option.map_some, renamed_node, m.rename_eq hr]⟩

end Occurring

namespace Constraint

section Kinds

variable {template : Tree} {found : Option Tree} {rule : Int}

theorem forbidden_renamed (hm : g.Renumbers next m) (h : template.renumber m = .ok found)
    (ht : t.Survives m) : (forbidden template).Holds t ↔
      ∀ new, found = some new → (forbidden new).Holds (t.renamed m.rename) := by
  obtain ⟨old, hold⟩ := hm.exists_old
  constructor
  · rintro hholds new hnew path u hu hmatch
    rw [get?_renamed] at hu
    obtain ⟨s, hs, rfl⟩ := Option.map_eq_some_iff.mp hu
    exact hholds path s hs ((carries_renumber hm hold h (ht.get? hs)).matches_iff.mpr ⟨new, hnew, hmatch⟩)
  · intro hholds path s hs hmatch
    obtain ⟨new, hnew, hmatch⟩ := (carries_renumber hm hold h (ht.get? hs)).matches_iff.mp hmatch
    exact hholds new hnew path _ (by rw [get?_renamed, hs]; rfl) hmatch

theorem containsSubtree_renamed {new : Tree} (hm : g.Renumbers next m)
    (h : template.renumber m = .ok (some new)) (ht : t.Survives m) :
    (containsSubtree template).Holds t ↔ (containsSubtree new).Holds (t.renamed m.rename) := by
  obtain ⟨old, hold⟩ := hm.exists_old
  constructor
  · rintro ⟨path, s, hs, hmatch⟩
    obtain ⟨_, ⟨⟩, hmatch⟩ := (carries_renumber hm hold h (ht.get? hs)).matches_iff.mp hmatch
    exact ⟨path, _, by rw [get?_renamed, hs]; rfl, hmatch⟩
  · rintro ⟨path, u, hu, hmatch⟩
    rw [get?_renamed] at hu
    obtain ⟨s, hs, rfl⟩ := Option.map_eq_some_iff.mp hu
    exact ⟨path, s, hs, (carries_renumber hm hold h (ht.get? hs)).matches_iff.mpr ⟨new, rfl, hmatch⟩⟩

-- The order of what the variables stand for is the order of the new indices.
theorem ordered_renamed {names : List String} (hm : g.Renumbers next m) (h : template.renumber m = .ok found)
    (hnames : ∀ name ∈ names, name ∈ template.occurrences) (ht : t.Survives m) :
    (ordered template names).Holds t ↔
      ∀ new, found = some new → (ordered new names).Holds (t.renamed m.rename) := by
  obtain ⟨old, hold⟩ := hm.exists_old
  constructor
  · rintro hholds new rfl path u value hu hmatch
    rw [get?_renamed] at hu
    obtain ⟨s, hs, rfl⟩ := Option.map_eq_some_iff.mp hu
    have hback := (carries_renumber hm hold h (ht.get? hs)).back new rfl value hmatch
    have hbound (name : String) (hname : name ∈ names) :
        ∃ v : Tree, v.Survives m ∧ v.renamed m.rename = value name := by
      refine (ht.get? hs).exists_of_matchesUnder_renamed hmatch ?_
      exact (renumber_spec hm.nonneg h).2 ▸ hnames name hname
    refine (hholds path s _ hs hback).imp_of_mem fun {a b} ha hb hab => ?_
    obtain ⟨v, hv, hva⟩ := hbound a ha
    obtain ⟨w, hw, hwb⟩ := hbound b hb
    rw [← hva, ← hwb] at hab ⊢
    rw [hv.renamed_back hold, hw.renamed_back hold] at hab
    exact (upTo_renamed hm hv hw).mpr hab
  · intro hholds path s value hs hmatch
    obtain ⟨new, hnew, hmatch'⟩ := (carries_renumber hm hold h (ht.get? hs)).there value hmatch
    have hpairs := hholds new hnew path _ _ (by rw [get?_renamed, hs]; rfl) hmatch'
    have hbound (name : String) (hname : name ∈ names) : (value name).Survives m := by
      obtain ⟨q, hq⟩ := exists_of_matchesUnder hmatch (hnames name hname)
      exact (ht.get? hs).get? hq
    refine hpairs.imp_of_mem fun {a b} ha hb hab => ?_
    exact (upTo_renamed hm (hbound a ha) (hbound b hb)).mp hab

theorem forbiddenSequence_renamed {sequence ignore : List Int} (hm : g.Renumbers next m)
    (ht : t.Survives m) : (forbiddenSequence sequence ignore).Holds t ↔
      ∀ new, sequence.mapM m.new? = some new →
        (forbiddenSequence new (ignore.filterMap m.new?)).Holds (t.renamed m.rename) := by
  constructor
  · rintro hholds new hnew path _ hrenamed hends
    obtain ⟨rules, hrules, rfl⟩ := (rulesTo_renamed ht).mp hrenamed
    exact hholds path rules hrules
      ((sequenceEnds_renamed hm (exists_new_of_rulesTo ht hrules)).mpr ⟨new, hnew, hends⟩)
  · intro hholds path rules hrules hends
    obtain ⟨new, hnew, hends⟩ := (sequenceEnds_renamed hm (exists_new_of_rulesTo ht hrules)).mp hends
    exact hholds new hnew path _ ((rulesTo_renamed ht).mpr ⟨rules, hrules, rfl⟩) hends

theorem contains_renamed {s : Int} (hm : g.Renumbers next m) (hr : m.new? rule = some s)
    (ht : t.Survives m) : (contains rule).Holds t ↔ (contains s).Holds (t.renamed m.rename) :=
  exists_congr fun _ => (get?_renamed_node hm ht hr).symm

theorem unique_renamed (hm : g.Renumbers next m) (ht : t.Survives m) : (unique rule).Holds t ↔
    ∀ s, m.new? rule = some s → (unique s).Holds (t.renamed m.rename) := by
  constructor
  · intro hholds s hr path other cs ds hcs hds
    obtain ⟨cs, hcs⟩ := (get?_renamed_node hm ht hr).mp ⟨cs, hcs⟩
    obtain ⟨ds, hds⟩ := (get?_renamed_node hm ht hr).mp ⟨ds, hds⟩
    exact hholds path other cs ds hcs hds
  · intro hholds path other cs ds hcs hds
    obtain ⟨s, hr⟩ : ∃ s, m.new? rule = some s := by
      cases ht.get? hcs with
      | node new _ => exact ⟨_, new⟩
    obtain ⟨cs, hcs⟩ := (get?_renamed_node hm ht hr).mpr ⟨cs, hcs⟩
    obtain ⟨ds, hds⟩ := (get?_renamed_node hm ht hr).mpr ⟨ds, hds⟩
    exact hholds s hr path other cs ds hcs hds

end Kinds

-- A constraint says about a tree what it says under the new indices, and nothing if it is dropped.
theorem holds_renamed (hm : g.Renumbers next m) {k : Constraint} (htame : k.Tame)
    (hroot : ∀ r, k ≠ .rootOnly r) {found : Option Constraint} (h : k.renumber m = .ok found)
    (ht : t.Survives m) : k.Holds t ↔ ∀ new, found = some new → new.Holds (t.renamed m.rename) := by
  cases k with
  | forbidden template =>
      obtain ⟨below, hbelow, h⟩ := Except.bind_eq_ok.mp h
      obtain rfl := Except.ok.inj h
      simpa using forbidden_renamed hm hbelow ht
  | contains rule =>
      cases hr : m.new? rule with
      | none => simp [renumber, hr] at h
      | some s =>
          obtain rfl : some (contains s) = found := by simpa [renumber, hr] using h
          simpa using contains_renamed hm hr ht
  | containsSubtree template =>
      obtain ⟨below, hbelow, h⟩ := Except.bind_eq_ok.mp h
      cases below with
      | none => cases h
      | some new =>
          obtain rfl := Except.ok.inj h
          simpa using containsSubtree_renamed hm hbelow ht
  | ordered template names =>
      obtain ⟨below, hbelow, h⟩ := Except.bind_eq_ok.mp h
      obtain rfl := Except.ok.inj h
      simpa using ordered_renamed hm hbelow htame.2 ht
  | forbiddenSequence sequence ignore =>
      obtain rfl := Except.ok.inj h
      have hsame : (forbiddenSequence sequence ignore).Holds t ↔ _ := forbiddenSequence_renamed hm ht
      simpa using hsame
  | unique rule =>
      obtain rfl := Except.ok.inj h
      have hsame : (unique rule).Holds t ↔ _ := unique_renamed hm ht
      simpa using hsame
  | rootOnly rule => exact absurd rfl (hroot rule)

end Constraint

end TreeSearch
