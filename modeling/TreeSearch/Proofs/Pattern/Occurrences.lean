import Mathlib.Data.List.Induction
import TreeSearch.Pattern.Verdict
import TreeSearch.Proofs.Tree.Paths

namespace TreeSearch

namespace Tree

mutual

-- The variables of a template as they occur from left to right, each with the way to it.
def variablesAt : Tree → List (String × Path)
  | .node _ parts => variablesIn 0 parts
  | .choice _ parts => variablesIn 0 parts
  | .var name => [(name, [])]
  | .hole .. => []

def variablesIn (index : Nat) : List Tree → List (String × Path)
  | [] => []
  | part :: parts =>
      (variablesAt part).map (fun x => (x.1, (index : Int) :: x.2)) ++ variablesIn (index + 1) parts

end

-- Where a variable occurs first.
def firstAt? (template : Tree) (name : String) : Option Path :=
  (template.variablesAt.find? (·.1 = name)).map (·.2)

-- A variable stands for the subtrees at two positions of a tree, and for none at an earlier one.
def Repeats (template t : Tree) (first second : Path) : Prop :=
  ∃ name before between after,
    template.variablesAt = before ++ (name, first) :: (between ++ (name, second) :: after) ∧
      ∀ x ∈ before, x.1 = name → t.get? x.2 = none

variable {template t : Tree}

theorem mem_variablesIn {index : Nat} {parts : List Tree} {x : String × Path} :
    x ∈ variablesIn index parts ↔ ∃ (i : Nat) (q : Tree) (path : Path), parts[i]? = some q ∧
      (x.1, path) ∈ q.variablesAt ∧ x.2 = ((index + i : Nat) : Int) :: path := by
  induction parts generalizing index with
  | nil => simp [variablesIn]
  | cons part parts ih =>
      rw [variablesIn, List.mem_append, ih, List.mem_map]
      constructor
      · rintro (⟨y, hy, rfl⟩ | ⟨i, q, path, hq, hx, he⟩)
        · exact ⟨0, part, y.2, rfl, hy, rfl⟩
        · refine ⟨i + 1, q, path, hq, hx, ?_⟩
          rw [he, show index + 1 + i = index + (i + 1) by omega]
      · rintro ⟨i, q, path, hq, hx, he⟩
        cases i with
        | zero =>
            cases hq
            exact Or.inl ⟨(x.1, path), hx, Prod.ext rfl he.symm⟩
        | succ i =>
            refine Or.inr ⟨i, q, path, hq, hx, ?_⟩
            rw [he, show index + 1 + i = index + (i + 1) by omega]

theorem names_variablesIn (index : Nat) (parts : List Tree)
    (ih : ∀ part ∈ parts, part.variablesAt.map (·.1) = part.occurrences) :
    (variablesIn index parts).map (·.1) = occurrencesIn parts := by
  induction parts generalizing index with
  | nil => simp [variablesIn, occurrencesIn]
  | cons part parts ihp =>
      rw [variablesIn, occurrencesIn, List.map_append, List.map_map, ← ih part List.mem_cons_self,
        ihp (index + 1) fun q hq => ih q (List.mem_cons_of_mem _ hq)]
      rfl

theorem names_variablesAt (template : Tree) : template.variablesAt.map (·.1) = template.occurrences := by
  induction template using Tree.induction with
  | node r parts ih =>
      rw [variablesAt, occurrences]
      exact names_variablesIn 0 parts ih
  | choice d parts ih =>
      rw [variablesAt, occurrences]
      exact names_variablesIn 0 parts ih
  | hole => simp [variablesAt, occurrences]
  | var name => simp [variablesAt, occurrences]

-- Two positions that are compared in a tree are compared in a finer one too, or both with a
-- third one.
theorem Repeats.of_refines {first second : Path} (h : template.Repeats t first second)
    (s : Tree) : template.Repeats s first second ∨
      ∃ earlier name, (name, earlier) ∈ template.variablesAt ∧ template.Repeats s earlier first ∧
        template.Repeats s earlier second ∧ template.firstAt? name = some earlier ∧
          t.get? earlier = none ∧ 3 ≤ template.occurrences.count name := by
  obtain ⟨name, before, between, after, he, hbefore⟩ := h
  cases hfind : before.find? (·.1 = name) with
  | none =>
      refine Or.inl ⟨name, before, between, after, he, fun x hx hname => ?_⟩
      exact absurd (decide_eq_true hname) (List.find?_eq_none.mp hfind x hx)
  | some x =>
      obtain ⟨hname, left, right, rfl, hleft⟩ := List.find?_eq_some_iff_append.mp hfind
      obtain ⟨other, earlier⟩ := x
      obtain rfl : other = name := by simpa using hname
      have hnone (x : String × Path) (hx : x ∈ left) (hn : x.1 = other) : s.get? x.2 = none := by
        simpa [hn] using hleft x hx
      refine Or.inr ⟨earlier, other, by simp [he], ?_, ?_, ?_, ?_, ?_⟩
      · exact ⟨other, left, right, between ++ (other, second) :: after, by simp [he], hnone⟩
      · exact ⟨other, left, right ++ (other, first) :: between, after, by simp [he], hnone⟩
      · rw [firstAt?, he, List.find?_append, hfind]
        rfl
      · exact hbefore (other, earlier) (by simp) rfl
      · rw [← names_variablesAt, he]
        simp only [List.map_append, List.map_cons, List.count_append, List.count_cons_self]
        omega

end Tree

namespace Binding

-- The first of the bindings of each name.
def firsts (l : List Binding) : List Binding :=
  l.foldl (fun kept b => if kept.any (·.name = b.name) then kept else kept ++ [b]) []

theorem firsts_concat (l : List Binding) (b : Binding) : firsts (l ++ [b]) =
    if (firsts l).any (·.name = b.name) then firsts l else firsts l ++ [b] := by
  simp [firsts, List.foldl_append]

theorem find?_firsts (l : List Binding) (name : String) :
    (firsts l).find? (·.name = name) = l.find? (·.name = name) := by
  induction l using List.reverseRecOn with
  | nil => rfl
  | append_singleton l b ih =>
      rw [firsts_concat, List.find?_append, ← ih]
      split
      · rename_i hany
        obtain ⟨kept, hk, hname⟩ := List.any_eq_true.mp hany
        by_cases hb : b.name = name
        · cases hfind : (firsts l).find? (·.name = name) with
          | some found => rfl
          | none =>
              have := List.find?_eq_none.mp hfind kept hk
              simp_all
        · simp [hb]
      · rw [List.find?_append]

theorem find?_of_mem_firsts {l : List Binding} {b : Binding} (h : b ∈ firsts l) :
    l.find? (·.name = b.name) = some b := by
  induction l using List.reverseRecOn with
  | nil => cases h
  | append_singleton l c ih =>
      rw [firsts_concat] at h
      rw [List.find?_append]
      split at h
      · rw [ih h]
        rfl
      · rename_i hany
        rcases List.mem_append.mp h with h | h
        · rw [ih h]
          rfl
        · obtain rfl := List.mem_singleton.mp h
          have hnone : l.find? (·.name = b.name) = none := by
            rw [← find?_firsts, List.find?_eq_none]
            intro x hx hname
            exact hany (List.any_eq_true.mpr ⟨x, hx, hname⟩)
          rw [hnone]
          simp

theorem names_firsts (l : List Binding) : (firsts l).map (·.name) = (l.map (·.name)).eraseDups := by
  induction l using List.reverseRecOn with
  | nil => rfl
  | append_singleton l b ih =>
      have hany : (firsts l).any (·.name = b.name) = true ↔ b.name ∈ l.map (·.name) := by
        rw [← List.mem_eraseDups, ← ih, List.any_eq_true, List.mem_map]
        simp
      rw [firsts_concat, List.map_append, List.eraseDups_append, ← ih]
      by_cases hm : b.name ∈ l.map (·.name)
      · rw [if_pos (hany.mpr hm)]
        simp [List.removeAll, List.mem_map.mp hm]
      · have hnew : [b.name].removeAll (l.map (·.name)) = [b.name] := by
          simpa [List.removeAll] using hm
        rw [if_neg fun h => hm (hany.mp h), List.map_append, List.map_singleton, hnew]
        rfl

-- Some binding is related to the first one of its name, if another came first.
def Against (R : Tree → Tree → Prop) (seen : List Binding) : List Binding → Prop
  | [] => False
  | b :: rest => (∃ first, seen.find? (·.name = b.name) = some first ∧ R first.tree b.tree) ∨
      Against R (seen ++ [b]) rest

theorem against_append (R : Tree → Tree → Prop) (seen l rest : List Binding) :
    Against R seen (l ++ rest) ↔ Against R seen l ∨ Against R (seen ++ l) rest := by
  induction l generalizing seen with
  | nil => simp [Against]
  | cons b l ih =>
      rw [List.cons_append, Against, Against, ih, or_assoc, List.append_assoc]
      rfl

theorem against_iff {R : Tree → Tree → Prop} {seen l : List Binding} : Against R seen l ↔
    ∃ before b after, l = before ++ b :: after ∧
      ∃ first, (seen ++ before).find? (·.name = b.name) = some first ∧ R first.tree b.tree := by
  induction l generalizing seen with
  | nil => simp [Against]
  | cons c l ih =>
      rw [Against, ih]
      constructor
      · rintro (⟨first, hfirst, hR⟩ | ⟨before, b, after, rfl, first, hfirst, hR⟩)
        · exact ⟨[], c, l, rfl, first, by simpa using hfirst, hR⟩
        · exact ⟨c :: before, b, after, rfl, first, by simpa using hfirst, hR⟩
      · rintro ⟨before, b, after, he, first, hfirst, hR⟩
        cases before with
        | nil =>
            cases he
            exact Or.inl ⟨first, by simpa using hfirst, hR⟩
        | cons d before =>
            cases he
            exact Or.inr ⟨before, b, after, rfl, first, by simpa using hfirst, hR⟩

end Binding

namespace Pattern

open TreeSearch.Tree Binding

variable {whole template t : Tree} {path : Path} {vars : List (String × Path)}

-- The variables that have a subtree to stand for when a template is matched at a path of a tree.
def visible (whole : Tree) (path : Path) (vars : List (String × Path)) : List Binding :=
  vars.filterMap fun x => (whole.get? (path ++ x.2)).map (⟨x.1, path ++ x.2, ·⟩)

theorem visible_append (vars rest : List (String × Path)) :
    visible whole path (vars ++ rest) = visible whole path vars ++ visible whole path rest :=
  List.filterMap_append

theorem visible_child (i : Int) (vars : List (String × Path)) :
    visible whole path (vars.map fun x => (x.1, i :: x.2)) = visible whole (path ++ [i]) vars := by
  simp [visible, List.filterMap_map]

-- Nothing is below an open position.
theorem visible_hole {category : String} {rules : Domain} {index : Nat} {parts : List Tree}
    (h : whole.get? path = some (.hole category rules)) :
    visible whole path (variablesIn index parts) = [] := by
  apply List.filterMap_eq_nil_iff.mpr
  intro x hx
  obtain ⟨i, -, rest, -, -, he⟩ := mem_variablesIn.mp hx
  rw [he, get?_append_of_get? h, get?_cons, child?_hole]
  rfl

theorem get?_of_mem_visible {vars : List (String × Path)} {b : Binding}
    (h : b ∈ visible whole path vars) : whole.get? b.path = some b.tree := by
  obtain ⟨x, -, hx⟩ := List.mem_filterMap.mp h
  obtain ⟨s, hs, rfl⟩ := Option.map_eq_some_iff.mp hx
  exact hs

theorem visible_eq_append {l r : List Binding} {b : Binding} (h : visible t [] vars = l ++ b :: r) :
    ∃ before after, vars = before ++ (b.name, b.path) :: after ∧ visible t [] before = l ∧
      visible t [] after = r ∧ t.get? b.path = some b.tree := by
  obtain ⟨before, rest, rfl, hl, hrest⟩ := List.filterMap_eq_append_iff.mp h
  obtain ⟨skipped, ⟨name, path⟩, after, rfl, hskipped, hb, hr⟩ := List.filterMap_eq_cons_iff.mp hrest
  obtain ⟨c, hc, rfl⟩ := Option.map_eq_some_iff.mp hb
  refine ⟨before ++ skipped, after, by simp, ?_, hr, hc⟩
  have hnil : visible t [] skipped = [] := List.filterMap_eq_nil_iff.mpr hskipped
  rw [visible_append, hnil, List.append_nil]
  exact hl

theorem visible_cons {name : String} {path : Path} {c : Tree} (h : t.get? path = some c) :
    visible t [] ((name, path) :: vars) = ⟨name, path, c⟩ :: visible t [] vars := by
  simp [visible, h]

-- What the first subtrees of the variables are compared with.
theorem against_visible_iff {R : Tree → Tree → Prop} :
    Against R [] (visible t [] template.variablesAt) ↔ ∃ first second c d,
      template.Repeats t first second ∧ t.get? first = some c ∧ t.get? second = some d ∧ R c d := by
  rw [against_iff]
  constructor
  · rintro ⟨before, b, after, he, first, hfirst, hR⟩
    obtain ⟨hname, left, right, rfl, hleft⟩ := List.find?_eq_some_iff_append.mp hfirst
    obtain ⟨vars, rest, hvars, hbefore, -, hb⟩ := visible_eq_append he
    obtain ⟨vars', between, rfl, hleft', -, hc⟩ := visible_eq_append hbefore
    refine ⟨first.path, b.path, first.tree, b.tree, ⟨b.name, vars', between, rest, ?_, ?_⟩, hc, hb, hR⟩
    · rw [hvars, show first.name = b.name by simpa using hname]
      simp
    · intro x hx hn
      by_contra hsome
      obtain ⟨c, hc⟩ := Option.ne_none_iff_exists'.mp hsome
      have hmem : (⟨x.1, x.2, c⟩ : Binding) ∈ left := by
        rw [← hleft']
        exact List.mem_filterMap.mpr ⟨x, hx, by simp [hc]⟩
      simpa [hn] using hleft _ hmem
  · rintro ⟨first, second, c, d, ⟨name, before, between, after, he, hbefore⟩, hc, hd, hR⟩
    refine ⟨visible t [] before ++ ⟨name, first, c⟩ :: visible t [] between, ⟨name, second, d⟩,
      visible t [] after, ?_, ⟨name, first, c⟩, ?_, hR⟩
    · rw [he, visible_append, visible_cons hc, visible_append, visible_cons hd]
      simp
    · have hnone : (visible t [] before).find? (·.name = name) = none := by
        refine List.find?_eq_none.mpr fun b hb hname => ?_
        obtain ⟨x, hx, hb⟩ := List.mem_filterMap.mp hb
        obtain ⟨e, he, rfl⟩ := Option.map_eq_some_iff.mp hb
        have := hbefore x hx (by simpa using hname)
        cases he.symm.trans this
      simp [List.find?_append, hnone]

-- Where all variables stand for subtrees, their first positions are those in the template.
theorem firstAt?_of_find?_visible (h : ∀ x ∈ template.variablesAt, ∃ c, t.get? x.2 = some c)
    {name : String} {b : Binding}
    (hb : (visible t [] template.variablesAt).find? (·.name = name) = some b) :
    template.firstAt? name = some b.path ∧ t.get? b.path = some b.tree := by
  obtain ⟨hname, left, right, he, hleft⟩ := List.find?_eq_some_iff_append.mp hb
  obtain ⟨before, after, hvars, rfl, -, hc⟩ := visible_eq_append he
  obtain rfl : b.name = name := by simpa using hname
  refine ⟨?_, hc⟩
  have hnone : before.find? (·.1 = b.name) = none := by
    refine List.find?_eq_none.mpr fun x hx hn => ?_
    obtain ⟨c, hc⟩ := h x (by rw [hvars]; exact List.mem_append_left _ hx)
    have hmem : (⟨x.1, x.2, c⟩ : Binding) ∈ visible t [] before :=
      List.mem_filterMap.mpr ⟨x, hx, by simp [hc]⟩
    simpa [show x.1 = b.name by simpa using hn] using hleft _ hmem
  rw [firstAt?, hvars, List.find?_append, hnone]
  simp

theorem names_visible (h : ∀ x ∈ vars, ∃ c, t.get? x.2 = some c) :
    (visible t [] vars).map (·.name) = vars.map (·.1) := by
  induction vars with
  | nil => rfl
  | cons x vars ih =>
      obtain ⟨c, hc⟩ := h x List.mem_cons_self
      rw [visible_cons hc, List.map_cons, List.map_cons, ih fun y hy => h y (List.mem_cons_of_mem x hy)]

end Pattern

end TreeSearch
