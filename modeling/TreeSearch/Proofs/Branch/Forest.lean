import TreeSearch.Branch.PathForest
import TreeSearch.Proofs.Branch.Closure

namespace TreeSearch

namespace PathForest

-- The way up from a path, with its number of steps, to a root that points to itself.
inductive Leads (up : Path → Path) : Nat → Path → Path → Prop
  | root {path : Path} (still : up path = path) : Leads up 0 path path
  | step {n : Nat} {path root : Path} (moves : up path ≠ path) (rest : Leads up n (up path) root) :
      Leads up (n + 1) path root

namespace Leads

variable {up : Path → Path} {n m : Nat} {path other root r : Path}

theorem still (h : Leads up n path root) : up root = root := by
  induction h with
  | root still => exact still
  | step _ _ ih => exact ih

theorem unique (h : Leads up n path root) (h' : Leads up m path r) : n = m ∧ root = r := by
  induction h generalizing m with
  | root still =>
      cases h' with
      | root => exact ⟨rfl, rfl⟩
      | step moves => exact absurd still moves
  | step moves _ ih =>
      cases h' with
      | root still => exact absurd still moves
      | step _ rest =>
          obtain ⟨rfl, rfl⟩ := ih rest
          exact ⟨rfl, rfl⟩

-- The paths on the way are at different distances from the root, so none comes twice.
theorem exists_way (h : Leads up n path root) : ∃ way : List Path,
    way.length = n ∧ way.Nodup ∧ ∀ other ∈ way, ∃ l < n, Leads up (l + 1) other root := by
  induction h with
  | root => exact ⟨[], rfl, .nil, fun _ h => absurd h List.not_mem_nil⟩
  | @step n path root moves rest ih =>
      obtain ⟨way, hlen, hnodup, hway⟩ := ih
      have hhere : Leads up (n + 1) path root := .step moves rest
      refine ⟨path :: way, congrArg (· + 1) hlen, List.nodup_cons.mpr ⟨fun hin => ?_, hnodup⟩, ?_⟩
      · obtain ⟨l, hl, hagain⟩ := hway path hin
        have := (hhere.unique hagain).1
        omega
      · intro other ho
        rcases List.mem_cons.mp ho with rfl | ho
        · exact ⟨n, Nat.lt_succ_self n, hhere⟩
        · obtain ⟨l, hl, hother⟩ := hway other ho
          exact ⟨l, Nat.lt_succ_of_lt hl, hother⟩

-- When a path points to its root directly, every way leads where it did, and none gets longer.
theorem shortcut (h : Leads up n path root) (moves : up path ≠ path) (ho : Leads up m other r) :
    ∃ l ≤ m, Leads (Function.update up path root) l other r := by
  have hroot : root ≠ path := fun he => moves (he ▸ h.still)
  have hstill : Function.update up path root root = root := by
    rw [Function.update_of_ne hroot, h.still]
  induction ho with
  | @root other still =>
      have hne : other ≠ path := fun he => moves (he ▸ still)
      exact ⟨0, Nat.le_refl 0, .root (by rw [Function.update_of_ne hne, still])⟩
  | @step m other r moves' rest ih =>
      obtain ⟨l, hl, hrest⟩ := ih
      by_cases he : other = path
      · subst he
        obtain ⟨-, rfl⟩ := h.unique (.step moves' rest)
        have hup : Function.update up other root other = root := Function.update_self other root up
        refine ⟨1, Nat.succ_le_succ (Nat.zero_le m), .step (by rwa [hup]) ?_⟩
        rw [hup]
        exact .root hstill
      · have hup : Function.update up path root other = up other := Function.update_of_ne he root up
        refine ⟨l + 1, Nat.succ_le_succ hl, .step (by rwa [hup]) ?_⟩
        rwa [hup]

-- When one root points to another one, the ways that led to it lead on to that one.
theorem joined {child : Path} (hroot : up root = root) (hchild : up child = child) (hne : root ≠ child)
    (h : Leads up n path r) :
    ∃ l, Leads (Function.update up child root) l path (if r = child then root else r) := by
  have hstill : Function.update up child root root = root := by rw [Function.update_of_ne hne, hroot]
  induction h with
  | @root path still =>
      by_cases he : path = child
      · subst he
        have hup : Function.update up path root path = root := Function.update_self path root up
        refine ⟨1, .step (by rwa [hup]) ?_⟩
        rw [hup, if_pos rfl]
        exact .root hstill
      · rw [if_neg he]
        exact ⟨0, .root (by rw [Function.update_of_ne he, still])⟩
  | @step n path r moves _ ih =>
      obtain ⟨l, hl⟩ := ih
      have he : path ≠ child := fun he => moves (he ▸ hchild)
      have hup : Function.update up child root path = up path := Function.update_of_ne he root up
      refine ⟨l + 1, .step (by rwa [hup]) ?_⟩
      rwa [hup]

end Leads

section Ways

variable {parents : Table Path Path} {n : Nat} {path root : Path}

theorem parent_set (parents : Table Path Path) (path root : Path) :
    parent (parents.set path root) = Function.update (parent parents) path root := by
  funext other
  rw [parent, Table.get?_set, Function.update_apply]
  split
  · rfl
  · rfl

theorem get?_of_moves (h : parent parents path ≠ path) : parents.get? path = some (parent parents path) := by
  unfold parent at h ⊢
  cases hp : parents.get? path with
  | none => simp [hp] at h
  | some next => rfl

theorem parent_setDefault (parents : Table Path Path) (path : Path) :
    parent (parents.setDefault path path) = parent parents := by
  funext other
  rw [parent, Table.get?_setDefault]
  split
  · next he => rw [he, Option.getD_some, parent]
  · rfl

-- Every path on the way has an entry.
theorem Leads.le_size (h : Leads (parent parents) n path root) : n ≤ parents.size := by
  obtain ⟨way, rfl, hnodup, hway⟩ := h.exists_way
  have hkeys : way ⊆ parents.keys := by
    intro other ho
    obtain ⟨l, -, hother⟩ := hway other ho
    cases hother with
    | step moves => exact Table.mem_keys.mpr ⟨_, get?_of_moves moves⟩
  calc way.length ≤ parents.keys.length := hnodup.length_le_of_subset hkeys
    _ = parents.size := List.length_map _

theorem climb_eq_some {steps : Nat} :
    climb parents steps path = some root ↔ ∃ n < steps, Leads (parent parents) n path root := by
  induction steps generalizing path with
  | zero => exact iff_of_false (Option.some_ne_none root).symm fun ⟨n, hn, _⟩ => Nat.not_lt_zero n hn
  | succ steps ih =>
      rw [climb]
      split
      · next still =>
          rw [Option.some.injEq]
          constructor
          · rintro rfl
            exact ⟨0, Nat.succ_pos steps, .root still⟩
          · rintro ⟨n, -, hn⟩
            exact (Leads.root still).unique hn |>.2
      · next moves =>
          rw [ih]
          constructor
          · rintro ⟨n, hn, rest⟩
            exact ⟨n + 1, Nat.succ_lt_succ hn, .step moves rest⟩
          · rintro ⟨n, hn, h⟩
            cases h with
            | root still => exact absurd still moves
            | step _ rest => exact ⟨_, Nat.lt_of_succ_lt_succ hn, rest⟩

-- The limit is no restriction: a path has a top whenever its way has an end.
theorem top_eq_some : top parents path = some root ↔ ∃ n, Leads (parent parents) n path root := by
  rw [top, climb_eq_some]
  exact ⟨fun ⟨n, _, h⟩ => ⟨n, h⟩, fun ⟨n, h⟩ => ⟨n, Nat.lt_succ_of_le h.le_size, h⟩⟩

-- Shortening a way ends, and leaves all ways leading where they did.
theorem Leads.shorten_eq {steps : Nat} (h : Leads (parent parents) n path root) (hn : n < steps) :
    ∃ next, shorten root steps parents path = some next ∧
      ∀ m other r, Leads (parent parents) m other r → ∃ l ≤ m, Leads (parent next) l other r := by
  induction steps generalizing n parents path with
  | zero => exact absurd hn (Nat.not_lt_zero n)
  | succ steps ih =>
      rw [shorten]
      by_cases he : path = root
      · rw [if_pos he]
        exact ⟨parents, rfl, fun m other r ho => ⟨m, Nat.le_refl m, ho⟩⟩
      · cases h with
        | root => exact absurd rfl he
        | @step n _ _ moves rest =>
            rw [if_neg he, get?_of_moves moves]
            have hshort {m : Nat} {other r : Path} (ho : Leads (parent parents) m other r) :
                ∃ l ≤ m, Leads (parent (parents.set path root)) l other r := by
              rw [parent_set]
              exact Leads.shortcut (.step moves rest) moves ho
            obtain ⟨l, hl, hrest⟩ := hshort rest
            obtain ⟨next, hnext, hkept⟩ := ih hrest (Nat.lt_of_le_of_lt hl (Nat.lt_of_succ_lt_succ hn))
            refine ⟨next, hnext, fun m other r ho => ?_⟩
            obtain ⟨k, hk, hshortened⟩ := hshort ho
            obtain ⟨i, hi, hlast⟩ := hkept k other r hshortened
            exact ⟨i, Nat.le_trans hi hk, hlast⟩

theorem Leads.compress_eq (h : Leads (parent parents) n path root) :
    ∃ next, compress root parents path = some next ∧
      ∀ m other r, Leads (parent parents) m other r → ∃ l ≤ m, Leads (parent next) l other r :=
  h.shorten_eq (Nat.lt_succ_of_le h.le_size)

end Ways

-- A forest that stands for classes: its lists are the classes, each kept at its first member, and
-- the way up from a path leads to the first member of its class.
structure Represents (f : PathForest) (c : PathClasses) : Prop where
  listed : f.members.values.Perm c.classes
  first : ∀ e ∈ f.members.entries, e.2.head? = some e.1
  leads : ∀ path, ∃ n, Leads (parent f.parents) n path (c.representative path)

end PathForest

namespace PathClasses

variable {c : PathClasses} {path root : Path} {k : List Path}

theorem representative_of_head? (hk : c.members path = k) (hr : k.head? = some root) :
    c.representative path = root := by
  rw [representative, hk, hr, Option.getD_some]

theorem representative_mem (c : PathClasses) (path : Path) : c.representative path ∈ c.members path := by
  cases hm : c.members path with
  | nil => exact absurd (c.mem_members_self path) (by rw [hm]; exact List.not_mem_nil)
  | cons q rest =>
      rw [representative_of_head? hm rfl]
      exact List.mem_cons_self

theorem head?_append (c : PathClasses) {path : Path} {rest : List Path} :
    (c.members path ++ rest).head? = some (c.representative path) := by
  cases hm : c.members path with
  | nil => exact absurd (c.mem_members_self path) (by rw [hm]; exact List.not_mem_nil)
  | cons q _ =>
      rw [representative_of_head? hm rfl]
      rfl

-- A path is in the class that has its representative in front.
theorem Proper.mem_iff_representative_eq (hc : c.Proper) (hk : k ∈ c.classes) (hr : k.head? = some root) :
    path ∈ k ↔ c.representative path = root := by
  constructor
  · intro hp
    exact representative_of_head? (hc.members_eq hk hp) hr
  · rintro rfl
    have hmem := hc.members_of_mem (c.representative_mem path)
    rw [hc.members_eq hk (List.mem_of_head? hr)] at hmem
    rw [hmem]
    exact c.mem_members_self path

theorem Proper.representative_eq_iff (hc : c.Proper) {first second : Path} :
    c.representative first = c.representative second ↔ second ∈ c.members first := by
  rw [← hc.same_iff, same, decide_eq_true_iff]

-- The paths of a merged class get one representative, and the other paths keep theirs.
theorem Proper.representative_merged {p q : Path} {merged : List Path} (hc : c.Proper)
    (hmem : ∀ path, path ∈ merged ↔ path ∈ c.members p ∨ path ∈ c.members q)
    (hu : Proper ⟨merged :: c.classes.filter fun k => p ∉ k ∧ q ∉ k⟩) (hr : merged.head? = some root)
    (path : Path) :
    representative ⟨merged :: c.classes.filter fun k => p ∉ k ∧ q ∉ k⟩ path =
      if path ∈ merged then root else c.representative path := by
  split
  · next hp => exact representative_of_head? (hu.members_eq List.mem_cons_self hp) hr
  · next hp =>
      have hsame : members ⟨merged :: c.classes.filter fun k => p ∉ k ∧ q ∉ k⟩ path = c.members path := by
        rcases c.members_eq_or path with ⟨k, hk, hpk, he⟩ | ⟨hnone, he⟩
        · have hout {r : Path} (hr : path ∉ c.members r) : r ∉ k := fun hrk =>
            hr (by rwa [hc.members_eq hk hrk])
          have hkept : k ∈ c.classes.filter fun k => p ∉ k ∧ q ∉ k := by
            refine List.mem_filter.mpr ⟨hk, ?_⟩
            rw [decide_eq_true_iff]
            exact ⟨hout fun h => hp ((hmem path).mpr (Or.inl h)), hout fun h => hp ((hmem path).mpr (Or.inr h))⟩
          rw [he, hu.members_eq (List.mem_cons_of_mem merged hkept) hpk]
        · rw [he]
          rcases members_eq_or ⟨merged :: c.classes.filter fun k => p ∉ k ∧ q ∉ k⟩ path with
            ⟨k, hk, hpk, -⟩ | ⟨-, he'⟩
          · rcases List.mem_cons.mp hk with rfl | hk
            · exact absurd hpk hp
            · exact absurd hpk (hnone k (List.mem_filter.mp hk).1)
          · exact he'
      rw [representative, representative, hsame]

-- Where two classes merge, the paths of the second one get the representative of the first.
theorem Proper.representative_redirected {p q : Path} {merged : List Path} (hc : c.Proper)
    (hne : c.representative p ≠ c.representative q)
    (hmem : ∀ path, path ∈ merged ↔ path ∈ c.members p ∨ path ∈ c.members q) (path : Path) :
    (if path ∈ merged then c.representative p else c.representative path) =
      if c.representative path = c.representative q then c.representative p else c.representative path := by
  by_cases hpath : path ∈ merged
  · rw [if_pos hpath]
    rcases (hmem path).mp hpath with hm | hm
    · rw [← hc.representative_eq_iff.mpr hm, if_neg hne]
    · rw [← hc.representative_eq_iff.mpr hm, if_pos rfl]
  · have hother : c.representative path ≠ c.representative q := fun he =>
      hpath ((hmem path).mpr (Or.inr (hc.representative_eq_iff.mp he.symm)))
    rw [if_neg hpath, if_neg hother]

end PathClasses

namespace PathForest

variable {f : PathForest} {c : PathClasses} {path root child p q : Path} {k merged : List Path}

namespace Represents

theorem empty : Represents .empty .empty :=
  ⟨.refl [], nofun, fun _ => ⟨0, .root rfl⟩⟩

theorem size_eq (h : f.Represents c) : f.size = c.size := by
  rw [PathClasses.size, ← h.listed.length_eq, Table.values, List.length_map]
  rfl

theorem mem_classes (h : f.Represents c) {e : Path × List Path} (he : e ∈ f.members.entries) :
    e.2 ∈ c.classes :=
  h.listed.mem_iff.mp (List.mem_map_of_mem he)

theorem get?_eq_some (h : f.Represents c) :
    f.members.get? root = some k ↔ k ∈ c.classes ∧ k.head? = some root := by
  rw [Table.get?_eq_some]
  constructor
  · exact fun he => ⟨h.mem_classes he, h.first _ he⟩
  · rintro ⟨hk, hr⟩
    obtain ⟨e, he, rfl⟩ := List.mem_map.mp (h.listed.mem_iff.mpr hk)
    obtain rfl : e.1 = root := Option.some.inj ((h.first e he).symm.trans hr)
    exact he

-- The list at a root has the members of its class. Without a list, a path is alone.
theorem get?_representative (h : f.Represents c) (path : Path) :
    f.members.get? (c.representative path) = some (c.members path) ∨
      f.members.get? (c.representative path) = none ∧ c.members path = [path] ∧
        c.representative path = path := by
  rcases c.members_eq_or path with ⟨k, hk, hp, he⟩ | ⟨hnone, he⟩
  · have hne : k.head? ≠ none := fun h => List.ne_nil_of_mem hp (List.head?_eq_none_iff.mp h)
    obtain ⟨root, hr⟩ := Option.ne_none_iff_exists'.mp hne
    rw [PathClasses.representative_of_head? he hr, he]
    exact Or.inl (h.get?_eq_some.mpr ⟨hk, hr⟩)
  · have hrep : c.representative path = path := PathClasses.representative_of_head? he rfl
    refine Or.inr ⟨?_, he, hrep⟩
    rw [hrep, Option.eq_none_iff_forall_ne_some]
    intro k hk
    obtain ⟨hk, hr⟩ := h.get?_eq_some.mp hk
    exact hnone k hk (List.mem_of_head? hr)

theorem membersAt_eq (h : f.Represents c) (path : Path) :
    f.membersAt (c.representative path) = c.members path := by
  unfold membersAt
  rcases h.get?_representative path with he | ⟨he, hm, hr⟩
  · rw [he, Option.getD_some]
  · rw [he, Option.getD_none, hm, hr]

theorem find_eq (h : f.Represents c) (path : Path) :
    ∃ next, f.find path = some (c.representative path, next) ∧ next.Represents c := by
  obtain ⟨n, hn⟩ := h.leads path
  obtain ⟨parents, hcompress, hkept⟩ := hn.compress_eq
  refine ⟨{ f with parents }, ?_, h.listed, h.first, fun other => ?_⟩
  · rw [find, top_eq_some.mpr ⟨n, hn⟩, Option.bind_eq_bind, Option.bind_some, hcompress]
    rfl
  · obtain ⟨m, hm⟩ := h.leads other
    obtain ⟨l, -, hl⟩ := hkept m other _ hm
    exact ⟨l, hl⟩

theorem same_eq (h : f.Represents c) (first second : Path) :
    ∃ next, f.same first second = some (c.same first second, next) ∧ next.Represents c := by
  obtain ⟨g, hg, hgc⟩ := h.find_eq first
  obtain ⟨next, hnext, hnc⟩ := hgc.find_eq second
  refine ⟨next, ?_, hnc⟩
  simp only [same, hg, hnext, Option.bind_eq_bind, Option.bind_some]
  rfl

theorem listed_eq (h : f.Represents c) (path : Path) :
    ∃ next, f.listed path = some (c.members path, next) ∧ next.Represents c := by
  obtain ⟨next, hnext, hnc⟩ := h.find_eq path
  refine ⟨next, ?_, hnc⟩
  simp only [PathForest.listed, hnext, Option.bind_eq_bind, Option.bind_some]
  rcases hnc.get?_representative path with he | ⟨he, hm, -⟩
  · rw [he]
    rfl
  · rw [he, hm]
    rfl

theorem parent_hang :
    parent (f.hang root child merged).parents = Function.update (parent f.parents) child root := by
  rw [hang, parent_set, parent_setDefault]

-- The two classes go, and the one that they make is entered last.
theorem entries_hang (h : f.Represents c) (hc : c.Proper) (hne : c.representative p ≠ c.representative q) :
    (f.hang (c.representative p) (c.representative q) merged).members.entries =
      (f.members.entries.filter fun e => p ∉ e.2 ∧ q ∉ e.2) ++ [(c.representative p, merged)] := by
  have hkey {e : Path × List Path} (he : e ∈ f.members.entries) (path : Path) :
      path ∈ e.2 ↔ c.representative path = e.1 :=
    hc.mem_iff_representative_eq (h.mem_classes he) (h.first e he)
  have hnew : c.representative p ∉
      ((f.members.erase (c.representative p)).erase (c.representative q)).keys := by
    rw [← Table.get?_eq_none, Table.get?_erase, if_neg hne, Table.get?_erase, if_pos rfl]
  refine (Table.entries_set_of_not_mem hnew).trans (congrArg (· ++ _) ?_)
  show (f.members.entries.filter _).filter _ = _
  rw [List.filter_filter]
  refine List.filter_congr fun e he => ?_
  simp [hkey he, eq_comm, Bool.and_comm]

-- Below the root of one class, the root of another one brings its class along.
theorem hang (h : f.Represents c) (hc : c.Proper) (hne : c.representative p ≠ c.representative q)
    (hmem : ∀ path, path ∈ merged ↔ path ∈ c.members p ∨ path ∈ c.members q)
    (hhead : merged.head? = some (c.representative p))
    (hu : PathClasses.Proper ⟨merged :: c.classes.filter fun k => p ∉ k ∧ q ∉ k⟩) :
    (f.hang (c.representative p) (c.representative q) merged).Represents
      ⟨merged :: c.classes.filter fun k => p ∉ k ∧ q ∉ k⟩ := by
  constructor
  · have hlisted := (h.listed.filter fun k => p ∉ k ∧ q ∉ k).append_right [merged]
    rw [Table.values, List.filter_map] at hlisted
    rw [Table.values, h.entries_hang hc hne, List.map_append]
    exact hlisted.trans List.perm_append_comm
  · intro e he
    rw [h.entries_hang hc hne] at he
    rcases List.mem_append.mp he with he | he
    · exact h.first e (List.mem_filter.mp he).1
    · obtain rfl := List.mem_singleton.mp he
      exact hhead
  · intro path
    obtain ⟨n, hn⟩ := h.leads path
    obtain ⟨_, hp⟩ := h.leads p
    obtain ⟨_, hq⟩ := h.leads q
    obtain ⟨l, hl⟩ := hn.joined hp.still hq.still hne
    refine ⟨l, ?_⟩
    rw [parent_hang, hc.representative_merged hmem hu hhead, hc.representative_redirected hne hmem]
    exact hl

theorem unite_eq (h : f.Represents c) (hc : c.Proper) (first second : Path) :
    ∃ next, f.unite first second = some (!c.same first second, next) ∧
      next.Represents (c.unite first second) := by
  obtain ⟨g, hg, hgc⟩ := h.find_eq first
  obtain ⟨f', hf, hfc⟩ := hgc.find_eq second
  simp only [unite, hg, hf, Option.bind_eq_bind, Option.bind_some, hfc.membersAt_eq]
  by_cases hsame : c.representative first = c.representative second
  · have hs : c.same first second = true := decide_eq_true hsame
    rw [if_pos hsame, hs, PathClasses.unite, if_pos hs]
    exact ⟨f', rfl, hfc⟩
  · have hs : c.same first second = false := decide_eq_false hsame
    have hu := hc.unite first second
    have hunite : c.unite first second =
        ⟨(if (c.members first).length < (c.members second).length then c.members second ++ c.members first
          else c.members first ++ c.members second) :: c.classes.filter fun k => first ∉ k ∧ second ∉ k⟩ :=
      if_neg (by rw [hs]; exact Bool.false_ne_true)
    rw [hunite] at hu ⊢
    rw [if_neg hsame, hs]
    by_cases hlarger : (c.members first).length < (c.members second).length
    · rw [if_pos hlarger] at hu ⊢
      have hcomm : (c.classes.filter fun k => first ∉ k ∧ second ∉ k) =
          c.classes.filter fun k => second ∉ k ∧ first ∉ k := by
        simp only [and_comm]
      rw [hcomm] at hu ⊢
      rw [if_pos hlarger]
      exact ⟨_, rfl, hfc.hang hc (Ne.symm hsame) (by simp) c.head?_append hu⟩
    · rw [if_neg hlarger] at hu ⊢
      rw [if_neg hlarger]
      exact ⟨_, rfl, hfc.hang hc hsame (by simp) c.head?_append hu⟩

end Represents

-- The forests that arise, with the pairs that were united, the latest one first. A copy goes on
-- from the same pairs as its original, and so does the original.
inductive Arises : List (Path × Path) → PathForest → Prop
  | empty : Arises [] .empty
  | unite {pairs : List (Path × Path)} {f next : PathForest} {first second : Path} {new : Bool}
      (h : Arises pairs f) (done : f.unite first second = some (new, next)) :
      Arises ((first, second) :: pairs) next
  | find {pairs : List (Path × Path)} {f next : PathForest} {path root : Path} (h : Arises pairs f)
      (done : f.find path = some (root, next)) : Arises pairs next
  | same {pairs : List (Path × Path)} {f next : PathForest} {first second : Path} {answer : Bool}
      (h : Arises pairs f) (done : f.same first second = some (answer, next)) : Arises pairs next
  | listed {pairs : List (Path × Path)} {f next : PathForest} {path : Path} {members : List Path}
      (h : Arises pairs f) (done : f.listed path = some (members, next)) : Arises pairs next
  | copy {pairs : List (Path × Path)} {f : PathForest} (h : Arises pairs f) : Arises pairs f.copy

namespace Arises

open PathClasses

variable {pairs : List (Path × Path)}

theorem represents (h : Arises pairs f) : f.Represents (united pairs) := by
  have hnext {α : Type} {a : α} {c : PathClasses} {next : PathForest} {found : Option (α × PathForest)}
      (hfound : ∃ next, found = some (a, next) ∧ next.Represents c) {b : α} (done : found = some (b, next)) :
      next.Represents c := by
    obtain ⟨_, hf, hc⟩ := hfound
    obtain ⟨-, rfl⟩ := Prod.mk.inj (Option.some.inj (hf.symm.trans done))
    exact hc
  induction h with
  | empty => exact .empty
  | unite _ done ih => exact hnext (ih.unite_eq (Closes.united _).proper _ _) done
  | find _ done ih => exact hnext (ih.find_eq _) done
  | same _ done ih => exact hnext (ih.same_eq _ _) done
  | listed _ done ih => exact hnext (ih.listed_eq _) done
  | copy _ ih => exact ih

-- Every request has a result. A path is found to be together with its representative, and two
-- paths are the same, are listed together and are not united any more if and only if the pairs
-- make them equivalent. The size is the number of the classes with several members.
theorem computes_closure (h : Arises pairs f) :
    (∀ path, ∃ root next, f.find path = some (root, next) ∧ closure pairs path root) ∧
    (∀ first second, ∃ answer next, f.same first second = some (answer, next) ∧
      (answer = true ↔ closure pairs first second)) ∧
    (∀ path, ∃ members next, f.listed path = some (members, next) ∧ path ∈ members ∧ members.Nodup ∧
      ∀ other, other ∈ members ↔ closure pairs path other) ∧
    (∀ first second, ∃ new next, f.unite first second = some (new, next) ∧
      (new = true ↔ ¬ closure pairs first second)) ∧
    {k ∈ (closure pairs).classes | k.Nontrivial}.encard = f.size := by
  have hc := Closes.united pairs
  have hsame (first second : Path) : (united pairs).same first second = true ↔ closure pairs first second :=
    hc.proper.same_iff.trans (hc.mem_members first second)
  refine ⟨fun path => ?_, fun first second => ?_, fun path => ?_, fun first second => ?_, ?_⟩
  · obtain ⟨next, hfind, -⟩ := h.represents.find_eq path
    exact ⟨_, next, hfind, (hc.mem_members path _).mp (representative_mem _ path)⟩
  · obtain ⟨next, hanswer, -⟩ := h.represents.same_eq first second
    exact ⟨_, next, hanswer, hsame first second⟩
  · obtain ⟨next, hlisted, -⟩ := h.represents.listed_eq path
    exact ⟨_, next, hlisted, mem_members_self _ path, hc.nodup_members path, hc.mem_members path⟩
  · obtain ⟨next, hunite, -⟩ := h.represents.unite_eq hc.proper first second
    refine ⟨_, next, hunite, ?_⟩
    rw [← hsame, Bool.not_eq_true', Bool.not_eq_true]
  · rw [h.represents.size_eq, hc.encard_classes]

end Arises

-- Two pairs and then two of their members were united.
def fourPairs : List (Path × Path) := [([1], [3]), ([2], [3]), ([0], [1])]

def two : PathForest := ⟨⟨[([0], [0]), ([1], [0])], by decide⟩, ⟨[([0], [[0], [1]])], by decide⟩⟩

def twoAndTwo : PathForest :=
  ⟨⟨[([0], [0]), ([1], [0]), ([2], [2]), ([3], [2])], by decide⟩,
    ⟨[([0], [[0], [1]]), ([2], [[2], [3]])], by decide⟩⟩

-- The last path points to its old root, which points to the root of all.
def four : PathForest :=
  ⟨⟨[([0], [0]), ([1], [0]), ([2], [0]), ([3], [2])], by decide⟩, ⟨[([0], [[0], [1], [2], [3]])], by decide⟩⟩

def fourShort : PathForest :=
  ⟨⟨[([0], [0]), ([1], [0]), ([2], [0]), ([3], [0])], by decide⟩, ⟨[([0], [[0], [1], [2], [3]])], by decide⟩⟩

theorem arises_four : Arises fourPairs four := by
  have htwo : PathForest.empty.unite [0] [1] = some (true, two) := rfl
  have htwoAndTwo : two.unite [2] [3] = some (true, twoAndTwo) := rfl
  have hfour : twoAndTwo.unite [1] [3] = some (true, four) := rfl
  exact .unite (.unite (.unite .empty htwo) htwoAndTwo) hfour

theorem computes_closure_four : Arises fourPairs four ∧
    four.same [0] [3] = some (true, fourShort) ∧ PathClasses.closure fourPairs [0] [3] ∧
    four.same [0] [4] = some (false, four) ∧ ¬ PathClasses.closure fourPairs [0] [4] ∧
    {k ∈ (PathClasses.closure fourPairs).classes | k.Nontrivial}.encard = 1 := by
  obtain ⟨-, hsame, -, -, hsize⟩ := arises_four.computes_closure
  have htogether : four.same [0] [3] = some (true, fourShort) := rfl
  have hapart : four.same [0] [4] = some (false, four) := rfl
  obtain ⟨_, _, hanswer, hiff⟩ := hsame [0] [3]
  obtain ⟨_, _, hanswer', hiff'⟩ := hsame [0] [4]
  obtain ⟨rfl, -⟩ := Prod.mk.inj (Option.some.inj (htogether.symm.trans hanswer))
  obtain ⟨rfl, -⟩ := Prod.mk.inj (Option.some.inj (hapart.symm.trans hanswer'))
  exact ⟨arises_four, htogether, hiff.mp rfl, hapart, fun h => Bool.false_ne_true (hiff'.mpr h), hsize⟩

end PathForest

end TreeSearch
