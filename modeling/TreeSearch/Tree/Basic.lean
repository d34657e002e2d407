import TreeSearch.Domain.Basic
import TreeSearch.Text.Listing

namespace TreeSearch

-- Derivation trees and the templates that are matched against them. A tree has
-- nodes with a chosen rule and holes that are still open. A template has nodes
-- too, and adds choices, which stand for any rule of a set, and variables.
inductive Tree where
  | node (rule : Int) (children : List Tree)
  | hole (category : String) (domain : Domain)
  | choice (domain : Domain) (children : List Tree)
  | var (name : String)

-- The child indices to follow from the root.
abbrev Path := List Int

namespace Tree

-- Induction over a tree, with the statement known of every child.
theorem induction {motive : Tree → Prop}
    (node : ∀ rule children, (∀ child ∈ children, motive child) → motive (.node rule children))
    (hole : ∀ category domain, motive (.hole category domain))
    (choice : ∀ domain children, (∀ child ∈ children, motive child) →
      motive (.choice domain children))
    (var : ∀ name, motive (.var name)) (tree : Tree) : motive tree :=
  @Tree.rec motive (fun children => ∀ child ∈ children, motive child) node hole choice var
    (fun _ h => nomatch h)
    (fun _ _ first rest child h => match h with
      | .head _ => first
      | .tail _ h => rest child h)
    tree

mutual

def decEq : (s t : Tree) → Decidable (s = t)
  | .node r cs, .node q ds =>
      match Int.instDecidableEq r q, decEqList cs ds with
      | isTrue hr, isTrue hc => isTrue (by rw [hr, hc])
      | isFalse hr, _ => isFalse fun h => hr (Tree.node.inj h).1
      | _, isFalse hc => isFalse fun h => hc (Tree.node.inj h).2
  | .hole c d, .hole b e =>
      if hc : c = b then
        if hd : d = e then isTrue (by rw [hc, hd])
        else isFalse fun h => hd (Tree.hole.inj h).2
      else isFalse fun h => hc (Tree.hole.inj h).1
  | .choice d cs, .choice e ds =>
      match decEqList cs ds with
      | isTrue hc =>
          if hd : d = e then isTrue (by rw [hc, hd])
          else isFalse fun h => hd (Tree.choice.inj h).1
      | isFalse hc => isFalse fun h => hc (Tree.choice.inj h).2
  | .var m, .var n =>
      if h : m = n then isTrue (by rw [h]) else isFalse fun he => h (Tree.var.inj he)
  | .node .., .hole .. | .node .., .choice .. | .node .., .var .. => isFalse nofun
  | .hole .., .node .. | .hole .., .choice .. | .hole .., .var .. => isFalse nofun
  | .choice .., .node .. | .choice .., .hole .. | .choice .., .var .. => isFalse nofun
  | .var .., .node .. | .var .., .hole .. | .var .., .choice .. => isFalse nofun

def decEqList : (ss ts : List Tree) → Decidable (ss = ts)
  | [], [] => isTrue rfl
  | s :: ss, t :: ts =>
      match decEq s t, decEqList ss ts with
      | isTrue hs, isTrue ht => isTrue (by rw [hs, ht])
      | isFalse hs, _ => isFalse fun h => hs (List.cons.inj h).1
      | _, isFalse ht => isFalse fun h => ht (List.cons.inj h).2
  | [], _ :: _ => isFalse nofun
  | _ :: _, [] => isFalse nofun

end

instance : DecidableEq Tree := decEq

-- The subtrees below a chosen rule. Only these positions belong to a tree, so
-- holes and the parts of templates have none.
def children : Tree → List Tree
  | .node _ cs => cs
  | _ => []

def child? (t : Tree) (i : Int) : Option Tree :=
  if 0 ≤ i then t.children[i.toNat]? else none

-- The rules that an open position may take.
def domain? : Tree → Option Domain
  | .hole _ d => some d
  | .choice d _ => some d
  | _ => none

-- The rule that a position certainly has.
def decided? : Tree → Option Int
  | .node r _ => some r
  | t => (t.domain?.bind Domain.sole?).map Int.ofNat

def isFilled (t : Tree) : Bool := t.decided?.isSome

-- What stands before the parts of a tree, and the parts in some kind of brackets. There
-- are no brackets around nothing.
def headed (head opening closing : String) : List String → String
  | [] => head
  | parts => Text.joined [head, opening, ",".intercalate parts, closing]

mutual

-- A rule with its children in braces, a hole with its category and rules, a choice with
-- its rules in braces and its children in parentheses.
def text : Tree → String
  | .node r cs => headed (toString r) "\x7b" "\x7d" (texts cs)
  | .hole category d => Text.joined ["hole[", category, "]", Text.rules d.rules]
  | .choice d cs =>
      headed (Text.joined ["\x7b", ",".intercalate (d.rules.map toString), "\x7d"]) "(" ")"
        (texts cs)
  | .var name => name

def texts : List Tree → List String
  | [] => []
  | t :: ts => text t :: texts ts

end

mutual

-- The names of a template's variables as they occur from left to right.
def occurrences : Tree → List String
  | .node _ cs => occurrencesIn cs
  | .choice _ cs => occurrencesIn cs
  | .var name => [name]
  | .hole .. => []

def occurrencesIn : List Tree → List String
  | [] => []
  | t :: ts => occurrences t ++ occurrencesIn ts

end

-- The variables of a template, each where it occurs first.
def variableNames (template : Tree) : List String := template.occurrences.eraseDups

end Tree

end TreeSearch
