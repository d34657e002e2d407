import TreeSearch.Grammar.Edit

namespace TreeSearch

structure Production where
  category : String
  children : List String
  weight : Option Weight
  label : Option String

structure Draft where
  categories : List String
  productions : List Production
  constraints : List Constraint

namespace Draft

def empty : Draft := ⟨[], [], []⟩

def withCategory (draft : Draft) (category : String) : Draft :=
  if category ∈ draft.categories then draft
  else { draft with categories := draft.categories ++ [category] }

def withProduction (draft : Draft) (p : Production) : Draft :=
  let draft := draft.withCategory p.category
  { draft with productions := draft.productions ++ [p] }

-- One rule without weight and label for each list of children.
def withAlternatives (draft : Draft) (category : String) (alternatives : List (List String)) :
    Draft :=
  alternatives.foldl (fun draft children => draft.withProduction ⟨category, children, none, none⟩)
    draft

def withConstraint (draft : Draft) (c : Constraint) : Draft :=
  { draft with constraints := draft.constraints ++ [c] }

def addAll (g : Grammar) : List Production → Except Fault Grammar
  | [] => .ok g
  | p :: ps => do
      let (g, _) ← g.add p.category p.children p.weight p.label
      addAll g ps

end Draft

def Grammar.attachAll (g : Grammar) : List Constraint → Except Fault Grammar
  | [] => .ok g
  | c :: cs => do
      let (g, _) ← g.attach c
      g.attachAll cs

def Draft.build (draft : Draft) : Except Fault Grammar := do
  let declared := draft.categories.foldl Grammar.declare Grammar.empty
  let filled ← Draft.addAll declared draft.productions
  filled.attachAll draft.constraints

end TreeSearch
