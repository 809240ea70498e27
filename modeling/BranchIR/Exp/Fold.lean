import BranchIR.Exp.Basic

/-! # Folding an expression

`Exp.fold f` gives every node a value from the node itself and the values of its direct
subexpressions in source order; `fold_eq` is that description as an equation. The nodes of
a tree in preorder are one such fold. -/

namespace BranchIR.Exp

variable {α β : Type}

mutual

/-- The value of the root from the values of its direct subexpressions. -/
def fold (f : Exp α → List β → β) : Exp α → β
  | e@(.var ..) | e@(.int ..) => f e []
  | e@(.ascribe _ inner _) | e@(.coerce _ inner _) => f e [fold f inner]
  | e@(.prim _ _ es) | e@(.tuple _ es) | e@(.vector _ es) => f e (foldAll f es)
  | e@(.letIn _ _ _ value body) => f e [fold f value, fold f body]
  | e@(.call _ callee args) => f e (fold f callee :: foldAll f args)
  | e@(.caseOf _ scrutinee arms) => f e (fold f scrutinee :: foldArms f arms)
  | e@(.recIn _ fs body) => f e (foldFuncs f fs ++ [fold f body])
  | e@(.gep _ base path) | e@(.load _ base path) => f e (fold f base :: foldPath f path)
  | e@(.store _ dest path value body) =>
    f e (fold f dest :: (foldPath f path ++ [fold f value, fold f body]))
  | e@(.update _ base path value) => f e (fold f base :: (foldPath f path ++ [fold f value]))

/-- The values of expressions in a list. -/
def foldAll (f : Exp α → List β → β) : List (Exp α) → List β
  | [] => []
  | e :: es => fold f e :: foldAll f es

/-- The values of the bodies of arms. -/
def foldArms (f : Exp α → List β → β) : List (Arm (Exp α)) → List β
  | [] => []
  | ⟨_, body⟩ :: arms => fold f body :: foldArms f arms

/-- The values of the bodies of functions. -/
def foldFuncs (f : Exp α → List β → β) : List (Func α (Exp α)) → List β
  | [] => []
  | ⟨_, _, _, _, body⟩ :: fs => fold f body :: foldFuncs f fs

/-- The values of the offsets that a path computes. -/
def foldPath (f : Exp α → List β → β) : List (Step (Exp α)) → List β
  | [] => []
  | .field _ :: path | .element _ :: path => foldPath f path
  | .lane e :: path | .index e :: path => fold f e :: foldPath f path

end

/-- The fold of a list is made of the folds of its expressions. -/
theorem foldAll_eq_map (f : Exp α → List β → β) (es : List (Exp α)) :
    foldAll f es = es.map (fold f) := by
  induction es with
  | nil => rfl
  | cons e es ih => rw [foldAll, ih, List.map_cons]

/-- The fold of arms is made of the folds of their bodies. -/
theorem foldArms_eq_map (f : Exp α → List β → β) (arms : List (Arm (Exp α))) :
    foldArms f arms = arms.map fun arm => fold f arm.body := by
  induction arms with
  | nil => rfl
  | cons arm arms ih => rw [foldArms, ih, List.map_cons]

/-- The fold of functions is made of the folds of their bodies. -/
theorem foldFuncs_eq_map (f : Exp α → List β → β) (fs : List (Func α (Exp α))) :
    foldFuncs f fs = fs.map fun g => fold f g.body := by
  induction fs with
  | nil => rfl
  | cons g fs ih => rw [foldFuncs, ih, List.map_cons]

/-- The fold of a path is made of the folds of its computed offsets. -/
theorem foldPath_eq_map (f : Exp α → List β → β) (path : List (Step (Exp α))) :
    foldPath f path = (offsets path).map (fold f) := by
  induction path with
  | nil => rfl
  | cons step path ih => cases step <;> simp [foldPath, offsets, Step.offset?, ih]

/-- Folding gives a node the value made of its children's values. -/
theorem fold_eq (f : Exp α → List β → β) (e : Exp α) :
    fold f e = f e (e.children.map (fold f)) := by
  cases e <;>
    simp [fold, children, foldAll_eq_map, foldArms_eq_map, foldFuncs_eq_map, foldPath_eq_map,
      Function.comp_def]

/-- The nodes of the tree, each before its direct subexpressions in source order. -/
def preorder (e : Exp α) : List (Exp α) := fold (fun node below => node :: below.flatten) e

/-- A node comes first, then its parts, each with all that is below it. -/
theorem preorder_eq (e : Exp α) : e.preorder = e :: e.children.flatMap preorder := by
  rw [preorder, fold_eq, List.flatMap_def]
  rfl

end BranchIR.Exp
