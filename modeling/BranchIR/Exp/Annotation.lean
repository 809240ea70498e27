import BranchIR.Exp.Basic

/-! # Changing annotations

`Exp.mapAnnM` passes every annotation through an action, in source order: a node first,
then what is below it; in a bundle each function, its parameters and its body in turn. All
else in the tree stays. -/

namespace BranchIR.Exp

variable {α β : Type} {m : Type → Type} [Monad m]

/-- Passes the annotations of parameters through an action. -/
def mapParamsM (f : α → m β) : List (Param α) → m (List (Param β))
  | [] => pure []
  | p :: ps => do return ⟨← f p.ann, p.name, p.ty⟩ :: (← mapParamsM f ps)

mutual

/-- Passes every annotation through an action. -/
def mapAnnM (f : α → m β) : Exp α → m (Exp β)
  | .var a id => do return .var (← f a) id
  | .int a value width => do return .int (← f a) value width
  | .ascribe a inner ty => do return .ascribe (← f a) (← mapAnnM f inner) ty
  | .coerce a inner ty => do return .coerce (← f a) (← mapAnnM f inner) ty
  | .prim a op args => do return .prim (← f a) op (← mapAllM f args)
  | .letIn a name ty value body => do
    return .letIn (← f a) name ty (← mapAnnM f value) (← mapAnnM f body)
  | .call a callee args => do return .call (← f a) (← mapAnnM f callee) (← mapAllM f args)
  | .caseOf a scrutinee arms => do
    return .caseOf (← f a) (← mapAnnM f scrutinee) (← mapArmsM f arms)
  | .recIn a fs body => do return .recIn (← f a) (← mapFuncsM f fs) (← mapAnnM f body)
  | .tuple a elems => do return .tuple (← f a) (← mapAllM f elems)
  | .vector a elems => do return .vector (← f a) (← mapAllM f elems)
  | .gep a base path => do return .gep (← f a) (← mapAnnM f base) (← mapPathM f path)
  | .load a base path => do return .load (← f a) (← mapAnnM f base) (← mapPathM f path)
  | .store a dest path value body => do
    return .store (← f a) (← mapAnnM f dest) (← mapPathM f path) (← mapAnnM f value)
      (← mapAnnM f body)
  | .update a base path value => do
    return .update (← f a) (← mapAnnM f base) (← mapPathM f path) (← mapAnnM f value)

/-- Passes the annotations of expressions in a list through an action. -/
def mapAllM (f : α → m β) : List (Exp α) → m (List (Exp β))
  | [] => pure []
  | e :: es => do return (← mapAnnM f e) :: (← mapAllM f es)

/-- Passes the annotations in arms through an action. -/
def mapArmsM (f : α → m β) : List (Arm (Exp α)) → m (List (Arm (Exp β)))
  | [] => pure []
  | ⟨pattern, body⟩ :: arms => do return ⟨pattern, ← mapAnnM f body⟩ :: (← mapArmsM f arms)

/-- Passes the annotations of functions, and those in them, through an action. -/
def mapFuncsM (f : α → m β) : List (Func α (Exp α)) → m (List (Func β (Exp β)))
  | [] => pure []
  | ⟨a, name, params, result, body⟩ :: fs => do
    let first := ⟨← f a, name, ← mapParamsM f params, result, ← mapAnnM f body⟩
    return first :: (← mapFuncsM f fs)

/-- Passes the annotations in the offsets of a path through an action. -/
def mapPathM (f : α → m β) : List (Step (Exp α)) → m (List (Step (Exp β)))
  | [] => pure []
  | .field n :: path => do return .field n :: (← mapPathM f path)
  | .element n :: path => do return .element n :: (← mapPathM f path)
  | .lane e :: path => do return .lane (← mapAnnM f e) :: (← mapPathM f path)
  | .index e :: path => do return .index (← mapAnnM f e) :: (← mapPathM f path)

end

/-- Replaces every annotation by its value under a function. -/
def mapAnn (f : α → β) (e : Exp α) : Exp β := Id.run (e.mapAnnM fun a => pure (f a))

/-- The annotations in the order in which they are visited. -/
def anns (e : Exp α) : List α :=
  let visit : StateM (List α) (Exp Unit) := e.mapAnnM fun a => modify (a :: ·)
  (visit.run []).2.reverse

/-- The tree with every annotation replaced by its place in the order of visits, from 0. -/
def numbered (e : Exp α) : Exp Nat :=
  let visit : StateM Nat (Exp Nat) := e.mapAnnM fun _ => modifyGet fun n => (n, n + 1)
  (visit.run 0).1

end BranchIR.Exp
