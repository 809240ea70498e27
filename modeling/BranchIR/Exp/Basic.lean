import BranchIR.Source
import BranchIR.Ty.Basic

/-! # Expressions

The tree of a program. Every node, every function of a bundle and every parameter carries
an annotation: a span when the tree has been read, a span with a type and a tail flag when
it has been checked. Variables are identities; each binder has one of its own. -/

namespace BranchIR

/-- The identity of a variable. -/
abbrev VarId := Nat

/-- The arithmetic operators. -/
inductive PrimOp where
  | add
  | sub
  | mul
  | div
  deriving DecidableEq, Repr

/-- The reserved word of an operator. -/
def PrimOp.name : PrimOp → String
  | .add => "add"
  | .sub => "sub"
  | .mul => "mul"
  | .div => "div"

/-- The operator that a reserved word names. -/
def PrimOp.ofName? (name : String) : Option PrimOp :=
  if name = "add" then some .add
  else if name = "sub" then some .sub
  else if name = "mul" then some .mul
  else if name = "div" then some .div
  else none

/-- An operation is found by its name. -/
theorem PrimOp.ofName?_name (op : PrimOp) : ofName? op.name = some op := by
  cases op <;> decide

/-- One step of an access path; `ε` is the type of offsets that are computed. -/
inductive Step (ε : Type) where
  /-- The field of a tuple, by number. -/
  | field (n : Nat)
  /-- The element of an array, by number. -/
  | element (n : Nat)
  /-- The lane of a vector, at a computed offset. -/
  | lane (offset : ε)
  /-- From a pointer to what stands at a computed offset from its target. -/
  | index (offset : ε)
  deriving DecidableEq

/-- The offset that a step computes. -/
def Step.offset? {ε : Type} : Step ε → Option ε
  | .field _ | .element _ => none
  | .lane e | .index e => some e

/-- An access path. -/
abbrev Path (ε : Type) := List (Step ε)

/-- What an arm of a case matches. -/
inductive Pattern where
  | literal (value : Int)
  | default
  deriving DecidableEq, Repr

/-- An arm of a case. -/
structure Arm (ε : Type) where
  pattern : Pattern
  body : ε
  deriving DecidableEq

/-- A parameter of a function. -/
structure Param (α : Type) where
  ann : α
  name : VarId
  ty : Ty
  deriving DecidableEq

/-- A function of a bundle; `ε` is the type of its body. -/
structure Func (α ε : Type) where
  ann : α
  name : VarId
  params : List (Param α)
  result : Ty
  body : ε
  deriving DecidableEq

/-- The type of a function where it is referred to. -/
def Func.ty {α ε : Type} (f : Func α ε) : Ty := .fn (f.params.map (·.ty)) f.result

/-- Expressions with annotations of type `α`, which come first in every form. -/
inductive Exp (α : Type) where
  | var (ann : α) (id : VarId)
  | int (ann : α) (value : Int) (width : Nat)
  /-- The inner expression, said to have the type. -/
  | ascribe (ann : α) (inner : Exp α) (ty : Ty)
  /-- The inner expression's value, taken as a value of the type without a check. -/
  | coerce (ann : α) (inner : Exp α) (ty : Ty)
  | prim (ann : α) (op : PrimOp) (args : List (Exp α))
  | letIn (ann : α) (name : VarId) (ty : Ty) (value body : Exp α)
  | call (ann : α) (callee : Exp α) (args : List (Exp α))
  | caseOf (ann : α) (scrutinee : Exp α) (arms : List (Arm (Exp α)))
  /-- A bundle of functions that may call each other, and the expression that uses them. -/
  | recIn (ann : α) (funcs : List (Func α (Exp α))) (body : Exp α)
  | tuple (ann : α) (elems : List (Exp α))
  | vector (ann : α) (elems : List (Exp α))
  /-- The address that the path leads to from a pointer. -/
  | gep (ann : α) (base : Exp α) (path : List (Step (Exp α)))
  /-- The value at that address. -/
  | load (ann : α) (base : Exp α) (path : List (Step (Exp α)))
  /-- Writes the value at that address, then goes on with the body. -/
  | store (ann : α) (dest : Exp α) (path : List (Step (Exp α))) (value body : Exp α)
  /-- The aggregate with the part at the path replaced. -/
  | update (ann : α) (base : Exp α) (path : List (Step (Exp α))) (value : Exp α)

namespace Exp

variable {α : Type}

/-- The annotation of the root. -/
def ann : Exp α → α
  | var a _ | int a _ _ | ascribe a _ _ | coerce a _ _ | prim a _ _ | letIn a _ _ _ _
  | call a _ _ | caseOf a _ _ | recIn a _ _ | tuple a _ | vector a _ | gep a _ _ | load a _ _
  | store a _ _ _ _ | update a _ _ _ => a

/-- The identity, if this is a variable. -/
def var? : Exp α → Option VarId
  | var _ id => some id
  | _ => none

/-- The functions, if this is a bundle. -/
def funcs : Exp α → List (Func α (Exp α))
  | recIn _ fs _ => fs
  | _ => []

/-- The offsets that a path computes, in order. -/
def offsets (path : List (Step (Exp α))) : List (Exp α) := path.filterMap (·.offset?)

/-- The direct subexpressions in source order, bodies of functions and offsets of paths
    included. -/
def children : Exp α → List (Exp α)
  | var .. | int .. => []
  | ascribe _ e _ | coerce _ e _ => [e]
  | prim _ _ es | tuple _ es | vector _ es => es
  | letIn _ _ _ value body => [value, body]
  | call _ callee args => callee :: args
  | caseOf _ scrutinee arms => scrutinee :: arms.map (·.body)
  | recIn _ fs body => fs.map (·.body) ++ [body]
  | gep _ base path | load _ base path => base :: offsets path
  | store _ dest path value body => dest :: (offsets path ++ [value, body])
  | update _ base path value => base :: (offsets path ++ [value])

/-- The identities that the root binds: the name of a let, or the names of a bundle's
    functions and then the parameters of each. -/
def binders : Exp α → List VarId
  | letIn _ name _ _ _ => [name]
  | recIn _ fs _ => fs.map (·.name) ++ fs.flatMap fun f => f.params.map (·.name)
  | _ => []

end Exp

/-- The annotation of a checked tree. -/
structure Checked where
  span : Span
  ty : Ty
  /-- Whether the routine around the node returns the node's value as its own. -/
  tail : Bool
  deriving DecidableEq

/-- The type of a checked expression. -/
def Exp.ty (e : Exp Checked) : Ty := e.ann.ty

end BranchIR
