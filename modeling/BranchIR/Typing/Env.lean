import BranchIR.Exp.Basic

/-! # Environments

What an expression can see: the binding of each identity in scope, and whether the
expression stands in tail position. Extending an environment gives a new one. -/

namespace BranchIR

/-- What is known of an identity. -/
structure Binding where
  ty : Ty
  /-- Whether uses have to be jumps. No declaration says so: that is found out later, from
      the whole program. -/
  branchTarget : Bool := false
  deriving DecidableEq

/-- The bindings in scope, and whether the place is in tail position. -/
structure Env where
  find? : VarId → Option Binding
  tail : Bool

namespace Env

/-- Nothing in scope. -/
def empty (tail : Bool) : Env := ⟨fun _ => none, tail⟩

/-- Adds a binding. It hides an older one of the same identity. -/
def declare (env : Env) (id : VarId) (ty : Ty) : Env :=
  { env with find? := fun x => if x = id then some { ty := ty } else env.find? x }

/-- Adds bindings from left to right. -/
def declareAll (env : Env) (bindings : List (VarId × Ty)) : Env :=
  bindings.foldl (fun env (id, ty) => env.declare id ty) env

/-- The same bindings, in tail position or not. -/
def withTail (env : Env) (tail : Bool) : Env := { env with tail := tail }

/-- The environment of a part whose value is still used. -/
def operand (env : Env) : Env := env.withTail false

/-- The innermost declaration of an identity is found. -/
@[simp] theorem find?_declare_self (env : Env) (id : VarId) (ty : Ty) :
    (env.declare id ty).find? id = some { ty := ty } := by
  simp [declare]

/-- A declaration hides no other identity. -/
theorem find?_declare_of_ne (env : Env) {id other : VarId} (ty : Ty) (h : other ≠ id) :
    (env.declare id ty).find? other = env.find? other := by
  simp [declare, h]

@[simp] theorem tail_declare (env : Env) (id : VarId) (ty : Ty) :
    (env.declare id ty).tail = env.tail := rfl

/-- Declarations do not touch the tail flag. -/
@[simp] theorem tail_declareAll (env : Env) (bindings : List (VarId × Ty)) :
    (env.declareAll bindings).tail = env.tail := by
  unfold declareAll
  induction bindings generalizing env with
  | nil => rfl
  | cons b bs ih => simp [ih]

/-- Declarations are made one after the other. -/
theorem declareAll_append (env : Env) (bindings later : List (VarId × Ty)) :
    env.declareAll (bindings ++ later) = (env.declareAll bindings).declareAll later :=
  List.foldl_append

/-- Whether the place is in tail position has no part in what is bound. -/
theorem declareAll_withTail (env : Env) (tail : Bool) (bindings : List (VarId × Ty)) :
    (env.withTail tail).declareAll bindings = (env.declareAll bindings).withTail tail := by
  induction bindings generalizing env with
  | nil => rfl
  | cons b bs ih => exact ih (env.declare b.1 b.2)

@[simp] theorem withTail_withTail (env : Env) (tail later : Bool) :
    (env.withTail tail).withTail later = env.withTail later := rfl

@[simp] theorem withTail_tail (env : Env) : env.withTail env.tail = env := rfl

end Env

end BranchIR
