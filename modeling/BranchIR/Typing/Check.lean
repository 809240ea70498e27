import BranchIR.Error
import BranchIR.Literal
import BranchIR.Typing.Env

/-! # Type checking

`typed env want e` gives every node of `e` its type and says whether it is in tail
position. Without a wanted type the expression's own type is computed; with one it has to
come out as that type. Only a case passes the wanted type on, to its arms.

`infer` and `check` are the two ways to call it. -/

namespace BranchIR

/-- Where an expression begins. -/
def Exp.start (e : Exp Span) : Position := e.ann.first

/-- Where a checked expression begins. -/
def Exp.checkedStart (e : Exp Checked) : Position := e.ann.span.first

namespace Typing

/-- Refuses a program, saying why and where. -/
def refuse {α : Type} (cause : Cause) (position : Position) : Except Error α :=
  .error ⟨cause, position⟩

/-- Refuses a program if the condition holds. -/
def refuseIf (condition : Bool) (cause : Cause) (position : Position) : Except Error Unit :=
  if condition then refuse cause position else .ok ()

/-- The part of a checked expression's type that is wanted; none of it is an error where the
    expression begins. -/
def require {α : Type} (expected : String) (part? : Ty → Option α) (e : Exp Checked) :
    Except Error α :=
  match part? e.ty with
  | some a => .ok a
  | none => refuse (.shapeMismatch expected e.ty) e.checkedStart

/-- A checked expression, if it has the type that is wanted. -/
def settle (want : Option Ty) (e : Exp Checked) : Except Error (Exp Checked) :=
  match want with
  | none => .ok e
  | some t => if e.ty = t then .ok e else refuse (.typeMismatch t e.ty) e.checkedStart

/-- The annotation of a node in an environment. -/
def note (env : Env) (span : Span) (ty : Ty) : Checked := ⟨span, ty, env.tail⟩

/-- The type itself, if arithmetic applies to it. -/
def numeric? (ty : Ty) : Option Ty := if ty.isNumeric then some ty else none

/-- The field of a tuple type. -/
def fieldTy (n : Nat) (ty : Ty) (owner : Position) : Except Error Ty :=
  match ty with
  | .tuple fields =>
    match fields[n]? with
    | some field => .ok field
    | none => refuse (.fieldOutOfRange n ty) owner
  | _ => refuse (.shapeMismatch "tuple" ty) owner

/-- The element of an array type. -/
def elementTy (n : Nat) (ty : Ty) (owner : Position) : Except Error Ty :=
  match ty with
  | .array length element =>
    if n < length then .ok element else refuse (.elementOutOfRange n ty) owner
  | _ => refuse (.shapeMismatch "array" ty) owner

/-- The lanes' type of a vector type. -/
def laneTy (ty : Ty) (offset : Position) : Except Error Ty :=
  match ty with
  | .vector _ lane => .ok (.prim lane)
  | _ => refuse (.shapeMismatch "vector" ty) offset

/-- The type behind a pointer. Only the first step of a path may go there. -/
def indexTy (first : Bool) (ty : Ty) (offset : Position) : Except Error Ty :=
  if first then
    match ty.pointee? with
    | some target => .ok target
    | none => refuse (.shapeMismatch "pointer" ty) offset
  else refuse .lateIndex offset

/-- Whether a pattern can stand after the literals seen in a case of the given width. A
    pattern is faulted where the body of its arm begins. -/
def checkPattern (width : Nat) (seen : List Int) (pattern : Pattern) (body : Position) :
    Except Error (List Int) :=
  match pattern with
  | .default => .ok seen
  | .literal value =>
    if fits value width = false then refuse (.patternTooWide value width) body
    else if value ∈ seen then refuse (.duplicatePattern value) body
    else .ok (value :: seen)

/-- The first offset that a path steps to through a pointer. -/
def firstIndex? {ε : Type} : List (Step ε) → Option ε
  | [] => none
  | .index e :: _ => some e
  | .field _ :: path | .element _ :: path | .lane _ :: path => firstIndex? path

/-- Refuses a path that steps through a pointer, at the first offset where it does. -/
def refuseIndex (path : List (Step (Exp Span))) : Except Error Unit :=
  match firstIndex? path with
  | some offset => refuse .indexInUpdate offset.start
  | none => .ok ()

/-- Where a path from a pointer starts: at the pointer itself, which its first step has to
    step through, or behind it if there are no steps. -/
def pathStart {ε : Type} (pointer target : Ty) (path : List (Step ε)) : Ty :=
  if path.isEmpty then target else pointer

/-- The checked form of a parameter. -/
def typedParam (p : Param Span) : Param Checked := ⟨⟨p.ann, p.ty, false⟩, p.name, p.ty⟩

mutual

/-- Checks an expression. -/
def typed (env : Env) (want : Option Ty) : Exp Span → Except Error (Exp Checked)
  | .var s id =>
    match env.find? id with
    | some binding => settle want (.var (note env s binding.ty) id)
    | none => refuse (.notInScope id) s.first
  | .int s value width => settle want (.int (note env s (.int width)) value width)
  | .ascribe s inner ty => do
    -- not an operand: an ascribed call is still in tail position
    let inner ← typed env (some ty) inner
    settle want (.ascribe (note env s ty) inner ty)
  | .coerce s inner ty => do
    let inner ← typed env.operand none inner
    settle want (.coerce (note env s ty) inner ty)
  | .prim s op args =>
    match args with
    | [] => refuse (.noArguments op) s.first
    | arg :: args => do
      -- the first argument decides the type of all
      let first ← typed env.operand none arg
      let ty ← require "numeric type" numeric? first
      let rest ← typedAll env.operand (args.map fun _ => some ty) args
      settle want (.prim (note env s ty) op (first :: rest))
  | .letIn s name ty value body => do
    let value ← typed env.operand (some ty) value
    -- what is wanted of the whole is compared at the end and not passed on
    let body ← typed (env.declare name ty) none body
    settle want (.letIn (note env s body.ty) name ty value body)
  | .call s callee args => do
    let callee ← typed env.operand none callee
    let (params, result) ← require "function" Ty.signature? callee
    refuseIf (params.length != args.length) (.arityMismatch params.length args.length) s.first
    let args ← typedAll env.operand (params.map some) args
    settle want (.call (note env s result) callee args)
  | .caseOf s scrutinee arms => do
    let scrutinee ← typed env.operand none scrutinee
    let width ← require "integer" Ty.intWidth? scrutinee
    refuseIf arms.isEmpty .emptyCase s.first
    let (ty, arms) ← typedArms env width [] want arms
    -- the arms have the wanted type already, and there is at least one
    return .caseOf (note env s (ty.getD .void)) scrutinee arms
  | .recIn s fs body => do
    -- every function is in scope in every body and in the rest
    let bundle := env.declareAll (fs.map fun f => (f.name, f.ty))
    let fs ← typedFuncs bundle fs
    let body ← typed bundle none body
    settle want (.recIn (note env s body.ty) fs body)
  | .tuple s elems => do
    let elems ← typedAll env.operand [] elems
    settle want (.tuple (note env s (.tuple (elems.map Exp.ty))) elems)
  | .vector s elems =>
    match elems with
    | [] => refuse .emptyVector s.first
    | elem :: elems => do
      let first ← typed env.operand none elem
      let lane ← require "primitive type" Ty.prim? first
      let rest ← typedAll env.operand (elems.map fun _ => some (.prim lane)) elems
      settle want (.vector (note env s (.vector (elems.length + 1) lane)) (first :: rest))
  | .gep s base path => do
    let base ← typed env.operand none base
    let target ← require "pointer" Ty.pointee? base
    let (ty, path) ← typedPath env.operand true (pathStart base.ty target path) s.first path
    settle want (.gep (note env s (.ptr ty)) base path)
  | .load s base path => do
    let base ← typed env.operand none base
    let target ← require "pointer" Ty.pointee? base
    let (ty, path) ← typedPath env.operand true (pathStart base.ty target path) s.first path
    settle want (.load (note env s ty) base path)
  | .store s dest path value body => do
    let dest ← typed env.operand none dest
    let target ← require "pointer" Ty.pointee? dest
    let (ty, path) ← typedPath env.operand true (pathStart dest.ty target path) s.first path
    let value ← typed env.operand (some ty) value
    let body ← typed env none body
    settle want (.store (note env s body.ty) dest path value body)
  | .update s base path value => do
    let base ← typed env.operand none base
    refuseIf base.ty.pointee?.isSome (.shapeMismatch "aggregate" base.ty) base.checkedStart
    -- no pointer can be followed in a value, not even in the first step
    refuseIndex path
    let (ty, path) ← typedPath env.operand true base.ty s.first path
    let value ← typed env.operand (some ty) value
    settle want (.update (note env s base.ty) base path value)

/-- Checks expressions in a list against the types wanted of them, in order. Nothing is
    wanted of the expressions after the last of these. -/
def typedAll (env : Env) (wants : List (Option Ty)) :
    List (Exp Span) → Except Error (List (Exp Checked))
  | [] => .ok []
  | e :: es => do
    let first ← typed env wants.head?.join e
    return first :: (← typedAll env wants.tail es)

/-- Checks the arms of a case, and gives the type they share. If none is wanted, the first
    arm decides. -/
def typedArms (env : Env) (width : Nat) (seen : List Int) (want : Option Ty) :
    List (Arm (Exp Span)) → Except Error (Option Ty × List (Arm (Exp Checked)))
  | [] => .ok (want, [])
  | ⟨pattern, body⟩ :: arms => do
    let seen ← checkPattern width seen pattern body.start
    let first ← typed env want body
    let (ty, rest) ← typedArms env width seen (some (want.getD first.ty)) arms
    return (ty, ⟨pattern, first⟩ :: rest)

/-- Checks the functions of a bundle, whose names are in scope. A body is the tail of its
    own routine, wherever the bundle stands. -/
def typedFuncs (bundle : Env) :
    List (Func Span (Exp Span)) → Except Error (List (Func Checked (Exp Checked)))
  | [] => .ok []
  | ⟨s, name, params, result, body⟩ :: fs => do
    -- tail position starts anew in a body
    let scope := (bundle.declareAll (params.map fun p => (p.name, p.ty))).withTail true
    let checked ← typed scope (some result) body
    let rest ← typedFuncs bundle fs
    let ann : Checked := ⟨s, .fn (params.map (·.ty)) result, false⟩
    return ⟨ann, name, params.map typedParam, result, checked⟩ :: rest

/-- Checks a path step by step from a type, and gives the type it leads to. Constant offsets
    are faulted at the owner of the path, computed ones where they begin. -/
def typedPath (env : Env) (first : Bool) (ty : Ty) (owner : Position) :
    List (Step (Exp Span)) → Except Error (Ty × List (Step (Exp Checked)))
  | [] => .ok (ty, [])
  | .field n :: path => do
    let next ← fieldTy n ty owner
    let (last, rest) ← typedPath env false next owner path
    return (last, .field n :: rest)
  | .element n :: path => do
    let next ← elementTy n ty owner
    let (last, rest) ← typedPath env false next owner path
    return (last, .element n :: rest)
  | .lane e :: path => do
    let next ← laneTy ty e.start
    let offset ← typed env none e
    let _ ← require "integer" Ty.intWidth? offset
    let (last, rest) ← typedPath env false next owner path
    return (last, .lane offset :: rest)
  | .index e :: path => do
    -- the step is refused before its offset is checked
    let next ← indexTy first ty e.start
    let offset ← typed env none e
    let _ ← require "integer" Ty.intWidth? offset
    let (last, rest) ← typedPath env false next owner path
    return (last, .index offset :: rest)

end

/-- Computes the type of an expression. -/
def infer (env : Env) (e : Exp Span) : Except Error (Exp Checked) := typed env none e

/-- Checks that an expression has a type. -/
def check (env : Env) (e : Exp Span) (ty : Ty) : Except Error (Exp Checked) :=
  typed env (some ty) e

/-- Checks a path that starts at a type, and gives the type it leads to. -/
def resolvePath (env : Env) (start : Ty) (path : List (Step (Exp Span))) (owner : Position) :
    Except Error (Ty × List (Step (Exp Checked))) :=
  typedPath env true start owner path

/-- Checks a whole program. It is the body of a routine, so its root is in tail position. -/
def checkProgram (e : Exp Span) : Except Error (Exp Checked) := infer (.empty true) e

end Typing

end BranchIR
