import BranchIR.Exp.Basic
import BranchIR.Source
import BranchIR.Text.Quoted
import BranchIR.Ty.Printer

/-! # Errors

An error is a cause and the place where it was found. The causes carry what their messages
name; pieces of the source are quoted, types and identities stand as they are written. -/

namespace BranchIR

open Text (natText intText quoted)

/-- Why a program is refused. -/
inductive Cause where
  /-- The text starts no token. -/
  | unrecognised (token : String)
  /-- Another token was required. -/
  | unexpected (token : String)
  /-- Another token was required, as the message says. -/
  | unexpectedAs (token message : String)
  /-- The number is malformed or out of range. -/
  | badNumber (token : String)
  | unknownType (name : String)
  /-- No binder around the use has the name. -/
  | undeclared (name : String)
  /-- The environment does not hold the identity. -/
  | notInScope (id : VarId)
  /-- A type of another form was required. -/
  | shapeMismatch (expected : String) (received : Ty)
  | typeMismatch (expected received : Ty)
  | arityMismatch (expected received : Nat)
  /-- What the message says. -/
  | other (message : String)
  /-- A branch target is called where its result is still used. -/
  | nonTailCall (function : VarId)
  /-- A branch target is used as a value. -/
  | escapingTarget (function : VarId)
  deriving DecidableEq

namespace Cause

/-! ## Causes with a fixed wording -/

def noArguments (op : PrimOp) : Cause :=
  .other ("`" ++ op.name ++ "` needs at least one argument")

def emptyVector : Cause := .other "vector needs at least one element"

def emptyCase : Cause := .other "case needs at least one arm"

def patternTooWide (value : Int) (width : Nat) : Cause :=
  .other ("case pattern " ++ intText value ++ " does not fit i" ++ natText width)

def duplicatePattern (value : Int) : Cause :=
  .other ("duplicate case pattern " ++ intText value)

def fieldOutOfRange (n : Nat) (ty : Ty) : Cause :=
  .other ("field ." ++ natText n ++ " out of range for " ++ ty.text)

def elementOutOfRange (n : Nat) (ty : Ty) : Cause :=
  .other ("element [" ++ natText n ++ "] out of range for " ++ ty.text)

def lateIndex : Cause := .other "`@` step must come first in a path"

def indexInUpdate : Cause := .other "update path cannot step through a pointer with `@`"

/-! ## Texts -/

/-- The name of the cause's class. -/
def name : Cause → String
  | .unrecognised _ => "UnrecognisedToken"
  | .unexpected _ => "UnexpectedToken"
  | .unexpectedAs _ _ => "UnexpectedTokenDetailed"
  | .badNumber _ => "NumberParseError"
  | .unknownType _ => "UnknownType"
  | .undeclared _ => "VariableNotDeclared"
  | .notInScope _ => "NotInScope"
  | .shapeMismatch _ _ => "ShapeMismatch"
  | .typeMismatch _ _ => "TypeMismatch"
  | .arityMismatch _ _ => "ArityMismatch"
  | .other _ => "Custom"
  | .nonTailCall _ => "NonTailCall"
  | .escapingTarget _ => "EscapingBranchTarget"

/-- The message, without the place. -/
def message : Cause → String
  | .unrecognised token => "unrecognised token: " ++ quoted token
  | .unexpected token => "unexpected token: " ++ quoted token
  | .unexpectedAs token message => "unexpected token (" ++ message ++ "): " ++ quoted token
  | .badNumber token => "error parsing number: " ++ quoted token
  | .unknownType name => "unknown type " ++ quoted name
  | .undeclared name => "variable " ++ quoted name ++ " not in scope"
  | .notInScope id => "variable v" ++ natText id ++ " not in scope"
  | .shapeMismatch expected received => "expected " ++ expected ++ ", got " ++ received.text
  | .typeMismatch expected received =>
    "type mismatch: expected " ++ expected.text ++ ", got " ++ received.text
  | .arityMismatch expected received =>
    "wrong number of arguments: expected " ++ natText expected ++ ", received " ++
      natText received
  | .other message => message
  | .nonTailCall function =>
    "call to branch-target function v" ++ natText function ++ " is not in tail position"
  | .escapingTarget function =>
    "branch-target function v" ++ natText function ++ " used as a value"

/-- Advice on how to mend the program, for the causes that have any. -/
def tip? : Cause → Option String
  | .unrecognised _ | .notInScope _ | .other _ => none
  | .unexpected token => some ("Unexpected token: `" ++ token ++ "`")
  | .unexpectedAs token message => some ("Unexpected token: `" ++ token ++ "`, " ++ message)
  | .badNumber token =>
    some ("Invalid number: `" ++ token ++ "`, does it fit its declared width?")
  | .unknownType name => some ("Unknown type `" ++ name ++ "` found")
  | .undeclared name =>
    some ("Variable `" ++ name ++ "` is not bound by any enclosing let, rec or parameter")
  | .shapeMismatch expected _ => some ("A value of " ++ expected ++ " type is required here")
  | .typeMismatch expected _ =>
    some ("Add an explicit `as " ++ expected.text ++
      "` coercion if the reinterpretation is intended")
  | .arityMismatch expected received =>
    some ("Expected " ++ natText expected ++ " arguments, received " ++ natText received)
  | .nonTailCall _ =>
    some ("Functions using variables from an enclosing scope compile to branch targets " ++
      "and can only be called in tail position")
  | .escapingTarget _ =>
    some "Functions using variables from an enclosing scope can only be called directly"

end Cause

/-- Why a program is refused, and where. -/
structure Error where
  cause : Cause
  position : Position
  deriving DecidableEq

/-- The message, without the place. -/
def Error.message (e : Error) : String := e.cause.message

end BranchIR
