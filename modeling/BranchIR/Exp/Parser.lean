import BranchIR.Literal
import BranchIR.Ty.Parser

/-! # Reading expressions

An expression is an opening form, told by its first token, and then as many trailing forms
as follow. Names are resolved as they are read. An expression that stands in another is
read by `sub`, one level deeper; the fuel of `exprAt` is the number of levels, and no
expression has more levels than tokens. -/

namespace BranchIR

open BranchIR.Parser

/-! ## Paths -/

/-- Reads a constant offset. -/
def readOffset : Parser Nat := do
  wordOf (← expectOr .number "expected a constant offset")

/-- Reads at most `fuel` steps of a path, up to a token that begins none. -/
def readSteps (sub : Parser (Exp Span)) : (fuel : Nat) → Parser (List (Step (Exp Span)))
  | 0 => return []
  | fuel + 1 => do
    match ← kind with
    | .dot =>
      let _ ← advance
      let n ← readOffset
      return .field n :: (← readSteps sub fuel)
    | .openBracket =>
      let _ ← advance
      let n ← readOffset
      let _ ← expect .closeBracket
      return .element n :: (← readSteps sub fuel)
    | .less =>
      let _ ← advance
      let e ← sub
      let _ ← expect .greater
      return .lane e :: (← readSteps sub fuel)
    | .atSign =>
      let _ ← advance
      let e ← sub
      return .index e :: (← readSteps sub fuel)
    | _ => return []

/-- Reads the steps of a path. Every step takes a token. -/
def readPath (sub : Parser (Exp Span)) : Parser (List (Step (Exp Span))) := do
  readSteps sub (← get).remaining

/-! ## Bundles -/

/-- The first name that stands twice in a list. -/
def firstRepeated? : List String → Option String :=
  go []
where
  /-- The first name that stands among `seen` or earlier in the list. -/
  go (seen : List String) : List String → Option String
    | [] => none
    | name :: names => if seen.contains name then some name else go (name :: seen) names

/-- Reads the name of a parameter. The parameters before it are what the function's own scope
    binds so far. -/
def readParamName : Parser Token := do
  let name ← expectOr .identifier "expected parameter name"
  if (← get).scopes.bindsHere name.text then
    refuseToken name ("parameter `" ++ name.text ++ "` declared twice")
  else return name

/-- Reads a parameter. -/
def readParam (ty : Parser Ty) : Parser (Param Span) := do
  let name ← readParamName
  let _ ← expect .colon
  let t ← ty
  let span ← spanFrom name.span.first
  return ⟨span, ← bindName name.text, t⟩

/-- Reads a function from its parameters on. Its name has been read, at `start`, and stands
    for `id`. -/
def readFunc (ty : Parser Ty) (sub : Parser (Exp Span)) (id : VarId) (start : Position) :
    Parser (Func Span (Exp Span)) := do
  let _ ← expect .openParen
  let params ← listTo .closeParen (readParam ty)
  let _ ← expect .colon
  let result ← ty
  let _ ← expect .assignment
  let body ← sub
  return ⟨← spanFrom start, id, params, result, body⟩

/-- Reads the functions of a bundle, whose names stand for the identities in order. -/
def readFuncs (ty : Parser Ty) (sub : Parser (Exp Span)) :
    List VarId → Parser (List (Func Span (Exp Span)))
  | [] => do
    -- more functions follow than names were found ahead
    let _ ← expectOr .identifier "expected function name in rec bundle"
    unexpected "malformed rec bundle"
  | id :: ids => do
    let name ← expectOr .identifier "expected function name in rec bundle"
    let func ← inScope (readFunc ty sub id name.span.first)
    if (← kind) = .andWord then
      let _ ← advance
      return func :: (← readFuncs ty sub ids)
    else return [func]

/-- Reads a bundle from its first function on, where the functions have the given names. -/
def readBundle (ty : Parser Ty) (sub : Parser (Exp Span)) (names : List String) :
    Parser (List (Func Span (Exp Span)) × Exp Span) := do
  match firstRepeated? names with
  | some name => unexpected ("function `" ++ name ++ "` defined twice in one rec bundle")
  | none =>
    -- all names are bound before the first body, so that any function can call any other
    let ids ← names.mapM bindName
    let funcs ← readFuncs ty sub ids
    let _ ← expect .inWord
    return (funcs, ← sub)

/-! ## Cases -/

/-- Reads a pattern. -/
def readPattern : Parser Pattern := do
  match ← kind with
  | .underscore =>
    let _ ← advance
    return .default
  | .number =>
    let t ← advance
    match Text.wideInt? t.text with
    | some value => return .literal value
    | none => throw ⟨.badNumber t.text, t.span.first⟩
  | _ => unexpected "expected an integer or `_` case pattern"

/-- Reads an arm of a case. -/
def readArm (sub : Parser (Exp Span)) : Parser (Arm (Exp Span)) := do
  let pattern ← readPattern
  let _ ← expect .fatArrow
  return ⟨pattern, ← sub⟩

/-! ## Forms -/

namespace OpeningForm

/-- Reads a literal or a variable. -/
def readAtom : Parser (Exp Span) := do
  match ← kind with
  | .intLiteral =>
    let t ← advance
    match literal? t.text with
    | some (value, width) => return .int t.span value width
    | none => throw ⟨.badNumber t.text, t.span.first⟩
  | .identifier =>
    let t ← advance
    return .var t.span (← resolve t.text t.span.first)
  | _ => unexpected "expected a literal or variable"

/-- Reads a parenthesized base and its path. -/
def readBased (sub : Parser (Exp Span)) : Parser (Exp Span × List (Step (Exp Span))) := do
  let _ ← expect .openParen
  let base ← sub
  let path ← readPath sub
  let _ ← expect .closeParen
  return (base, path)

/-- Reads a let. The name is not in scope in the value. -/
def readLet (ty : Parser Ty) (sub : Parser (Exp Span)) : Parser (Exp Span) := do
  let start := (← advance).span.first
  let name ← expectOr .identifier "expected identifier after let"
  let _ ← expect .colon
  let t ← ty
  let _ ← expect .assignment
  let value ← sub
  let _ ← expect .inWord
  let (id, body) ← inScope do
    let id ← bindName name.text
    return (id, ← sub)
  return .letIn (← spanFrom start) id t value body

/-- Reads a bundle and the expression that uses it. -/
def readRec (ty : Parser Ty) (sub : Parser (Exp Span)) : Parser (Exp Span) := do
  -- the look ahead starts at `rec` itself, before any of the bundle is read
  let names := (← get).bundleNames
  let start := (← advance).span.first
  let (funcs, body) ← inScope (readBundle ty sub (names.map (·.text)))
  return .recIn (← spanFrom start) funcs body

/-- Reads a case. -/
def readCase (sub : Parser (Exp Span)) : Parser (Exp Span) := do
  let start := (← advance).span.first
  let scrutinee ← sub
  let _ ← expect .openCurly
  let arms ← listTo .closeCurly (readArm sub)
  return .caseOf (← spanFrom start) scrutinee arms

/-- Reads a store. -/
def readStore (sub : Parser (Exp Span)) : Parser (Exp Span) := do
  let start := (← advance).span.first
  let dest ← sub
  let path ← readPath sub
  let _ ← expect .assignment
  let value ← sub
  let _ ← expect .inWord
  let body ← sub
  return .store (← spanFrom start) dest path value body

/-- Reads an update. -/
def readUpdate (sub : Parser (Exp Span)) : Parser (Exp Span) := do
  let start := (← advance).span.first
  let _ ← expect .openParen
  let base ← sub
  let path ← readPath sub
  let _ ← expect .comma
  let value ← sub
  let _ ← expect .closeParen
  return .update (← spanFrom start) base path value

/-- Reads an expression of the form; `ty` reads types and `sub` the expressions inside. -/
def read (ty : Parser Ty) (sub : Parser (Exp Span)) : OpeningForm → Parser (Exp Span)
  | .atom => readAtom
  | .group => do
    let _ ← advance
    let e ← sub
    let _ ← expect .closeParen
    -- parentheses leave no trace: the span is that of the expression inside
    return e
  | .tuple => do
    let start := (← advance).span.first
    let elems ← listTo .closeCurly sub
    return .tuple (← spanFrom start) elems
  | .vector => do
    let start := (← advance).span.first
    let elems ← listTo .greater sub
    return .vector (← spanFrom start) elems
  | .prim => do
    let t ← advance
    let _ ← expect .openParen
    let args ← listTo .closeParen sub
    -- words of this form are names of operations, so the default is never taken
    return .prim (← spanFrom t.span.first) ((PrimOp.ofName? t.text).getD .div) args
  | .letIn => readLet ty sub
  | .recIn => readRec ty sub
  | .caseOf => readCase sub
  | .gep => do
    let start := (← advance).span.first
    let (base, path) ← readBased sub
    return .gep (← spanFrom start) base path
  | .load => do
    let start := (← advance).span.first
    let (base, path) ← readBased sub
    return .load (← spanFrom start) base path
  | .store => readStore sub
  | .update => readUpdate sub

end OpeningForm

namespace TrailingForm

/-- Reads the rest of a form that goes on after `left`. -/
def read (ty : Parser Ty) (sub : Parser (Exp Span)) (left : Exp Span) :
    TrailingForm → Parser (Exp Span)
  | .ascription => do
    let _ ← advance
    let t ← ty
    return .ascribe (← spanFrom left.ann.first) left t
  | .coercion => do
    let _ ← advance
    let t ← ty
    return .coerce (← spanFrom left.ann.first) left t
  | .call => do
    let _ ← advance
    let args ← listTo .closeParen sub
    return .call (← spanFrom left.ann.first) left args

end TrailingForm

/-! ## Expressions -/

namespace Grammar

variable (g : Grammar)

/-- Reads an opening form. -/
def head (sub : Parser (Exp Span)) : Parser (Exp Span) := do
  match g.opening.lookup (← kind) with
  | some form => form.read g.ty sub
  | none => unexpected "expected an expression"

/-- Reads at most `fuel` trailing forms after `left`. -/
def trail (sub : Parser (Exp Span)) : (fuel : Nat) → Exp Span → Parser (Exp Span)
  | 0, left => return left
  | fuel + 1, left => do
    match g.trailing.lookup (← kind) with
    -- what has been read so far is the left part of the next form
    | some form => trail sub fuel (← form.read g.ty sub left)
    | none => return left

/-- Reads an expression of at most `fuel` levels. -/
def exprAt : (fuel : Nat) → BindingPower → Parser (Exp Span)
  | 0, _ => unexpected "expected an expression"
  | fuel + 1, .loose => do
    -- what stands inside a form is read loosely, whatever the form itself stands in
    let first ← g.head (exprAt fuel .loose)
    g.trail (exprAt fuel .loose) (← get).remaining first
  | fuel + 1, .trailing => g.head (exprAt fuel .loose)

/-- Reads an expression. -/
def expr (bp : BindingPower) : Parser (Exp Span) := do g.exprAt (← get).remaining bp

/-- Reads a path. -/
def path : Parser (List (Step (Exp Span))) := readPath (g.expr .loose)

/-- Reads a whole program: one expression up to the end of the input. -/
def program : Parser (Exp Span) := do
  let e ← g.expr .loose
  if (← kind) = .endOfInput then return e else unexpected "expected end of input"

end Grammar

/-- A program as it was read, with the name of every identity. -/
structure Program where
  tree : Exp Span
  scopes : Scopes

/-- Reads a program from the tokens of a file. -/
def Program.ofTokens (file : String) (tokens : List Token) : Except Error Program :=
  match Grammar.full.program (State.ofTokens file tokens) with
  | .ok tree s => .ok ⟨tree, s.scopes⟩
  | .error e _ => .error e

end BranchIR
