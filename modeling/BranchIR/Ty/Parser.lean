import BranchIR.Grammar
import BranchIR.Parser.Basic
import BranchIR.Text.Decimal

/-! # Reading types

Every form of type is told by its first token. A type that stands in another is read by
`sub`, one level deeper; the fuel of `tyAt` is the number of levels, and no type has more
levels than tokens. -/

namespace BranchIR

open BranchIR.Parser

/-- The type that a word names. -/
def Ty.ofWord? (word : String) : Option Ty :=
  if word = "void" then some .void
  else
    match FloatKind.ofName? word with
    | some kind => some (.float kind)
    | none =>
      match word.toList with
      | 'i' :: width =>
        (Text.natUpTo? Text.maxWord width).bind fun n =>
          if 1 ≤ n ∧ n ≤ Ty.maxIntWidth then some (.int n) else none
      | _ => none

namespace TypeForm

/-- Reads a type word. -/
def readWord : Parser Ty := do
  let t ← expect .identifier
  match Ty.ofWord? t.text with
  | some ty => return ty
  | none => throw ⟨.unknownType t.text, t.span.first⟩

/-- Reads the length of a vector or array, and the `x` after it. -/
def readLength : Parser Nat := do
  let t ← expectOr .number "expected a length"
  let length ← wordOf t
  let times ← expectOr .identifier "expected `x`"
  if times.text = "x" then return length else refuseToken times "expected `x`"

/-- Reads a vector type. What its lanes hold is known, and refused, after the closing `>`. -/
def readVector (sub : Parser Ty) : Parser Ty := do
  let _ ← advance
  let length ← readLength
  -- a wrong lane is blamed where it begins
  let start ← position
  let lane ← sub
  let _ ← expect .greater
  match lane.prim? with
  | some p => return .vector length p
  | none => throw ⟨.unexpectedAs lane.text "vector elements must be a primitive type", start⟩

/-- Reads a type of the form; `sub` reads the types inside it. -/
def read (sub : Parser Ty) : TypeForm → Parser Ty
  | .word => readWord
  | .pointer => do
    let _ ← advance
    return .ptr (← sub)
  | .vector => readVector sub
  | .array => do
    let _ ← advance
    let length ← readLength
    let element ← sub
    let _ ← expect .closeBracket
    return .array length element
  | .tuple => do
    let _ ← advance
    return .tuple (← listTo .closeCurly sub)
  | .function => do
    let _ ← advance
    let _ ← expect .openParen
    let params ← listTo .closeParen sub
    let _ ← expect .arrow
    return .fn params (← sub)
  | .group => do
    let _ ← advance
    let ty ← sub
    let _ ← expect .closeParen
    return ty

end TypeForm

namespace Grammar

/-- Reads a type of at most `fuel` levels. -/
def tyAt (g : Grammar) : (fuel : Nat) → Parser Ty
  | 0 => unexpected "expected a type"
  | fuel + 1 => do
    match g.types.lookup (← kind) with
    | some form => form.read (g.tyAt fuel)
    | none => unexpected "expected a type"

/-- Reads a type. -/
def ty (g : Grammar) : Parser Ty := do g.tyAt (← get).remaining

end Grammar

end BranchIR
