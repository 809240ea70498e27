import BranchIR.Exp.Basic
import BranchIR.Ty.Printer

/-! # The text of an expression

Expressions are written in the surface syntax, so that reading the text gives the same tree
back. A variable is written `v` and its identity. Forms that reach as far to the right as
they can (`let`, `rec`, `store`), ascriptions and coercions always stand in parentheses, so
the text of an expression does not depend on what is around it. -/

namespace BranchIR

open Text (natText intText commaList joined)

/-- The text of a variable. -/
def VarId.text (id : VarId) : String := "v" ++ natText id

/-- The text of a pattern. -/
def Pattern.text : Pattern → String
  | .literal value => intText value
  | .default => "_"

/-- The text of a parameter. -/
def Param.text {α : Type} (p : Param α) : String := VarId.text p.name ++ ": " ++ p.ty.text

namespace Exp

variable {α : Type}

mutual

/-- The text of an expression. -/
def text : Exp α → String
  | .var _ id => VarId.text id
  | .int _ value width => intText value ++ "i" ++ natText width
  | .ascribe _ inner ty => "(" ++ text inner ++ ": " ++ ty.text ++ ")"
  | .coerce _ inner ty => "(" ++ text inner ++ " as " ++ ty.text ++ ")"
  | .prim _ op args => op.name ++ "(" ++ commaList (texts args) ++ ")"
  | .letIn _ name ty value body =>
    "(let " ++ VarId.text name ++ ": " ++ ty.text ++ " = " ++ text value ++ " in " ++
      text body ++ ")"
  | .call _ callee args => text callee ++ "(" ++ commaList (texts args) ++ ")"
  -- the closing brace ends the form, so it needs no parentheses
  | .caseOf _ scrutinee arms =>
    "case " ++ text scrutinee ++ " \x7b " ++ commaList (armTexts arms) ++ " \x7d"
  | .recIn _ fs body => "(rec " ++ joined " and " (funcTexts fs) ++ " in " ++ text body ++ ")"
  | .tuple _ elems => "\x7b" ++ commaList (texts elems) ++ "\x7d"
  | .vector _ elems => "<" ++ commaList (texts elems) ++ ">"
  | .gep _ base path => "gep(" ++ text base ++ pathText path ++ ")"
  | .load _ base path => "load(" ++ text base ++ pathText path ++ ")"
  | .store _ dest path value body =>
    "(store " ++ text dest ++ pathText path ++ " = " ++ text value ++ " in " ++ text body ++ ")"
  | .update _ base path value =>
    "update(" ++ text base ++ pathText path ++ ", " ++ text value ++ ")"

/-- The texts of expressions in a list. -/
def texts : List (Exp α) → List String
  | [] => []
  | e :: es => text e :: texts es

/-- The texts of arms. -/
def armTexts : List (Arm (Exp α)) → List String
  | [] => []
  | ⟨pattern, body⟩ :: arms => (pattern.text ++ " => " ++ text body) :: armTexts arms

/-- The texts of functions. -/
def funcTexts : List (Func α (Exp α)) → List String
  | [] => []
  | ⟨_, name, params, result, body⟩ :: fs =>
    (VarId.text name ++ "(" ++ commaList (params.map Param.text) ++ "): " ++ result.text ++
      " = " ++ text body) :: funcTexts fs

/-- The text of a path: a blank before each step. -/
def pathText : List (Step (Exp α)) → String
  | [] => ""
  | .field n :: path => " ." ++ natText n ++ pathText path
  | .element n :: path => " [" ++ natText n ++ "]" ++ pathText path
  | .lane e :: path => " <" ++ text e ++ ">" ++ pathText path
  | .index e :: path => " @" ++ text e ++ pathText path

end

/-- Expressions of a list are printed one by one. -/
theorem texts_eq_map (es : List (Exp α)) : texts es = es.map text := by
  induction es with
  | nil => rfl
  | cons e es ih => rw [texts, ih, List.map_cons]

end Exp

end BranchIR
