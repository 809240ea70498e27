import BranchIR.Text.Decimal
import BranchIR.Text.Joined
import BranchIR.Ty.Basic

/-! # The text of a type

Types are written in the surface syntax, so that reading the text gives the type back. -/

namespace BranchIR

open Text (natText commaList)

mutual

/-- The text of a primitive type. -/
def PrimTy.text : PrimTy → String
  | .int width => "i" ++ natText width
  | .float kind => kind.name
  | .ptr target => "&" ++ target.text

/-- The text of a type. -/
def Ty.text : Ty → String
  | .void => "void"
  | .prim p => p.text
  | .vector length lane => "<" ++ natText length ++ " x " ++ lane.text ++ ">"
  | .array length element => "[" ++ natText length ++ " x " ++ element.text ++ "]"
  | .tuple fields => "\x7b" ++ commaList (Ty.texts fields) ++ "\x7d"
  | .fn params result => "fun (" ++ commaList (Ty.texts params) ++ ") -> " ++ result.text

/-- The texts of types in a list. -/
def Ty.texts : List Ty → List String
  | [] => []
  | t :: ts => t.text :: Ty.texts ts

end

/-- Types of a list are printed one by one. -/
theorem Ty.texts_eq_map (ts : List Ty) : Ty.texts ts = ts.map Ty.text := by
  induction ts with
  | nil => rfl
  | cons t ts ih => rw [Ty.texts, ih, List.map_cons]

end BranchIR
