/-! # Types

Types are structural: two types are equal exactly when they are written alike. The
primitive types are those that a vector may hold. -/

namespace BranchIR

/-- The floating-point formats. -/
inductive FloatKind where
  | half
  | single
  | double
  | quad
  deriving DecidableEq, Repr

/-- The type word of a floating-point format. -/
def FloatKind.name : FloatKind → String
  | .half => "half"
  | .single => "float"
  | .double => "double"
  | .quad => "fp128"

/-- The floating-point format that a type word names. -/
def FloatKind.ofName? (name : String) : Option FloatKind :=
  if name = "half" then some .half
  else if name = "float" then some .single
  else if name = "double" then some .double
  else if name = "fp128" then some .quad
  else none

/-- A kind of floats is found by its name. -/
theorem FloatKind.ofName?_name (kind : FloatKind) : ofName? kind.name = some kind := by
  cases kind <;> decide

mutual

/-- The types that a vector may hold. -/
inductive PrimTy where
  /-- An integer of the given width in bits. -/
  | int (width : Nat)
  | float (kind : FloatKind)
  /-- A pointer to a value of the target type. -/
  | ptr (target : Ty)

inductive Ty where
  | void
  | prim (p : PrimTy)
  /-- So many lanes of one primitive type. -/
  | vector (length : Nat) (lane : PrimTy)
  /-- So many elements of one type. -/
  | array (length : Nat) (element : Ty)
  /-- Fields in order. -/
  | tuple (fields : List Ty)
  /-- A function: its parameter types and its result type. -/
  | fn (params : List Ty) (result : Ty)

end

instance : Inhabited Ty := ⟨.void⟩

/-! ## Equality is decidable -/

mutual

/-- Whether two primitive types are written alike. -/
def PrimTy.same : PrimTy → PrimTy → Bool
  | .int w, .int w' => w == w'
  | .float k, .float k' => k == k'
  | .ptr t, .ptr t' => t.same t'
  | _, _ => false

/-- Whether two types are written alike. -/
def Ty.same : Ty → Ty → Bool
  | .void, .void => true
  | .prim p, .prim p' => p.same p'
  | .vector n p, .vector n' p' => n == n' && p.same p'
  | .array n t, .array n' t' => n == n' && t.same t'
  | .tuple ts, .tuple ts' => Ty.allSame ts ts'
  | .fn ts t, .fn ts' t' => Ty.allSame ts ts' && t.same t'
  | _, _ => false

/-- Whether two lists hold types written alike. -/
def Ty.allSame : List Ty → List Ty → Bool
  | [], [] => true
  | t :: ts, t' :: ts' => t.same t' && Ty.allSame ts ts'
  | _, _ => false

end

mutual

/-- Primitive types are found to be the same exactly if they are equal. -/
theorem PrimTy.same_iff : (p q : PrimTy) → (p.same q = true ↔ p = q)
  | .int _, q => by cases q <;> simp [PrimTy.same]
  | .float _, q => by cases q <;> simp [PrimTy.same]
  | .ptr t, q => by cases q <;> simp [PrimTy.same, Ty.same_iff t]

/-- Types are found to be the same exactly if they are equal: type equality is structural. -/
theorem Ty.same_iff : (t u : Ty) → (t.same u = true ↔ t = u)
  | .void, u => by cases u <;> simp [Ty.same]
  | .prim p, u => by cases u <;> simp [Ty.same, PrimTy.same_iff p]
  | .vector _ p, u => by cases u <;> simp [Ty.same, PrimTy.same_iff p]
  | .array _ t, u => by cases u <;> simp [Ty.same, Ty.same_iff t]
  | .tuple ts, u => by cases u <;> simp [Ty.same, Ty.allSame_iff ts]
  | .fn ts t, u => by cases u <;> simp [Ty.same, Ty.allSame_iff ts, Ty.same_iff t]

theorem Ty.allSame_iff : (ts us : List Ty) → (Ty.allSame ts us = true ↔ ts = us)
  | [], us => by cases us <;> simp [Ty.allSame]
  | t :: ts, us => by cases us <;> simp [Ty.allSame, Ty.same_iff t, Ty.allSame_iff ts]

end

instance : DecidableEq Ty := fun t u => decidable_of_iff _ (Ty.same_iff t u)

instance : DecidableEq PrimTy := fun p q => decidable_of_iff _ (PrimTy.same_iff p q)

/-! ## Making and taking apart -/

namespace Ty

/-- The integer type of a width. -/
def int (width : Nat) : Ty := .prim (.int width)

/-- The floating-point type of a format. -/
def float (kind : FloatKind) : Ty := .prim (.float kind)

/-- The pointer type to a target. -/
def ptr (target : Ty) : Ty := .prim (.ptr target)

/-- The widest integer type has this many bits, the 23rd power of two. -/
def maxIntWidth : Nat := 1 <<< 23

/-- The width, if this is an integer type. -/
def intWidth? : Ty → Option Nat
  | .prim (.int width) => some width
  | _ => none

/-- Whether arithmetic applies: integers and floating-point numbers, no pointers. -/
def isNumeric : Ty → Bool
  | .prim (.int _) => true
  | .prim (.float _) => true
  | _ => false

/-- The target, if this is a pointer type. -/
def pointee? : Ty → Option Ty
  | .prim (.ptr target) => some target
  | _ => none

/-- The primitive type that this is, if it is one. -/
def prim? : Ty → Option PrimTy
  | .prim p => some p
  | _ => none

/-- Parameter types and result type, if this is a function type. -/
def signature? : Ty → Option (List Ty × Ty)
  | .fn params result => some (params, result)
  | _ => none

end Ty

end BranchIR
