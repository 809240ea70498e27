import BranchIR.Proofs.Parser.Writable

/-!
# The numbers in a type

A type holds the widths of its integer types and the lengths of its vectors and arrays. All of
them can be written in a source text when the widths are in range and the lengths are words.
-/

namespace BranchIR

open Text (maxWord)

mutual

/-- The widths of the integer types in a type, in the order of its text. -/
def PrimTy.widths : PrimTy → List Nat
  | .int width => [width]
  | .float _ => []
  | .ptr target => target.widths

/-- The widths of the integer types in a type, in the order of its text. -/
def Ty.widths : Ty → List Nat
  | .void => []
  | .prim p => p.widths
  | .vector _ lane => lane.widths
  | .array _ element => element.widths
  | .tuple fields => Ty.allWidths fields
  | .fn params result => Ty.allWidths params ++ result.widths

/-- The widths of the integer types in types of a list. -/
def Ty.allWidths : List Ty → List Nat
  | [] => []
  | t :: ts => t.widths ++ Ty.allWidths ts

end

mutual

/-- The lengths of the vectors and arrays in a type, in the order of its text. -/
def PrimTy.lengths : PrimTy → List Nat
  | .int _ | .float _ => []
  | .ptr target => target.lengths

/-- The lengths of the vectors and arrays in a type, in the order of its text. -/
def Ty.lengths : Ty → List Nat
  | .void => []
  | .prim p => p.lengths
  | .vector length lane => length :: lane.lengths
  | .array length element => length :: element.lengths
  | .tuple fields => Ty.allLengths fields
  | .fn params result => Ty.allLengths params ++ result.lengths

/-- The lengths of the vectors and arrays in types of a list. -/
def Ty.allLengths : List Ty → List Nat
  | [] => []
  | t :: ts => t.lengths ++ Ty.allLengths ts

end

namespace Ty

private theorem allWidths_eq (ts : List Ty) : allWidths ts = ts.flatMap widths := by
  induction ts with
  | nil => rfl
  | cons t ts ih => rw [allWidths, ih, List.flatMap_cons]

private theorem allLengths_eq (ts : List Ty) : allLengths ts = ts.flatMap lengths := by
  induction ts with
  | nil => rfl
  | cons t ts ih => rw [allLengths, ih, List.flatMap_cons]

/-- All integer types in the type have a width that integer types may have. -/
def WidthsFit (ty : Ty) : Prop := ∀ width ∈ ty.widths, 1 ≤ width ∧ width ≤ maxIntWidth

/-- No vector and no array in the type is longer than the bound. -/
def LengthsWithin (bound : Nat) (ty : Ty) : Prop := ∀ length ∈ ty.lengths, length ≤ bound

/-- The widths in the type are in range, and its lengths are within the bound. -/
structure Sized (bound : Nat) (ty : Ty) : Prop where
  widths : ty.WidthsFit
  lengths : ty.LengthsWithin bound

section Sized

variable {bound n : Nat} {ty : Ty} {lane : PrimTy} {tys : List Ty}

/-- The width of an integer has bounds of its own, whatever bounds the lengths. -/
@[simp] theorem sized_int {width : Nat} :
    (int width).Sized bound ↔ 1 ≤ width ∧ width ≤ maxIntWidth := by
  constructor
  · exact fun h => h.widths width (List.mem_singleton_self _)
  · exact fun h => ⟨List.forall_mem_singleton.2 h, List.forall_mem_nil _⟩

@[simp] theorem sized_void : void.Sized bound := ⟨List.forall_mem_nil _, List.forall_mem_nil _⟩

@[simp] theorem sized_float {kind : FloatKind} : (float kind).Sized bound :=
  ⟨List.forall_mem_nil _, List.forall_mem_nil _⟩

/-- The numbers in a pointer type are those of its target. -/
@[simp] theorem sized_ptr : (ptr ty).Sized bound ↔ ty.Sized bound :=
  ⟨fun h => ⟨h.widths, h.lengths⟩, fun h => ⟨h.widths, h.lengths⟩⟩

/-- A vector has a length of its own and the numbers of its lanes. -/
@[simp] theorem sized_vector :
    (vector n lane).Sized bound ↔ n ≤ bound ∧ (prim lane).Sized bound := by
  constructor
  · intro h
    obtain ⟨hn, hlengths⟩ := List.forall_mem_cons.1 h.lengths
    exact ⟨hn, h.widths, hlengths⟩
  · exact fun ⟨hn, h⟩ => ⟨h.widths, List.forall_mem_cons.2 ⟨hn, h.lengths⟩⟩

/-- An array has a length of its own and the numbers of its elements. -/
@[simp] theorem sized_array : (array n ty).Sized bound ↔ n ≤ bound ∧ ty.Sized bound := by
  constructor
  · intro h
    obtain ⟨hn, hlengths⟩ := List.forall_mem_cons.1 h.lengths
    exact ⟨hn, h.widths, hlengths⟩
  · exact fun ⟨hn, h⟩ => ⟨h.widths, List.forall_mem_cons.2 ⟨hn, h.lengths⟩⟩

/-- A tuple has the numbers of its fields. -/
@[simp] theorem sized_tuple : (tuple tys).Sized bound ↔ ∀ t ∈ tys, t.Sized bound := by
  constructor
  · intro ⟨hwidths, hlengths⟩ t ht
    rw [WidthsFit, Ty.widths, allWidths_eq] at hwidths
    rw [LengthsWithin, Ty.lengths, allLengths_eq] at hlengths
    exact ⟨fun w hw => hwidths w (List.mem_flatMap.2 ⟨t, ht, hw⟩),
      fun n hn => hlengths n (List.mem_flatMap.2 ⟨t, ht, hn⟩)⟩
  · intro h
    refine ⟨fun w hw => ?_, fun n hn => ?_⟩
    · rw [Ty.widths, allWidths_eq, List.mem_flatMap] at hw
      obtain ⟨t, ht, hw⟩ := hw
      exact (h t ht).widths w hw
    · rw [Ty.lengths, allLengths_eq, List.mem_flatMap] at hn
      obtain ⟨t, ht, hn⟩ := hn
      exact (h t ht).lengths n hn

/-- The numbers in a function type are those of its parameters, as of the fields of a tuple, and
    those of its result. -/
@[simp] theorem sized_fn :
    (fn tys ty).Sized bound ↔ (∀ t ∈ tys, t.Sized bound) ∧ ty.Sized bound := by
  rw [← sized_tuple]
  constructor
  · intro ⟨hwidths, hlengths⟩
    obtain ⟨hparams, hresult⟩ := List.forall_mem_append.1 hwidths
    obtain ⟨hparams', hresult'⟩ := List.forall_mem_append.1 hlengths
    exact ⟨⟨hparams, hparams'⟩, hresult, hresult'⟩
  · intro ⟨hparams, hresult⟩
    exact ⟨List.forall_mem_append.2 ⟨hparams.widths, hresult.widths⟩,
      List.forall_mem_append.2 ⟨hparams.lengths, hresult.lengths⟩⟩

/-- What is bounded is bounded by a higher bound. -/
theorem Sized.mono {bound' : Nat} (h : ty.Sized bound) (hle : bound ≤ bound') : ty.Sized bound' :=
  ⟨h.widths, fun n hn => Nat.le_trans (h.lengths n hn) hle⟩

end Sized

end Ty

mutual

theorem PrimTy.writable_iff_sized : (p : PrimTy) → (p.Writable ↔ (Ty.prim p).Sized maxWord)
  | .int _ => Ty.sized_int.symm
  | .float _ => iff_of_true trivial Ty.sized_float
  | .ptr target => target.writable_iff_sized.trans Ty.sized_ptr.symm

/-- The numbers in a type can be written when its widths are in range and its lengths are words. -/
theorem Ty.writable_iff_sized : (ty : Ty) → (ty.Writable ↔ ty.Sized maxWord)
  | .void => iff_of_true trivial Ty.sized_void
  | .prim p => p.writable_iff_sized
  | .vector _ lane => by rw [Ty.Writable, lane.writable_iff_sized, Ty.sized_vector]
  | .array _ element => by rw [Ty.Writable, element.writable_iff_sized, Ty.sized_array]
  | .tuple fields => by rw [Ty.Writable, Ty.allWritable_iff_sized fields, Ty.sized_tuple]
  | .fn params result => by
    rw [Ty.Writable, Ty.allWritable_iff_sized params, result.writable_iff_sized, Ty.sized_fn]

/-- The same for the types of a list. -/
private theorem Ty.allWritable_iff_sized :
    (tys : List Ty) → (Ty.AllWritable tys ↔ ∀ t ∈ tys, t.Sized maxWord)
  | [] => by simp [Ty.AllWritable]
  | t :: ts => by
    rw [Ty.AllWritable, t.writable_iff_sized, Ty.allWritable_iff_sized ts, List.forall_mem_cons]

end

end BranchIR
