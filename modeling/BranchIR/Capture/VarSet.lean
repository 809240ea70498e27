import BranchIR.Exp.Basic

/-! # Sets of variables

A set is the strictly ascending list of its identities, so equal sets are equal lists and
a listing comes out in order. Each operation has one lemma that says what its result
holds. -/

namespace BranchIR

/-- A finite set of identities. -/
structure VarSet where
  ids : List VarId
  ascending : ids.Pairwise (· < ·)
  deriving DecidableEq

namespace VarSet

instance : Membership VarId VarSet := ⟨fun s x => x ∈ s.ids⟩

instance (x : VarId) (s : VarSet) : Decidable (x ∈ s) := inferInstanceAs (Decidable (x ∈ s.ids))

theorem mem_def {x : VarId} {s : VarSet} : x ∈ s ↔ x ∈ s.ids := Iff.rfl

/-- The empty set. -/
def empty : VarSet := ⟨[], .nil⟩

instance : Inhabited VarSet := ⟨empty⟩

@[simp] theorem not_mem_empty (x : VarId) : x ∉ empty := by simp [mem_def, empty]

/-- Whether the set holds nothing. -/
def isEmpty (s : VarSet) : Bool := s.ids.isEmpty

/-- A set is empty if it has no member. -/
theorem isEmpty_iff {s : VarSet} : s.isEmpty = true ↔ ∀ x, x ∉ s := by
  simp [isEmpty, mem_def, List.eq_nil_iff_forall_not_mem]

/-- Puts an identity in its place in an ascending list. -/
def place (x : VarId) : List VarId → List VarId
  | [] => [x]
  | y :: ys => if x < y then x :: y :: ys else if x = y then y :: ys else y :: place x ys

/-- Placing an element adds it and nothing else. -/
theorem mem_place {x z : VarId} {ys : List VarId} : z ∈ place x ys ↔ z = x ∨ z ∈ ys := by
  induction ys with
  | nil => simp [place]
  | cons y ys ih =>
    rw [place]
    split
    · simp
    · split
      · next h => simp [h]
      · simp only [List.mem_cons, ih]
        exact or_left_comm

/-- Placing keeps an ascending list ascending: the element goes in front of the first that is
    greater, and an element that is there already is not put in again. -/
theorem pairwise_place (x : VarId) {ys : List VarId} (h : ys.Pairwise (· < ·)) :
    (place x ys).Pairwise (· < ·) := by
  induction ys with
  | nil => simp [place]
  | cons y ys ih =>
    obtain ⟨hy, hys⟩ := List.pairwise_cons.1 h
    rw [place]
    split
    · next hlt =>
      refine List.pairwise_cons.2 ⟨fun z hz => ?_, h⟩
      rcases List.mem_cons.1 hz with rfl | hz
      · exact hlt
      · exact Nat.lt_trans hlt (hy z hz)
    · split
      · exact h
      · next hlt hne =>
        refine List.pairwise_cons.2 ⟨fun z hz => ?_, ih hys⟩
        rcases mem_place.1 hz with rfl | hz
        · exact Nat.lt_of_le_of_ne (Nat.not_lt.1 hlt) (Ne.symm hne)
        · exact hy z hz

/-- Adds an identity. -/
def insert (x : VarId) (s : VarSet) : VarSet := ⟨place x s.ids, pairwise_place x s.ascending⟩

@[simp] theorem mem_insert {x z : VarId} {s : VarSet} : z ∈ s.insert x ↔ z = x ∨ z ∈ s :=
  mem_place

/-- The set of the identities in a list. -/
def ofList (xs : List VarId) : VarSet := xs.foldr insert empty

/-- The set of a list has the elements of the list, whatever their order. -/
@[simp] theorem mem_ofList {z : VarId} {xs : List VarId} : z ∈ ofList xs ↔ z ∈ xs := by
  induction xs with
  | nil => simp [ofList]
  | cons x xs ih => simpa [ofList] using or_congr_right ih

/-- What is in either set. -/
def union (s t : VarSet) : VarSet := s.ids.foldr insert t

/-- A union has the elements of both sets. -/
@[simp] theorem mem_union {z : VarId} {s t : VarSet} : z ∈ s.union t ↔ z ∈ s ∨ z ∈ t := by
  obtain ⟨xs, h⟩ := s
  suffices z ∈ xs.foldr insert t ↔ z ∈ xs ∨ z ∈ t from this
  clear h
  induction xs with
  | nil => simp
  | cons x xs ih => simp [ih, or_assoc]

/-- What is in the set and satisfies the test. -/
def filter (s : VarSet) (p : VarId → Bool) : VarSet := ⟨s.ids.filter p, s.ascending.filter p⟩

/-- A filter keeps the elements that pass the test. -/
@[simp] theorem mem_filter {z : VarId} {s : VarSet} {p : VarId → Bool} :
    z ∈ s.filter p ↔ z ∈ s ∧ p z = true :=
  List.mem_filter

/-- Two sets that hold the same identities are the same. -/
theorem ext {s t : VarSet} (h : ∀ x, x ∈ s ↔ x ∈ t) : s = t := by
  obtain ⟨xs, hxs⟩ := s
  obtain ⟨ys, hys⟩ := t
  congr
  exact List.Perm.eq_of_pairwise (fun a b _ _ hab hba => absurd hab (Nat.lt_asymm hba)) hxs hys
    ((List.perm_ext_iff_of_nodup (hxs.imp Nat.ne_of_lt) (hys.imp Nat.ne_of_lt)).2 h)

end VarSet

end BranchIR
