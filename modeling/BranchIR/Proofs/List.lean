import Mathlib.Data.List.Basic

/-!
# List lemmas

What is used of lists in general, beside the library.
-/

namespace List

variable {α : Type}

/-- As many elements as a test takes off the front are those that it takes. -/
theorem take_length_takeWhile (p : α → Bool) (xs : List α) :
    xs.take (xs.takeWhile p).length = xs.takeWhile p := by
  have hfront : xs.takeWhile p <+: xs := takeWhile_prefix p
  exact (prefix_iff_eq_take.1 hfront).symm

/-- Without as many elements as a test takes off the front, those are left that it leaves. -/
theorem drop_length_takeWhile {p : α → Bool} (xs : List α) :
    xs.drop (xs.takeWhile p).length = xs.dropWhile p := by
  induction xs with
  | nil => rfl
  | cons x xs ih =>
    cases hx : p x with
    | true => simpa [hx] using ih
    | false => simp [hx]

/-- What a test takes off the front ends at the first element that it refuses. -/
theorem takeWhile_append_cons_of_neg {p : α → Bool} {x : α} {xs ys : List α} (hx : p x = false) :
    (xs ++ x :: ys).takeWhile p = xs.takeWhile p := by
  induction xs with
  | nil => simp [hx]
  | cons y ys ih => simp only [cons_append, takeWhile_cons, ih]

/-- A test that accepts all that another one does, and one element more, counts more of them. -/
theorem countP_lt_countP {p q : α → Bool} {xs : List α} (hle : ∀ x ∈ xs, p x = true → q x = true)
    (hex : ∃ x ∈ xs, q x = true ∧ p x = false) : xs.countP p < xs.countP q := by
  induction xs with
  | nil => simp at hex
  | cons x xs ih =>
    obtain ⟨hx, hxs⟩ := forall_mem_cons.1 hle
    obtain ⟨y, hy, hqy, hpy⟩ := hex
    have hrest := countP_mono_left hxs
    rw [countP_cons, countP_cons]
    rcases mem_cons.1 hy with rfl | hy
    · -- the new one is the first
      simp only [hqy, hpy, if_true, Bool.false_eq_true, if_false]
      omega
    · have hlt := ih hxs ⟨y, hy, hqy, hpy⟩
      cases hpx : p x with
      | true =>
        simp only [hx hpx, if_true]
        omega
      | false =>
        simp only [Bool.false_eq_true, if_false]
        omega

/-- Where one list is cut in two ways, the last element of the second cut is in the rest of the
    first, unless it is the element at the first cut. -/
theorem exists_eq_concat_of_append_cons {above below up : List α} {b c : α}
    (h : above ++ b :: below = up ++ [c]) (hne : b ≠ c) : ∃ between, below = between ++ [c] := by
  rcases eq_nil_or_concat below with rfl | ⟨between, last, rfl⟩
  · -- with nothing below, `b` itself would be the last
    exact absurd (cons.inj (append_inj' h rfl).2).1 hne
  · rw [concat_eq_append, ← cons_append, ← append_assoc] at h
    exact ⟨between, by rw [concat_eq_append, (append_inj' h rfl).2]⟩

end List
