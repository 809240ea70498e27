/-! # Byte offsets into text

Places in a text are counted in bytes of its UTF-8 form. `byteCount` measures a text and
`splitAtByte?` cuts it; `splitAtByte?_eq_some_iff` says that the cut succeeds exactly at
the boundaries between characters. -/

namespace BranchIR.Text

/-- The number of bytes of the UTF-8 form. -/
def byteCount : List Char → Nat
  | [] => 0
  | c :: cs => c.utf8Size + byteCount cs

@[simp] theorem byteCount_nil : byteCount [] = 0 := rfl

@[simp] theorem byteCount_cons (c : Char) (cs : List Char) :
    byteCount (c :: cs) = c.utf8Size + byteCount cs := rfl

/-- The bytes of two texts add up. -/
@[simp] theorem byteCount_append (as bs : List Char) :
    byteCount (as ++ bs) = byteCount as + byteCount bs := by
  induction as with
  | nil => simp
  | cons c cs ih => simp [ih, Nat.add_assoc]

/-- The text before and after the byte offset. There is none past the end of the text or
    inside one of its characters. -/
def splitAtByte? : List Char → Nat → Option (List Char × List Char)
  | cs, 0 => some ([], cs)
  | [], _ + 1 => none
  | c :: cs, n + 1 =>
    -- an offset smaller than the character lies inside it
    if c.utf8Size ≤ n + 1 then
      (splitAtByte? cs (n + 1 - c.utf8Size)).map fun (before, after) => (c :: before, after)
    else none

/-- After as many bytes as the first part has, the text is cut into its two parts. -/
theorem splitAtByte?_byteCount (as bs : List Char) :
    splitAtByte? (as ++ bs) (byteCount as) = some (as, bs) := by
  induction as with
  | nil => cases bs <;> rfl
  | cons c cs ih =>
    -- every character has a byte, so the offset is not 0 and the third equation applies
    obtain ⟨n, hn⟩ : ∃ n, byteCount (c :: cs) = n + 1 :=
      ⟨_, (Nat.succ_pred_eq_of_pos (Nat.add_pos_left c.utf8Size_pos _)).symm⟩
    rw [hn, List.cons_append, splitAtByte?, ← hn]
    simp [ih]

/-- A cut puts together again, and the first part has as many bytes as were asked for. -/
theorem eq_of_splitAtByte?_eq_some {cs as bs : List Char} {n : Nat}
    (h : splitAtByte? cs n = some (as, bs)) : cs = as ++ bs ∧ n = byteCount as := by
  fun_induction splitAtByte? cs n generalizing as bs with
  | case1 cs => simp_all
  | case2 => simp at h
  | case3 c cs n hle ih =>
    obtain ⟨⟨x, y⟩, hxy, heq⟩ := Option.map_eq_some_iff.1 h
    obtain ⟨rfl, rfl⟩ : c :: x = as ∧ y = bs := by simpa using heq
    obtain ⟨rfl, hn⟩ := ih hxy
    exact ⟨rfl, by simp only [byteCount_cons]; omega⟩
  | case4 => simp at h

/-- A cut succeeds exactly where one part of the text ends and the rest begins. -/
theorem splitAtByte?_eq_some_iff {cs as bs : List Char} {n : Nat} :
    splitAtByte? cs n = some (as, bs) ↔ cs = as ++ bs ∧ n = byteCount as :=
  ⟨eq_of_splitAtByte?_eq_some, fun ⟨h, hn⟩ => h ▸ hn ▸ splitAtByte?_byteCount as bs⟩

end BranchIR.Text
