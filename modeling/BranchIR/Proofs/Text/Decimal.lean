import BranchIR.Text.Decimal

/-!
# Decimal numbers are read as they are written

The digits that are written for a number are read back as the number, so a number within the
range asked for survives, and numbers that are written alike are equal.
-/

namespace BranchIR.Text

@[simp] theorem toList_natText (n : Nat) : (natText n).toList = Nat.toDigits 10 n := by
  rw [natText, String.toList_ofList]

/-- A number is written in digits. -/
theorem isDigit_of_mem_natText {n : Nat} {c : Char} (h : c ∈ (natText n).toList) :
    c.isDigit = true := by
  rw [toList_natText] at h
  exact Nat.isDigit_of_mem_toDigits (by decide) (by decide) h

/-- A number is written in one digit at least. -/
theorem natText_ne_nil (n : Nat) : (natText n).toList ≠ [] := by
  rw [toList_natText]
  exact Nat.toDigits_ne_nil

/-! ## Natural numbers -/

/-- Digits are read as the number that they write. -/
theorem digitsFrom?_of_isDigit {acc : Nat} {cs : List Char} (h : ∀ c ∈ cs, c.isDigit = true) :
    digitsFrom? acc cs = some (Nat.ofDigitChars 10 cs acc) := by
  induction cs generalizing acc with
  | nil => simp [digitsFrom?]
  | cons c cs ih =>
    obtain ⟨hc, hcs⟩ := List.forall_mem_cons.1 h
    rw [digitsFrom?, if_pos hc, ih hcs, Nat.ofDigitChars_cons, Nat.mul_comm]

/-- The digits of a number are read as the number. -/
private theorem digits?_natText (n : Nat) : digits? (natText n).toList = some n := by
  have hread := @digitsFrom?_of_isDigit 0 _ fun c hc => @isDigit_of_mem_natText n c hc
  -- there is a first digit, so the run of digits is not refused as empty
  cases hcs : (natText n).toList with
  | nil => exact absurd hcs (natText_ne_nil n)
  | cons c cs =>
    rw [digits?, ← hcs, hread, toList_natText, Nat.ofDigitChars_ten_toDigits]

/-- Digits have no plus sign in front of them. -/
theorem dropPlus_of_isDigit {cs : List Char} (h : ∀ c ∈ cs, c.isDigit = true) :
    dropPlus cs = cs := by
  unfold dropPlus
  split
  · next ds =>
    have hplus := h '+' (List.mem_cons_self ..)
    exact absurd hplus (by decide)
  · rfl

/-- The digits that are written for a number have no sign. -/
private theorem dropPlus_natText (n : Nat) : dropPlus (natText n).toList = (natText n).toList :=
  dropPlus_of_isDigit fun _ hc => isDigit_of_mem_natText hc

/-- A number that is not too large is read back. -/
theorem natUpTo?_natText {max n : Nat} (h : n ≤ max) :
    natUpTo? max (natText n).toList = some n := by
  rw [natUpTo?, dropPlus_natText, digits?_natText]
  simpa using h

/-- A word is read back from its text. -/
theorem word?_natText {n : Nat} (h : n ≤ maxWord) : word? (natText n) = some n :=
  natUpTo?_natText h

/-- Numbers that are written alike are equal. -/
theorem natText_injective {m n : Nat} (h : natText m = natText n) : m = n := by
  have hread := digits?_natText m
  rw [h, digits?_natText] at hread
  exact (Option.some.inj hread).symm

/-! ## Integers -/

/-- The characters of an integer are the digits of its absolute value, after a minus sign if it
    is negative. -/
theorem toList_intText (v : Int) :
    (intText v).toList = (if v < 0 then ['-'] else []) ++ (natText v.natAbs).toList := by
  cases v with
  | ofNat n => simp [intText]
  | negSucc n => simp [intText, Int.negSucc_lt_zero, String.toList_append]

/-- A number between the bounds is read back from its text. -/
private theorem intWithin?_intText {low high v : Int} (hlow : low ≤ v) (hhigh : v ≤ high) :
    intWithin? low high (intText v).toList = some v := by
  rw [toList_intText]
  have hread := digits?_natText v.natAbs
  by_cases hv : v < 0
  · have habs : -(v.natAbs : Int) = v := by omega
    rw [if_pos hv, List.singleton_append]
    unfold intWithin?
    simp only [hread]
    simpa using And.intro habs (And.intro hlow hhigh)
  · have habs : (v.natAbs : Int) = v := by omega
    rw [if_neg hv, List.nil_append]
    unfold intWithin?
    split
    · next ds heq =>
      -- the first character is a digit, so it is no sign
      have hdigit := @isDigit_of_mem_natText v.natAbs '-' (by simp [heq])
      exact absurd hdigit (by decide)
    · simp only [dropPlus_natText, hread]
      simpa using And.intro habs (And.intro hlow hhigh)

/-- An integer that fits 128 bits is read back. -/
theorem wideInt?_intText {v : Int} (hlow : -maxWideInt - 1 ≤ v) (hhigh : v ≤ maxWideInt) :
    wideInt? (intText v) = some v :=
  intWithin?_intText hlow hhigh

/-- What is read as a 128-bit integer is one. -/
theorem wideInt?_bounds {text : String} {v : Int} (h : wideInt? text = some v) :
    -maxWideInt - 1 ≤ v ∧ v ≤ maxWideInt := by
  unfold wideInt? intWithin? at h
  rw [Option.filter_eq_some_iff] at h
  simpa using h.2

/-! ## Characters -/

/-- Only digits are read as a number. -/
private theorem isDigit_of_digitsFrom? {acc n : Nat} {cs : List Char}
    (h : digitsFrom? acc cs = some n) : ∀ c ∈ cs, c.isDigit = true := by
  induction cs generalizing acc with
  | nil => simp
  | cons c cs ih =>
    rw [digitsFrom?] at h
    split at h
    · next hc => exact List.forall_mem_cons.2 ⟨hc, ih h⟩
    · cases h

/-- Only digits are read as a number. -/
private theorem isDigit_of_digits? {n : Nat} {cs : List Char} (h : digits? cs = some n) :
    ∀ c ∈ cs, c.isDigit = true := by
  cases cs with
  | nil => simp
  | cons c cs => exact isDigit_of_digitsFrom? h

/-- What is dropped from the front of a text is a `+`. -/
private theorem mem_of_mem_dropPlus {c : Char} {cs : List Char} (h : c ∈ cs) :
    c = '+' ∨ c ∈ dropPlus cs := by
  unfold dropPlus
  split
  · exact List.mem_cons.1 h
  · exact .inr h

/-- What is read as an integer is made of digits and a sign. -/
theorem wideInt?_chars {text : String} {v : Int} (h : wideInt? text = some v) :
    ∀ c ∈ text.toList, c = '-' ∨ c = '+' ∨ c.isDigit = true := by
  -- the digits that are read, behind a sign or from the first character on
  have hread {ds : List Char} (hsome : digits? ds ≠ none) : ∀ c ∈ ds, c.isDigit = true := by
    obtain ⟨n, hn⟩ := Option.ne_none_iff_exists'.1 hsome
    exact isDigit_of_digits? hn
  unfold wideInt? intWithin? at h
  obtain ⟨hvalue, -⟩ := Option.filter_eq_some_iff.1 h
  intro c hc
  split at hvalue
  · next ds heq =>
    rw [heq] at hc
    refine (List.mem_cons.1 hc).imp id fun hds => .inr (hread ?_ c hds)
    intro hnone
    simp [hnone] at hvalue
  · refine .inr ((mem_of_mem_dropPlus hc).imp id (hread ?_ c))
    intro hnone
    simp [hnone] at hvalue

/-- Only words are read as words. -/
theorem word?_le {text : String} {n : Nat} (h : word? text = some n) : n ≤ maxWord := by
  rw [word?, natUpTo?, Option.filter_eq_some_iff] at h
  simpa using h.2

end BranchIR.Text
