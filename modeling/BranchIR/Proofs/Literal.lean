import Mathlib.Algebra.Order.Ring.Int
import Mathlib.Data.Int.ModEq
import BranchIR.Literal

/-!
# Which values fit a width

A value fits a width when it is among the signed or the unsigned numbers of so many bits. A machine
value has one number in each reading, so two numbers that fit stand for one machine value exactly
if one of them is its signed and the other its unsigned reading, which are a power of two apart.

The bounds of a width are computed in the arithmetic that the values belong to, which has 128 bits.
The upper bound of 127 bits would leave it on the way, and so would the powers of two from 127 on;
the widths for which they would be needed are decided without them.
-/

namespace BranchIR

open Text (maxWideInt)

/-- Of the 128-bit integers, those fit a width that the signed or the unsigned numbers of so many
    bits contain, if integer types have the width. -/
theorem fits_iff {value : Int} {width : Nat}
    (hwide : -maxWideInt - 1 ≤ value ∧ value ≤ maxWideInt) :
    fits value width = true ↔
      (1 ≤ width ∧ width ≤ 2 ^ 23) ∧ -2 ^ (width - 1) ≤ value ∧ value ≤ 2 ^ width - 1 := by
  have hmax : Ty.maxIntWidth = 2 ^ 23 := by decide
  have hwide' : -2 ^ 127 ≤ value ∧ value ≤ 2 ^ 127 - 1 := hwide
  unfold fits
  split
  · next hout =>
    rw [hmax] at hout
    -- no width out of bounds holds a value
    simp only [Bool.false_eq_true, false_iff]
    omega
  · next hin =>
    rw [hmax] at hin
    split
    · next hbig =>
      -- 128-bit integers are within the bounds of every width from 128 on
      have hlow : (2 : Int) ^ 127 ≤ 2 ^ (width - 1) :=
        pow_le_pow_right₀ (by decide) (by omega)
      have hhigh : (2 : Int) ^ 128 ≤ 2 ^ width := pow_le_pow_right₀ (by decide) hbig
      simp only [true_iff]
      omega
    · next hsmall =>
      simp only [Bool.and_eq_true, decide_eq_true_eq, Nat.one_shiftLeft, Nat.cast_pow,
        Nat.cast_ofNat]
      split
      · next h127 =>
        -- at 127 bits the upper bound is that of the 128-bit integers
        subst h127
        change _ ∧ value ≤ 2 ^ 127 - 1 ↔ _
        omega
      · omega

/-- Two integers are one machine value when they are congruent. -/
private theorem ofInt_eq_ofInt_iff {width : Nat} {a b : Int} :
    BitVec.ofInt width a = BitVec.ofInt width b ↔ a ≡ b [ZMOD 2 ^ width] := by
  have hpos : (0 : Int) < 2 ^ width := Int.pow_pos (by decide)
  rw [← BitVec.toNat_inj, BitVec.toNat_ofInt, BitVec.toNat_ofInt, Int.ModEq]
  push_cast
  have ha := Int.emod_nonneg a hpos.ne'
  have hb := Int.emod_nonneg b hpos.ne'
  omega

/-- Of two different values that fit, the smaller one is the signed and the other the unsigned
    reading of the same bits, or they are different machine values. -/
theorem ofInt_eq_ofInt_iff_of_fits {a b : Int} {width : Nat}
    (ha : -maxWideInt - 1 ≤ a ∧ a ≤ maxWideInt) (hb : -maxWideInt - 1 ≤ b ∧ b ≤ maxWideInt)
    (hfa : fits a width = true) (hfb : fits b width = true) (hlt : a < b) :
    BitVec.ofInt width a = BitVec.ofInt width b ↔ b = a + 2 ^ width := by
  obtain ⟨⟨hwidth, -⟩, hlow, -⟩ := (fits_iff ha).1 hfa
  obtain ⟨-, -, hhigh⟩ := (fits_iff hb).1 hfb
  rw [ofInt_eq_ofInt_iff, Int.modEq_iff_dvd]
  constructor
  · rintro ⟨k, hk⟩
    have hpos : (0 : Int) < 2 ^ width := Int.pow_pos (by decide)
    have hhalf : (2 : Int) ^ width = 2 * 2 ^ (width - 1) := by
      rw [← pow_succ', Nat.sub_add_cancel hwidth]
    -- the values differ, but by less than two periods
    have hone : 0 < k := Int.lt_of_mul_lt_mul_left (a := 2 ^ width) (by omega) hpos.le
    have htwo : k < 2 := Int.lt_of_mul_lt_mul_left (a := 2 ^ width) (by omega) hpos.le
    obtain rfl : k = 1 := by omega
    omega
  · rintro rfl
    simp

/-! ## In 128-bit arithmetic -/

namespace Wide

/-- The result of a step, unless the step leaves the 128-bit integers. -/
def result? (v : Int) : Option Int :=
  if -maxWideInt - 1 ≤ v ∧ v ≤ maxWideInt then some v else none

/-- Shifts to the left. There are 128 places to shift by, counting none. -/
def shiftLeft? (v : Int) (places : Nat) : Option Int :=
  if places < 128 then result? (v * 2 ^ places) else none

def neg? (v : Int) : Option Int := result? (-v)

def sub? (v w : Int) : Option Int := result? (v - w)

/-- One less than a word; there is no word below zero. -/
def pred? (n : Nat) : Option Nat := if n = 0 then none else some (n - 1)

/-- Whether the value fits so many bits, with every step taken in 128-bit arithmetic. There is no
    answer once a step has left it. -/
def fits? (value : Int) (width : Nat) : Option Bool := do
  if width = 0 ∨ Ty.maxIntWidth < width then return false
  if 128 ≤ width then return true
  let lowest ← neg? (← shiftLeft? 1 (← pred? width))
  let highest ← if width = 127 then pure maxWideInt else sub? (← shiftLeft? 1 width) 1
  return lowest ≤ value && value ≤ highest

/-- The powers of two that are needed are at most half of the first integer that is too large. -/
private theorem two_pow_bounds {places : Nat} (h : places < 127) :
    0 < (2 : Int) ^ places ∧ (2 : Int) ^ places ≤ 2 ^ 126 :=
  ⟨Int.pow_pos (by decide), pow_le_pow_right₀ (by decide) (by omega)⟩

/-- A result within the bounds of 128 bits is kept. -/
private theorem result?_of_bounds {v : Int} (h : -2 ^ 127 ≤ v ∧ v ≤ 2 ^ 127 - 1) :
    result? v = some v :=
  if_pos h

/-- Powers of two below the sign bit are within the bounds. -/
private theorem shiftLeft?_one {places : Nat} (h : places < 127) :
    shiftLeft? 1 places = some (2 ^ places) := by
  have hbounds := two_pow_bounds h
  unfold shiftLeft?
  rw [if_pos (by omega), one_mul]
  exact result?_of_bounds (by omega)

/-- The negative of such a power is within the bounds. -/
private theorem neg?_two_pow {places : Nat} (h : places < 127) :
    neg? (2 ^ places) = some (-2 ^ places) := by
  have hbounds := two_pow_bounds h
  exact result?_of_bounds (by omega)

/-- One less than such a power is within the bounds. -/
private theorem sub?_two_pow_one {places : Nat} (h : places < 127) :
    sub? (2 ^ places) 1 = some (2 ^ places - 1) := by
  have hbounds := two_pow_bounds h
  exact result?_of_bounds (by omega)

/-- One place more, and the shift would leave the 128-bit integers. -/
example : shiftLeft? 1 127 = none := by decide

/-- No step leaves the 128-bit integers, so the answer is that of unbounded arithmetic. -/
private theorem fits?_eq (value : Int) (width : Nat) :
    fits? value width = some (fits value width) := by
  unfold fits? fits
  by_cases hout : width = 0 ∨ Ty.maxIntWidth < width
  · simp [hout]
  by_cases hbig : 128 ≤ width
  · simp [hout, hbig]
  have hpred : pred? width = some (width - 1) := if_neg (by omega)
  have hshift := @shiftLeft?_one (width - 1) (by omega)
  have hneg := @neg?_two_pow (width - 1) (by omega)
  simp only [if_neg hout, if_neg hbig, hpred, hshift, hneg, Option.bind_eq_bind, Option.bind_some,
    Option.pure_def, Nat.one_shiftLeft, Nat.cast_pow, Nat.cast_ofNat]
  by_cases h127 : width = 127
  · -- the upper bound is no power of two less one here, but the greatest integer that there is
    simp only [if_pos h127]
  · have hwidth : width < 127 := by omega
    simp only [if_neg h127, shiftLeft?_one hwidth, sub?_two_pow_one hwidth, Option.bind_some]

end Wide

/-- A 128-bit integer fits a width exactly if integer types have the width, and the signed or the
    unsigned numbers of so many bits contain the integer. Computing this, no step leaves the
    128-bit integers, whatever the width. -/
theorem fits_exact {value : Int} {width : Nat}
    (hwide : -maxWideInt - 1 ≤ value ∧ value ≤ maxWideInt) :
    Wide.fits? value width = some (fits value width) ∧
      (fits value width = true ↔
        (1 ≤ width ∧ width ≤ 2 ^ 23) ∧ -2 ^ (width - 1) ≤ value ∧ value ≤ 2 ^ width - 1) :=
  ⟨Wide.fits?_eq value width, fits_iff hwide⟩

/-- The least value of 127 bits. The one below it is a 128-bit integer too, but does not fit. -/
theorem fits_exact_least127 :
    (-maxWideInt - 1 ≤ -2 ^ 126 ∧ -2 ^ 126 ≤ maxWideInt) ∧
      Wide.fits? (-2 ^ 126) 127 = some true ∧ Wide.fits? (-2 ^ 126 - 1) 127 = some false := by
  have hwide : -maxWideInt - 1 ≤ -2 ^ 126 ∧ -2 ^ 126 ≤ maxWideInt := by decide
  have hbelow : -maxWideInt - 1 ≤ -2 ^ 126 - 1 ∧ -2 ^ 126 - 1 ≤ maxWideInt := by decide
  obtain ⟨heq, hiff⟩ := @fits_exact (-2 ^ 126) 127 hwide
  obtain ⟨heqBelow, hiffBelow⟩ := @fits_exact (-2 ^ 126 - 1) 127 hbelow
  refine ⟨hwide, ?_, ?_⟩
  · rw [heq, hiff.2 (by decide)]
  · have hnot : fits (-2 ^ 126 - 1) 127 ≠ true := fun h => absurd (hiffBelow.1 h) (by decide)
    rw [heqBelow, Bool.eq_false_iff.2 hnot]

end BranchIR
