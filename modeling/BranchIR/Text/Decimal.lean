/-! # Decimal numbers

Numbers are read from words made of ASCII digits. A plus sign may stand in front, and a minus
sign where negative values are allowed. A value outside the range asked for is no number at
all. Numbers are written without leading zeros and without a plus sign. -/

namespace BranchIR.Text

/-- The value of a run of digits, most significant first, continuing from `acc`. -/
def digitsFrom? (acc : Nat) : List Char → Option Nat
  | [] => some acc
  | c :: cs => if c.isDigit then digitsFrom? (acc * 10 + (c.toNat - '0'.toNat)) cs else none

/-- The value of a text of one or more digits. -/
def digits? : List Char → Option Nat
  | [] => none
  | c :: cs => digitsFrom? 0 (c :: cs)

/-- The text without a plus sign in front. A sign with no digits after it is no number, and
    neither are two signs. -/
def dropPlus : List Char → List Char
  | '+' :: cs => cs
  | cs => cs

/-- Reads a natural number that is at most `max`; a plus sign may stand in front. -/
def natUpTo? (max : Nat) (text : List Char) : Option Nat :=
  (digits? (dropPlus text)).filter (· ≤ max)

/-- Reads an integer from `low` to `high`; a sign may stand in front. -/
def intWithin? (low high : Int) (text : List Char) : Option Int :=
  let value? : Option Int :=
    match text with
    | '-' :: ds => (digits? ds).map fun n => -(n : Int)
    | ds => (digits? (dropPlus ds)).map fun n => (n : Int)
  value?.filter fun v => low ≤ v && v ≤ high

/-- The largest 32-bit word. Widths, lengths and constant offsets are at most this. -/
def maxWord : Nat := 0xffffffff

/-- Reads a number that fits a 32-bit word. -/
def word? (text : String) : Option Nat := natUpTo? maxWord text.toList

/-- The largest 128-bit integer. -/
def maxWideInt : Int := 0x7fffffffffffffffffffffffffffffff

/-- Reads an integer that fits 128 bits in two's complement. -/
def wideInt? (text : String) : Option Int :=
  intWithin? (-maxWideInt - 1) maxWideInt text.toList

/-! ## Writing -/

/-- The decimal digits of a number. -/
def natText (n : Nat) : String := String.ofList (Nat.toDigits 10 n)

/-- The decimal digits of an integer, after a minus sign if it is negative. -/
def intText : Int → String
  | .ofNat n => natText n
  | .negSucc n => "-" ++ natText (n + 1)

end BranchIR.Text
