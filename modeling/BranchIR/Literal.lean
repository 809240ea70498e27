import BranchIR.Text.Decimal
import BranchIR.Ty.Basic

/-! # Integer literals

A literal is a value and the width of its type, written with an `i` between. A value fits
a width when the width's bits can hold it in two's complement or as an unsigned number. -/

namespace BranchIR

/-- Whether the value fits so many bits, read as signed or as unsigned. Values are 128-bit
    integers: from 128 bits on every value fits, and the bounds for 127 bits and fewer are
    computed without a step that would leave 128 bits. -/
def fits (value : Int) (width : Nat) : Bool :=
  if width = 0 ∨ Ty.maxIntWidth < width then false
  else if 128 ≤ width then true
  else
    -- the least signed and the greatest unsigned value of so many bits
    let lowest : Int := -(1 <<< (width - 1) : Nat)
    let highest : Int := if width = 127 then Text.maxWideInt else (1 <<< width : Nat) - 1
    lowest ≤ value && value ≤ highest

/-- The parts of a text before and after its first `c`. -/
def cutAtChar? (c : Char) (text : String) : Option (String × String) :=
  let cs := text.toList
  match cs.dropWhile (· ≠ c) with
  | [] => none
  | _ :: after => some (String.ofList (cs.takeWhile (· ≠ c)), String.ofList after)

/-- Reads the value and the width of a literal such as `-1i8`. -/
def literal? (text : String) : Option (Int × Nat) := do
  let (valueText, widthText) ← cutAtChar? 'i' text
  let value ← Text.wideInt? valueText
  let width ← Text.word? widthText
  if fits value width then some (value, width) else none

end BranchIR
