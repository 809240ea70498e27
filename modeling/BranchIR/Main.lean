import BranchIR.CommandLine

/-! # The program -/

namespace BranchIR

open CommandLine

/-- The number of an error, which may come negated. -/
def errorNumber (osCode : UInt32) : Nat := (min osCode (0 - osCode)).toNat

/-- Why reading a file failed. -/
def readErrorOf (e : IO.Error) : ReadError :=
  let known := match e with
    | .noFileOrDirectory _ osCode _ | .permissionDenied _ osCode _
    | .inappropriateType _ osCode _ | .invalidArgument _ osCode _ =>
      ReadError.ofNumber? (errorNumber osCode)
    | _ => none
  known.getD (.other (toString e))

/-- The bytes of a file. -/
def readFile (path : String) : IO (Except ReadError ByteArray) := do
  try return .ok (← IO.FS.readBinFile path)
  catch e => return .error (readErrorOf e)

end BranchIR

def main (args : List String) : IO UInt32 := do
  let outcome ← BranchIR.CommandLine.run BranchIR.readFile args
  IO.print outcome.stdout
  IO.eprint outcome.stderr
  return outcome.code
