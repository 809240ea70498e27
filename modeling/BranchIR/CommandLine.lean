import BranchIR.Exp.Printer
import BranchIR.FrontEnd

/-! # The command line

The arguments name one file and may say what to print about it: the checked tree and its
type, or the facts on its functions. `run` says what is printed and with which code the
program ends, given a way to read files. -/

namespace BranchIR.CommandLine

/-- What is printed about a file. -/
inductive Emit where
  | typed
  | facts
  deriving DecidableEq, Repr

/-- How to call the program. -/
def usage : String := "usage: phic <file> [--emit=typed|facts]"

/-- The file and what to print. The last choice of what to print counts; there has to be
    exactly one file, and nothing else may begin with two dashes. -/
def parseArgs (file : Option String) (emit : Emit) : List String → Option (String × Emit)
  | [] => file.map (·, emit)
  | arg :: args =>
    if arg = "--emit=typed" then parseArgs file .typed args
    else if arg = "--emit=facts" then parseArgs file .facts args
    -- also an `--emit=` that asks for nothing known
    else if arg.startsWith "--" then none
    else
      match file with
      | none => parseArgs (some arg) emit args
      | some _ => none

/-- Why a file cannot be read. -/
inductive ReadError where
  | notFound
  | denied
  | notDirectory
  | isDirectory
  | nameTooLong
  | tooManyLinks
  | notText
  | other (message : String)

/-- The message of the operating system. -/
def ReadError.message : ReadError → String
  | .notFound => "No such file or directory (os error 2)"
  | .denied => "Permission denied (os error 13)"
  | .notDirectory => "Not a directory (os error 20)"
  | .isDirectory => "Is a directory (os error 21)"
  | .nameTooLong => "File name too long (os error 36)"
  | .tooManyLinks => "Too many levels of symbolic links (os error 40)"
  | .notText => "stream did not contain valid UTF-8"
  | .other message => message

/-- The error that the operating system gives a number. -/
def ReadError.ofNumber? : Nat → Option ReadError
  | 2 => some .notFound
  | 13 => some .denied
  | 20 => some .notDirectory
  | 21 => some .isDirectory
  | 36 => some .nameTooLong
  | 40 => some .tooManyLinks
  | _ => none

/-- The last part of a path, if it is the name of a file. -/
def fileName? (path : String) : Option String :=
  match ((path.splitOn "/").filter fun part => part ≠ "" ∧ part ≠ ".").getLast? with
  | none => none
  | some name => if name = ".." then none else some name

/-- An identity with its name, or a question mark if it has none. -/
def named (scopes : Scopes) (id : VarId) : String :=
  (scopes.nameOf? id).getD "?" ++ " (" ++ VarId.text id ++ ")"

/-- The line on a function. -/
def factLine (scopes : Scopes) (m : Capture.MemberFacts) : String :=
  if m.isBranchTarget then
    named scopes m.name ++ ": branch target, needs " ++
      Text.commaList (m.needs.ids.map (named scopes)) ++ "\n"
  else named scopes m.name ++ ": routine\n"

/-- What is printed about a program. -/
def report (c : Compiled) : Emit → String
  | .typed => c.tree.text ++ "\n// : " ++ c.tree.ty.text ++ "\n"
  | .facts => String.join (c.facts.members.map (factLine c.scopes))

/-- What the program prints, and the code it ends with. -/
structure Outcome where
  code : UInt32
  stdout : String
  stderr : String

/-- The text of a file, given its bytes. -/
def textOf (bytes : ByteArray) : Except ReadError String :=
  match String.fromUTF8? bytes with
  | some text => .ok text
  | none => .error .notText

/-- What the program does once the file's text is known, or could not be. -/
def finish (path : String) (emit : Emit) (text : Except ReadError String) : Outcome :=
  match text with
  | .error e => ⟨2, "", "error: failed to read " ++ path ++ ": " ++ e.message ++ "\n"⟩
  | .ok source =>
    -- errors name the file without its directory
    match compile source ((fileName? path).getD path) with
    | .ok c => ⟨0, report c emit, ""⟩
    | .error e => ⟨1, "", e.display source⟩

/-- What the program does with its arguments; `read` gives the bytes of a file. -/
def run {m : Type → Type} [Monad m] (read : String → m (Except ReadError ByteArray))
    (args : List String) : m Outcome := do
  match parseArgs none .typed args with
  | none => return ⟨2, "", usage ++ "\n"⟩
  | some (path, emit) => return finish path emit ((← read path).bind textOf)

end BranchIR.CommandLine
