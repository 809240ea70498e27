import BranchIR.Capture.Facts
import BranchIR.Exp.Parser
import BranchIR.Report
import BranchIR.Token.Lexer
import BranchIR.Typing.Check

/-! # The front end as a whole -/

namespace BranchIR

/-- Reads a source text into a tree. -/
def readProgram (source file : String) : Except Error Program := do
  Program.ofTokens file (← tokenize source file)

/-- Reads and type checks a source text. -/
def checkSource (source file : String) : Except Error (Exp Checked) := do
  Typing.checkProgram (← readProgram source file).tree

/-- What the front end finds out about a source text. -/
structure Compiled where
  scopes : Scopes
  tree : Exp Checked
  facts : Capture.Facts

/-- Reads and type checks a source text, and tells its routines from its branch targets. -/
def compile (source file : String) : Except Error Compiled := do
  let program ← readProgram source file
  let tree ← Typing.checkProgram program.tree
  return ⟨program.scopes, tree, ← Capture.analyze tree⟩

/-- Checks a source text; an error is given in its one-line form. There is no answer if the
    error has none. -/
def checkSource? (source file : String) : Option (Except String (Exp Checked)) :=
  match checkSource source file with
  | .ok tree => some (.ok tree)
  | .error e => (e.diagnostic? source).map .error

end BranchIR
