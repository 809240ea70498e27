import BranchIR.Error
import BranchIR.Text.Blank
import BranchIR.Text.Line

/-! # Showing errors

An error is shown with the source it was found in: on one line with the line and column of
its place, or with the source line itself and a caret below it. Columns of the one-line form
count characters; the caret is placed by bytes. -/

namespace BranchIR.Error

open Text (natText lineAt? splitAtByte? trimEnd)

/-- The one-line form: file, line, column and message. Line and column are 0 for a place
    past the end of the source. There is no column inside a character. -/
def diagnostic? (e : Error) (source : String) : Option String :=
  let shown (line column : Nat) : String :=
    e.position.file ++ ":" ++ natText line ++ ":" ++ natText column ++ ": " ++ e.message
  match lineAt? source.toList e.position.offset with
  | none => some (shown 0 0)
  | some line =>
    (splitAtByte? line.text line.offset).map fun (before, _) =>
      shown line.number (before.length + 1)

/-- So many copies of a character. -/
def copies (n : Nat) (c : Char) : String := String.ofList (List.replicate n c)

/-- The first line of the form with a caret: the name of the error's class, its message and
    advice. -/
def heading (e : Error) : String :=
  let advice := match e.cause.tip? with
    | none => ""
    | some tip => " (" ++ tip ++ ")"
  "Error: " ++ e.cause.name ++ ": " ++ e.message ++ advice

/-- The form with the source line and a caret below it. Spaces in front of the line are left
    out. For a place past the end of the source there is only a heading. -/
def display (e : Error) (source : String) : String :=
  match lineAt? source.toList e.position.offset with
  | none => "Error: " ++ e.cause.name ++ " (" ++ e.message ++ ")\n"
  | some line =>
    let number := natText line.number
    let gutter := copies (number.length + 1) ' ' ++ "|"
    -- a tab in front of the line is kept, and moves the caret by one column
    let indent := (line.text.takeWhile (· = ' ')).length
    let shown := String.ofList (trimEnd (line.text.drop indent))
    let caret := copies (line.offset - indent) '-' ++ "^"
    e.heading ++ "\n" ++
      "-> " ++ e.position.file ++ "\n" ++
      gutter ++ "\n" ++
      number ++ " | " ++ shown ++ "\n" ++
      gutter ++ " " ++ caret ++ "\n"

end BranchIR.Error
