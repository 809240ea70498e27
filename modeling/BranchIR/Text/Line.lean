import BranchIR.Text.Utf8

/-! # Lines

A text is cut into lines after each newline. The last line has no newline, and is empty
when the text is empty or ends in one. `lineAt?` finds the line that holds a byte offset;
the end of the text belongs to the last line. -/

namespace BranchIR.Text

/-- The lines of a text, each with its newline. There is always a last line. -/
def lines : List Char → List (List Char)
  | [] => [[]]
  | c :: cs =>
    if c = '\n' then [c] :: lines cs
    else
      match lines cs with
      | [] => [[c]]
      | l :: ls => (c :: l) :: ls

/-- Every text has a line, if only an empty one. -/
theorem lines_ne_nil (cs : List Char) : lines cs ≠ [] := by
  cases cs with
  | nil => simp [lines]
  | cons c cs =>
    rw [lines]
    split
    · simp
    · split <;> simp

/-- Nothing is lost: the lines put together are the text. -/
theorem flatten_lines (cs : List Char) : (lines cs).flatten = cs := by
  induction cs with
  | nil => rfl
  | cons c cs ih =>
    rw [lines]
    split
    · simp [ih]
    · split
      · next h => exact absurd h (lines_ne_nil cs)
      · next l ls h => simpa [h] using ih

/-- Where a byte offset lies. -/
structure Line where
  /-- The line's number, from 1. -/
  number : Nat
  /-- The line with its newline. -/
  text : List Char
  /-- The byte offset within the line. -/
  offset : Nat
  deriving DecidableEq, Repr

/-- Finds the line among `ls`, the first of which has the given number. -/
def lineAmong? (number : Nat) : List (List Char) → Nat → Option Line
  | [], _ => none
  -- the end of the last line is the end of the text, and counts as a place on it
  | [l], pos => if pos ≤ byteCount l then some ⟨number, l, pos⟩ else none
  | l :: ls, pos =>
    if pos < byteCount l then some ⟨number, l, pos⟩
    else lineAmong? (number + 1) ls (pos - byteCount l)

/-- The line that holds the byte offset; none past the end of the text. -/
def lineAt? (text : List Char) (pos : Nat) : Option Line := lineAmong? 1 (lines text) pos

end BranchIR.Text
