import BranchIR.Token.Lexer

/-! # A cursor in a text

A byte offset that moves through a source text. The offset may be anywhere; looking at the
text works only between characters and at the end.

The lexer is a loop over such a cursor. `tokensFrom` says the same by recursion on the text
that is left. -/

namespace BranchIR

open Text (byteCount)

/-- A byte offset in the text of a file. -/
structure Cursor where
  source : String
  offset : Nat
  file : String

namespace Cursor

/-- A cursor at the start of a text. -/
def start (source file : String) : Cursor := ⟨source, 0, file⟩

/-- Moves on by so many bytes. -/
def advance (c : Cursor) (n : Nat) : Cursor := { c with offset := c.offset + n }

/-- The place of a byte offset. Places are kept as 32-bit words. -/
def placeOf (offset : Nat) : Nat := offset % (1 <<< 32)

/-- The cursor's place. -/
def position (c : Cursor) : Position := ⟨placeOf c.offset, c.file⟩

/-- The span of the next so many bytes. -/
def span (c : Cursor) (n : Nat) : Span := ⟨placeOf c.offset, placeOf (c.offset + n), c.file⟩

/-- The text from the cursor on; none past the end or inside a character. -/
def remainder? (c : Cursor) : Option String :=
  (Text.splitAtByte? c.source.toList c.offset).map fun (_, after) => String.ofList after

/-- The character at the cursor, or a null character at the end of the text. -/
def current? (c : Cursor) : Option Char :=
  (Text.splitAtByte? c.source.toList c.offset).map fun (_, after) => after.headD '\x00'

/-- Whether nothing is left. -/
def atEnd (c : Cursor) : Bool := c.source.utf8ByteSize ≤ c.offset

/-- One round of the lexer: the tokens that the piece at the cursor gives, one or none, and the
    cursor behind the piece. There is no round where no character can be looked at. -/
def round? (c : Cursor) : Option (Except Error (List Token × Cursor)) := do
  let rest ← c.remainder?
  match rest.toList with
  | [] => none
  | first :: cs =>
    match front first cs with
    | .gap more => some (.ok ([], c.advance (byteCount (first :: cs.take more))))
    | .token kind text =>
      let size := byteCount text
      some (.ok ([⟨kind, String.ofList text, c.span size⟩], c.advance size))
    | .badNumber more =>
      some (.error ⟨.badNumber (String.ofList (first :: cs.take more)), c.position⟩)
    | .unknown =>
      return .error ⟨.unrecognised (String.ofList [← c.current?]), c.position⟩

end Cursor

end BranchIR
