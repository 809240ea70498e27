import BranchIR.Source

/-! # Tokens

A token is a piece of the source with its kind and its span. The end of the input is a
token of its own, without width. -/

namespace BranchIR

/-- The kinds of tokens. -/
inductive Kind where
  | endOfInput
  /-- A bare integer: a case pattern, a length or a constant offset. -/
  | number
  /-- An integer with the width of its type, such as `42i32`. -/
  | intLiteral
  | identifier
  | openBracket
  | closeBracket
  | openCurly
  | closeCurly
  | openParen
  | closeParen
  | less
  | greater
  | assignment
  | fatArrow
  | arrow
  | ampersand
  | atSign
  | dot
  | colon
  | comma
  | recWord
  | andWord
  | inWord
  | caseWord
  | asWord
  | letWord
  | funWord
  /-- An arithmetic operator. -/
  | primWord
  | gepWord
  | loadWord
  | storeWord
  | updateWord
  | underscore
  deriving DecidableEq, Repr

namespace Kind

/-- The name under which a kind is listed. -/
def name : Kind → String
  | .endOfInput => "EOF"
  | .number => "Number"
  | .intLiteral => "IntLiteral"
  | .identifier => "Identifier"
  | .openBracket => "OpenBracket"
  | .closeBracket => "CloseBracket"
  | .openCurly => "OpenCurly"
  | .closeCurly => "CloseCurly"
  | .openParen => "OpenParen"
  | .closeParen => "CloseParen"
  | .less => "Less"
  | .greater => "Greater"
  | .assignment => "Assignment"
  | .fatArrow => "FatArrow"
  | .arrow => "Arrow"
  | .ampersand => "Ampersand"
  | .atSign => "At"
  | .dot => "Dot"
  | .colon => "Colon"
  | .comma => "Comma"
  | .recWord => "Rec"
  | .andWord => "And"
  | .inWord => "In"
  | .caseWord => "Case"
  | .asWord => "As"
  | .letWord => "Let"
  | .funWord => "Fun"
  | .primWord => "Prim"
  | .gepWord => "Gep"
  | .loadWord => "Load"
  | .storeWord => "Store"
  | .updateWord => "Update"
  | .underscore => "Underscore"

/-- All kinds. -/
def all : List Kind :=
  [.endOfInput, .number, .intLiteral, .identifier, .openBracket, .closeBracket, .openCurly,
    .closeCurly, .openParen, .closeParen, .less, .greater, .assignment, .fatArrow, .arrow,
    .ampersand, .atSign, .dot, .colon, .comma, .recWord, .andWord, .inWord, .caseWord, .asWord,
    .letWord, .funWord, .primWord, .gepWord, .loadWord, .storeWord, .updateWord, .underscore]

theorem mem_all (kind : Kind) : kind ∈ all := by cases kind <;> decide

/-- The kind listed under a name. -/
def ofName? (name : String) : Option Kind := all.find? (·.name == name)

/-- A kind is found by its name. -/
theorem ofName?_name (kind : Kind) : ofName? kind.name = some kind := by
  cases kind <;> decide

end Kind

/-- The reserved words. The four operators share a kind. -/
def reservedWords : List (String × Kind) :=
  [("rec", .recWord), ("and", .andWord), ("in", .inWord), ("case", .caseWord), ("as", .asWord),
    ("let", .letWord), ("fun", .funWord), ("add", .primWord), ("sub", .primWord),
    ("mul", .primWord), ("div", .primWord), ("gep", .gepWord), ("load", .loadWord),
    ("store", .storeWord), ("update", .updateWord), ("_", .underscore)]

/-- A piece of the source. -/
structure Token where
  kind : Kind
  text : String
  span : Span
  deriving DecidableEq, Repr

/-- The end of the input, at an offset. -/
def Token.endAt (offset : Nat) (file : String) : Token :=
  ⟨.endOfInput, "EOF", ⟨offset, offset, file⟩⟩

/-- The kind of a token and its text. -/
def Token.listing (t : Token) : String := t.kind.name ++ " (" ++ t.text ++ ")"

end BranchIR
