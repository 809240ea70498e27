import BranchIR.Error
import BranchIR.Text.Blank
import BranchIR.Text.Utf8
import BranchIR.Token.Basic

/-! # From text to tokens

The text is taken apart from the left. `front` says what stands at the front of a text:
the first rule that applies decides, and it takes as many characters as it can. White space
and comments stand between tokens and are left out. -/

namespace BranchIR

open Text (isBlank byteCount)

/-! ## Words -/

/-- Whether words may hold the character. -/
def isWordChar (c : Char) : Bool := c.isAlphanum || c == '_'

/-- Whether the text is one or more digits. -/
def isDigits (cs : List Char) : Bool := !cs.isEmpty && cs.all Char.isDigit

/-- The text without a minus sign in front. -/
def dropSign : List Char → List Char
  | '-' :: cs => cs
  | cs => cs

/-- Whether the word is a bare integer. -/
def isNumber (word : List Char) : Bool := isDigits (dropSign word)

/-- Whether the word is an integer, an `i`, and a width. -/
def isIntLiteral (word : List Char) : Bool :=
  -- no digit is an `i`, so the first one ends the value
  let value := (dropSign word).takeWhile (· ≠ 'i')
  match (dropSign word).dropWhile (· ≠ 'i') with
  | [] => false
  | _ :: width => isDigits value && isDigits width

/-- The kind of a word. -/
def classify (word : List Char) : Kind :=
  if isIntLiteral word then .intLiteral
  else if isNumber word then .number
  else (reservedWords.lookup (String.ofList word)).getD .identifier

/-! ## The front of a text -/

/-- What stands at the front of a text, and how many characters it takes after its first. -/
inductive Front where
  /-- White space or a comment. -/
  | gap (more : Nat)
  /-- A token takes as many characters as it is given for its text. -/
  | token (kind : Kind) (text : List Char)
  /-- A minus sign and a digit that begin no number. -/
  | badNumber (more : Nat)
  /-- Nothing that the language knows. -/
  | unknown
  deriving DecidableEq, Repr

/-- Marks of one or two characters: the kind, and the text that its tokens have. -/
def mark? (c : Char) (cs : List Char) : Option (Kind × List Char) :=
  match c with
  -- a minus sign by itself is no mark: it begins a number or an arrow
  | '-' => if cs.head? = some '>' then some (.arrow, ['-', '>']) else none
  | '=' =>
    if cs.head? = some '>' then some (.fatArrow, ['=', '>']) else some (.assignment, ['='])
  | '(' => some (.openParen, ['('])
  | ')' => some (.closeParen, [')'])
  | '{' => some (.openCurly, ['{'])
  | '}' => some (.closeCurly, ['}'])
  | '[' => some (.openBracket, ['['])
  | ']' => some (.closeBracket, [']'])
  | '<' => some (.less, ['<'])
  | '>' => some (.greater, ['>'])
  | '&' => some (.ampersand, ['&'])
  | '@' => some (.atSign, ['@'])
  | '.' => some (.dot, ['.'])
  | ':' => some (.colon, [':'])
  | ',' => some (.comma, [','])
  | _ => none

/-- What stands at the front of the text `c :: cs`. -/
def front (c : Char) (cs : List Char) : Front :=
  let word := cs.takeWhile isWordChar
  if isWordChar c then .token (classify (c :: word)) (c :: word)
  else if c = '-' ∧ (cs.head?.any Char.isDigit) then
    -- a sign makes no identifier: `-1x` is a malformed number
    match classify (c :: word) with
    | .intLiteral => .token .intLiteral (c :: word)
    | .number => .token .number (c :: word)
    | _ => .badNumber word.length
  else if isBlank c then .gap (cs.takeWhile isBlank).length
  else if c = '/' ∧ cs.head? = some '/' then .gap (cs.takeWhile (· ≠ '\n')).length
  else
    match mark? c cs with
    | some (kind, text) => .token kind text
    | none => .unknown

/-! ## The whole text -/

/-- The tokens of a text that begins at a byte offset of its file. -/
def tokensFrom (file : String) (offset : Nat) : List Char → Except Error (List Token)
  | [] => .ok [Token.endAt offset file]
  | c :: cs =>
    match front c cs with
    | .gap more => tokensFrom file (offset + byteCount (c :: cs.take more)) (cs.drop more)
    | .token kind text => do
      let stop := offset + byteCount text
      let later ← tokensFrom file stop (cs.drop (text.length - 1))
      return ⟨kind, String.ofList text, ⟨offset, stop, file⟩⟩ :: later
    | .badNumber more =>
      .error ⟨.badNumber (String.ofList (c :: cs.take more)), ⟨offset, file⟩⟩
    | .unknown => .error ⟨.unrecognised (String.ofList [c]), ⟨offset, file⟩⟩
termination_by cs => cs.length
decreasing_by all_goals simp only [List.length_cons, List.length_drop]; omega

/-- The tokens of a source text, the end of the input last. -/
def tokenize (source file : String) : Except Error (List Token) :=
  tokensFrom file 0 source.toList

end BranchIR
