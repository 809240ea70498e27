import BranchIR.Text.Extending
import BranchIR.Text.Unprintable

/-! # Quoted text

Error messages show a piece of the source between double quotes. The quote, the backslash
and the common controls are escaped with a backslash, every other character that has no
printed form of its own is written by its code point in hexadecimal, and the rest stands
as it is. -/

namespace BranchIR.Text

/-- A code point in the form `\u{hex}`. -/
def codePointEscape (c : Char) : List Char :=
  ['\\', 'u', '{'] ++ Nat.toDigits 16 c.toNat ++ ['}']

/-- A character as it stands between the quotes. -/
def quotedChar (c : Char) : List Char :=
  if c = '\x00' then ['\\', '0']
  else if c = '\t' then ['\\', 't']
  else if c = '\r' then ['\\', 'r']
  else if c = '\n' then ['\\', 'n']
  else if c = '"' then ['\\', '"']
  else if c = '\\' then ['\\', '\\']
  else if isExtending c || isUnprintable c then codePointEscape c
  else [c]

/-- The text between double quotes. -/
def quoted (text : String) : String :=
  String.ofList ('"' :: text.toList.flatMap quotedChar ++ ['"'])

end BranchIR.Text
