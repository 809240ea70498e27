import BranchIR.Token.Basic

/-! # The grammar as tables

The first token of an expression or of a type decides its form, and the token after an
expression decides whether the expression goes on with a trailing form. A grammar is the
three tables of these decisions. -/

namespace BranchIR

/-- The forms of expressions, told apart by their first token. -/
inductive OpeningForm where
  | atom
  | group
  | tuple
  | vector
  | prim
  | letIn
  | recIn
  | caseOf
  | gep
  | load
  | store
  | update
  deriving DecidableEq, Repr

/-- The forms that go on after an expression: `: T`, `as T` and `(args)`. -/
inductive TrailingForm where
  | ascription
  | coercion
  | call
  deriving DecidableEq, Repr

/-- The forms of types, told apart by their first token. -/
inductive TypeForm where
  | word
  | pointer
  | vector
  | array
  | tuple
  | function
  | group
  deriving DecidableEq, Repr

/-- How far an expression reaches: an expression read at `trailing` stops before trailing
    forms. All trailing forms bind alike, from the left. -/
inductive BindingPower where
  | loose
  | trailing
  deriving DecidableEq, Repr

/-- Which token begins which form. -/
structure Grammar where
  opening : List (Kind × OpeningForm)
  trailing : List (Kind × TrailingForm)
  types : List (Kind × TypeForm)

namespace Grammar

/-- The grammar without any form. -/
def empty : Grammar := ⟨[], [], []⟩

/-- The grammar of the language. -/
def full : Grammar where
  opening :=
    [(.intLiteral, .atom), (.identifier, .atom), (.openParen, .group), (.openCurly, .tuple),
      (.less, .vector), (.primWord, .prim), (.letWord, .letIn), (.recWord, .recIn),
      (.caseWord, .caseOf), (.gepWord, .gep), (.loadWord, .load), (.storeWord, .store),
      (.updateWord, .update)]
  trailing := [(.colon, .ascription), (.asWord, .coercion), (.openParen, .call)]
  types :=
    [(.identifier, .word), (.ampersand, .pointer), (.less, .vector), (.openBracket, .array),
      (.openCurly, .tuple), (.funWord, .function), (.openParen, .group)]

end Grammar

end BranchIR
