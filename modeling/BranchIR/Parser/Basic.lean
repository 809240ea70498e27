import BranchIR.Parser.State

/-! # Reading tokens

A parser reads tokens from a state and gives a result or an error. The state it ends in is
kept in both cases, so that what has been read and bound up to an error can be seen. -/

namespace BranchIR

/-- Reads tokens and gives an `α` or an error. -/
abbrev Parser (α : Type) := EStateM Error State α

namespace Parser

variable {α : Type}

/-- The current token. -/
def current : Parser Token := do return (← get).current

/-- The kind of the current token. -/
def kind : Parser Kind := do return (← get).current.kind

/-- The place of the current token. -/
def position : Parser Position := do return (← get).position

/-- Moves on to the next token, and gives the one that was current. -/
def advance : Parser Token := do
  let s ← get
  set s.next
  return s.current

/-- Refuses a token that has been read, saying what should stand there. -/
def refuseToken (t : Token) (message : String) : Parser α :=
  throw ⟨.unexpectedAs t.text message, t.span.first⟩

/-- Refuses the current token, saying what should stand there. -/
def unexpected (message : String) : Parser α := do
  refuseToken (← current) message

/-- Reads a token of the kind; on any other, says what should stand there. -/
def expectOr (k : Kind) (message : String) : Parser Token := do
  if (← kind) = k then advance else unexpected message

/-- Reads a token of the kind. -/
def expect (k : Kind) : Parser Token := do
  let t ← current
  if t.kind = k then advance else throw ⟨.unexpected t.text, t.span.first⟩

/-- The span from a place to the end of the last token read. -/
def spanFrom (start : Position) : Parser Span := do return (← get).spanFrom start

/-- Binds a name in the innermost scope. -/
def bindName (name : String) : Parser VarId :=
  modifyGet fun s => ((s.scopes.bind name).1, { s with scopes := (s.scopes.bind name).2 })

/-- The identity of a name used at a place. -/
def resolve (name : String) (use : Position) : Parser VarId := do
  match (← get).scopes.resolve name use with
  | .ok id => return id
  | .error e => throw e

/-- Opens a scope. -/
def openScope : Parser Unit := modify fun s => { s with scopes := s.scopes.push }

/-- Closes the innermost scope. -/
def closeScope : Parser Unit := modify fun s => { s with scopes := s.scopes.pop }

/-- Runs a parser in a scope of its own, which is closed whether it succeeds or not. -/
def inScope (p : Parser α) : Parser α := fun s =>
  match p { s with scopes := s.scopes.push } with
  | .ok a s => .ok a { s with scopes := s.scopes.pop }
  | .error e s => .error e { s with scopes := s.scopes.pop }

/-- Reads at most `fuel` items separated by commas, up to the closing kind; a comma may
    stand after the last. -/
def itemsBefore (close : Kind) (item : Parser α) : (fuel : Nat) → Parser (List α)
  | 0 => return []
  | fuel + 1 => do
    if (← kind) = close then return []
    let first ← item
    if (← kind) = .comma then
      let _ ← advance
      -- after a comma the list may also end
      return first :: (← itemsBefore close item fuel)
    else return [first]

/-- Reads items separated by commas, and the closing token. There are no more items than
    tokens left, since every item takes one. -/
def listTo (close : Kind) (item : Parser α) : Parser (List α) := do
  let items ← itemsBefore close item (← get).remaining
  let _ ← expect close
  return items

/-- Reads a number that fits a 32-bit word from a token. -/
def wordOf (t : Token) : Parser Nat :=
  match Text.word? t.text with
  | some n => return n
  | none => throw ⟨.badNumber t.text, t.span.first⟩

end Parser

end BranchIR
