import BranchIR.Scopes
import BranchIR.Token.Basic

/-! # The state of a reader of tokens

The tokens are split at the current one. There always is a current token: at the end it is
the token that marks the end of the input, and moving on from it does nothing. -/

namespace BranchIR

/-- Where reading stands, and the names in scope there. -/
structure State where
  /-- The tokens read, latest first. -/
  behind : List Token
  current : Token
  /-- The tokens after the current one. -/
  after : List Token
  scopes : Scopes

namespace State

/-- What has to follow the tokens `last :: tokens` so that they close with the end of the
    input. -/
def closing (last : Token) : List Token → List Token
  | [] => if last.kind = .endOfInput then [] else [Token.endAt last.span.stop last.span.file]
  | t :: ts => t :: closing t ts

/-- At the first of the tokens of a file, with nothing in scope. The end of the input is
    added if it is missing. -/
def ofTokens (file : String) : List Token → State
  | [] => ⟨[], Token.endAt 0 file, [], .empty⟩
  | t :: ts => ⟨[], t, closing t ts, .empty⟩

/-- All tokens, in order. -/
def tokens (s : State) : List Token := s.behind.reverse ++ s.current :: s.after

/-- The number of tokens from the current one on. -/
def remaining (s : State) : Nat := s.after.length + 1

/-- The state one token on; at the last token nothing changes. -/
def next (s : State) : State :=
  match s.after with
  | [] => s
  | t :: ts => { s with behind := s.current :: s.behind, current := t, after := ts }

/-- From a place to the end of the last token read, or to the place itself if none was. -/
def spanFrom (s : State) (start : Position) : Span :=
  match s.behind with
  | [] => ⟨start.offset, start.offset, start.file⟩
  | t :: _ => ⟨start.offset, t.span.stop, start.file⟩

/-- The place of the current token. -/
def position (s : State) : Position := s.current.span.first

@[simp] theorem tokens_next (s : State) : s.next.tokens = s.tokens := by
  unfold next tokens
  split <;> simp [*]

/-- Moving on never leaves more tokens. -/
theorem remaining_next_le (s : State) : s.next.remaining ≤ s.remaining := by
  unfold next remaining
  split <;> simp [*]

@[simp] theorem scopes_next (s : State) : s.next.scopes = s.scopes := by
  unfold next
  split <;> rfl

/-! ## Looking ahead over a bundle -/

/-- The token, if it is an identifier. -/
def identifier? (t : Option Token) : List Token :=
  (t.filter (·.kind = .identifier)).toList

/-- The names that follow an `and` of the bundle, from inside so many forms that have an
    `in` of their own. The bundle ends at its own `in`. -/
def laterNames : Nat → List Token → List Token
  | _, [] => []
  | depth, t :: ts =>
    match t.kind with
    | .recWord | .letWord | .storeWord => laterNames (depth + 1) ts
    | .inWord =>
      match depth with
      -- the `in` of the bundle itself
      | 0 => []
      | depth + 1 => laterNames depth ts
    | .andWord =>
      match depth with
      | 0 => identifier? ts.head? ++ laterNames 0 ts
      -- an `and` of a bundle inside this one
      | depth + 1 => laterNames (depth + 1) ts
    | .endOfInput => []
    | _ => laterNames depth ts

/-- The names of the functions of the bundle whose `rec` is the current token. They have to
    be known before the first body is read. -/
def bundleNames (s : State) : List Token :=
  identifier? s.after.head? ++ laterNames 0 s.after

end State

end BranchIR
