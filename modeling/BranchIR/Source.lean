/-! # Places in a source file

A place is a byte offset into a named file; a span is the stretch between two places of
one file. -/

namespace BranchIR

/-- A byte offset into a named file. -/
structure Position where
  offset : Nat
  file : String
  deriving DecidableEq, Repr

/-- The place of what has no source. -/
def Position.nowhere : Position := ⟨0, "<null>"⟩

/-- The bytes of a file from `start` up to, but not including, `stop`. -/
structure Span where
  start : Nat
  stop : Nat
  file : String
  deriving DecidableEq, Repr

/-- Where the span begins. -/
def Span.first (s : Span) : Position := ⟨s.start, s.file⟩

/-- Where the span ends. -/
def Span.last (s : Span) : Position := ⟨s.stop, s.file⟩

/-- The name of text that came from no file. -/
def unnamedFile : String := "shell"

end BranchIR
