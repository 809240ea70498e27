import BranchIR.Error

/-! # Scopes

Names are turned into identities while the program is read. Each binding gets the next
identity, counted from 0, also when the name is bound already: the new binding then hides
the old one until its scope is closed. The outermost scope is never closed. -/

namespace BranchIR

/-- The bindings of one scope, latest first. -/
abbrev Frame := List (String × VarId)

/-- The open scopes, and the name of every identity handed out so far. -/
structure Scopes where
  /-- The innermost scope. -/
  inner : Frame
  /-- The scopes around it, from the inside out. -/
  outer : List Frame
  /-- The name of each identity. -/
  names : Array String

namespace Scopes

/-- One open scope and no names. -/
def empty : Scopes := ⟨[], [], #[]⟩

instance : Inhabited Scopes := ⟨empty⟩

/-- The number of identities handed out. -/
def size (s : Scopes) : Nat := s.names.size

/-- Whether no identity has been handed out. -/
def isEmpty (s : Scopes) : Bool := s.size == 0

/-- The number of open scopes. -/
def depth (s : Scopes) : Nat := s.outer.length + 1

/-- Opens a scope. -/
def push (s : Scopes) : Scopes := { s with inner := [], outer := s.inner :: s.outer }

/-- Closes the innermost scope, unless it is the outermost one. -/
def pop (s : Scopes) : Scopes :=
  match s.outer with
  | [] => s
  | frame :: frames => { s with inner := frame, outer := frames }

/-- Binds a name in the innermost scope, and gives its identity. -/
def bind (s : Scopes) (name : String) : VarId × Scopes :=
  (s.size, { s with inner := (name, s.size) :: s.inner, names := s.names.push name })

/-- The identity of the innermost binding of a name. -/
def find? (s : Scopes) (name : String) : Option VarId :=
  (s.inner :: s.outer).findSome? (List.lookup name)

/-- The identity of the innermost binding of a name used at a place. -/
def resolve (s : Scopes) (name : String) (use : Position) : Except Error VarId :=
  match s.find? name with
  | some id => .ok id
  | none => .error ⟨.undeclared name, use⟩

/-- The name that an identity was handed out for. -/
def nameOf? (s : Scopes) (id : VarId) : Option String := s.names[id]?

/-- Whether the innermost scope itself binds the name. -/
def bindsHere (s : Scopes) (name : String) : Bool := (s.inner.lookup name).isSome

@[simp] theorem pop_push (s : Scopes) : s.push.pop = s := rfl

@[simp] theorem size_push (s : Scopes) : s.push.size = s.size := rfl

@[simp] theorem size_pop (s : Scopes) : s.pop.size = s.size := by
  unfold pop
  split <;> rfl

@[simp] theorem depth_push (s : Scopes) : s.push.depth = s.depth + 1 := rfl

@[simp] theorem bind_fst (s : Scopes) (name : String) : (s.bind name).1 = s.size := rfl

@[simp] theorem size_bind (s : Scopes) (name : String) :
    (s.bind name).2.size = s.size + 1 := by
  simp [bind, size]

/-- A fresh binding hides every older one of its name. -/
theorem find?_bind_self (s : Scopes) (name : String) :
    (s.bind name).2.find? name = some s.size := by
  simp only [bind, find?, List.findSome?_cons, List.lookup_cons_self]

/-- A fresh binding leaves other names as they are. -/
theorem find?_bind_of_ne (s : Scopes) {name other : String} (h : other ≠ name) :
    (s.bind name).2.find? other = s.find? other := by
  have hb : (other == name) = false := by simpa using h
  simp only [bind, find?, List.findSome?_cons, List.lookup_cons, hb]

@[simp] theorem find?_push (s : Scopes) (name : String) : s.push.find? name = s.find? name := rfl

end Scopes

end BranchIR
