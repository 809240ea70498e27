import BranchIR.Capture.FreeVars

/-! # What the functions of a bundle need

A function needs the variables from outside the bundle that its body uses, and what the
functions it refers to need; its own parameters are its own. Names of plain routines are
no need: they can be reached from anywhere. -/

namespace BranchIR.Capture

/-- What counts of a function of a bundle, and what it is known to need. -/
structure Member where
  name : VarId
  params : List VarId
  /-- The functions of the bundle that the body refers to. -/
  calls : List VarId
  needs : VarSet

/-- Whether an identity is none of the member's own parameters. -/
def Member.lacks (m : Member) (x : VarId) : Bool := x ∉ m.params

/-- What is known to be needed under a name. Of members of one name the last one counts. -/
def needsOf (ms : List Member) (name : VarId) : VarSet :=
  ((ms.reverse.find? (·.name == name)).map Member.needs).getD .empty

/-- What a member needs when also the needs of those it refers to are counted. -/
def Member.inherit (ms : List Member) (m : Member) : Member :=
  { m with
    needs := m.calls.foldl (fun s callee => ((needsOf ms callee).filter m.lacks).union s) m.needs }

/-- Passes needs on to the members that refer to them, so many times. -/
def passOn : Nat → List Member → List Member
  | 0, ms => ms
  | n + 1, ms => passOn n (ms.map (Member.inherit ms))

/-- The members of a bundle with what each needs by itself, where `routines` are known to be
    plain. -/
def members {α : Type} (routines : List VarId) (fs : List (Func α (Exp α))) : List Member :=
  let names := fs.map (·.name)
  fs.map fun f =>
    let params := f.params.map (·.name)
    let free := f.body.freeVars
    { name := f.name
      params := params
      calls := (free.filter (· ∈ names)).ids
      needs := free.filter fun x => x ∉ params && x ∉ names && x ∉ routines }

/-- The members of a bundle with all that each needs. A need reaches a member over at most
    as many references as there are members. -/
def solved {α : Type} (routines : List VarId) (fs : List (Func α (Exp α))) : List Member :=
  passOn fs.length (members routines fs)

end BranchIR.Capture
