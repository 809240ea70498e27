import BranchIR.Capture.Bundle
import BranchIR.Error

/-! # Routines and branch targets

A function that needs nothing from around its bundle is a plain routine. One that needs
something has to run where these variables live: it becomes a branch target, which can only
be jumped to, by a call in tail position. `analyze` tells the two apart and refuses programs
that use a branch target in any other way. -/

namespace BranchIR.Capture

/-- What a function of a bundle needs from around the bundle. -/
structure MemberFacts where
  name : VarId
  needs : VarSet
  deriving DecidableEq

/-- Whether the function has to be a branch target. -/
def MemberFacts.isBranchTarget (m : MemberFacts) : Bool := !m.needs.isEmpty

/-- The facts on all functions of a program, bundle by bundle: those of an outer bundle, in the
    order in which it lists them, come before those of the bundles inside its bodies. -/
structure Facts where
  members : List MemberFacts
  deriving DecidableEq

/-- The facts on the function of the name. -/
def Facts.find? (facts : Facts) (name : VarId) : Option MemberFacts :=
  facts.members.find? (·.name == name)

/-- The names of the branch targets. -/
def Facts.targets (facts : Facts) : List VarId :=
  (facts.members.filter MemberFacts.isBranchTarget).map (·.name)

/-- The facts on a bundle, where `routines` are known to be plain. -/
def classify {α : Type} (routines : List VarId) (fs : List (Func α (Exp α))) :
    List MemberFacts :=
  (solved routines fs).map fun m => ⟨m.name, m.needs⟩

/-- The facts on the bundles among nodes, from left to right. Routines found count as known
    from then on. -/
def classifyAll {α : Type} (routines : List VarId) : List (Exp α) → List MemberFacts
  | [] => []
  | e :: es =>
    let found := classify routines e.funcs
    -- bundles inside this one come later; its plain routines are no need of theirs
    let plain := (found.filter fun m => !m.isBranchTarget).map (·.name)
    found ++ classifyAll (plain ++ routines) es

/-- The facts on a program, outer bundles before those inside them. -/
def factsOf {α : Type} (e : Exp α) : Facts := ⟨classifyAll [] e.preorder⟩

/-! ## Jumps -/

/-- The first of several faults, if there is any. -/
def firstFault? (faults : List (Option Error)) : Option Error := faults.findSome? id

/-- The first use of a branch target in an expression that is no call in tail position,
    from the faults below. A callee that may be jumped to is no fault itself. -/
def faultAt? (targets : List VarId) (e : Exp Checked) (below : List (Option Error)) :
    Option Error :=
  match e with
  | .var a id =>
    if id ∈ targets then some ⟨.escapingTarget id, a.span.first⟩ else none
  | .call a (.var _ id) _ =>
    if id ∈ targets then
      -- the first fault below is the callee's own
      if a.tail then firstFault? below.tail else some ⟨.nonTailCall id, a.span.first⟩
    else firstFault? below
  | _ => firstFault? below

/-- The first use of a branch target in an expression that is no call in tail position. -/
def fault? (targets : List VarId) (e : Exp Checked) : Option Error := e.fold (faultAt? targets)

/-- Tells routines from branch targets, and refuses a program that uses a branch target
    other than by a call in tail position. -/
def analyze (e : Exp Checked) : Except Error Facts :=
  let facts := factsOf e
  match fault? facts.targets e with
  | some error => .error error
  | none => .ok facts

end BranchIR.Capture
