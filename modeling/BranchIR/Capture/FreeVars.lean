import BranchIR.Capture.VarSet
import BranchIR.Exp.Fold

/-! # Free variables

Every binder has an identity of its own, so what is bound anywhere in an expression is
bound wherever the expression uses it: the free variables are those used less those
bound. -/

namespace BranchIR.Exp

variable {α : Type}

/-- The identities used in an expression, by nodes in preorder. -/
def uses (e : Exp α) : List VarId := e.preorder.filterMap var?

/-- The identities bound in an expression, by nodes in preorder. -/
def bound (e : Exp α) : List VarId := e.preorder.flatMap binders

/-- The variables that an expression uses and does not bind. -/
def freeVars (e : Exp α) : VarSet := (VarSet.ofList e.uses).filter (· ∉ e.bound)

/-- What is free is used and not bound. -/
theorem mem_freeVars {x : VarId} {e : Exp α} : x ∈ e.freeVars ↔ x ∈ e.uses ∧ x ∉ e.bound := by
  simp [freeVars]

/-- The free variables of the bodies of all functions in an expression, in the order of the
    bundles' nodes. -/
def bodyFreeVars (e : Exp α) : List (VarId × VarSet) :=
  e.preorder.flatMap fun node => node.funcs.map fun f => (f.name, f.body.freeVars)

end BranchIR.Exp
