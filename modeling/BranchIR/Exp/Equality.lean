import BranchIR.Exp.Basic

/-! # Equality of expressions

Two expressions are equal when they have the same nodes with equal annotations; `same`
decides it. -/

namespace BranchIR

namespace Exp

variable {α : Type} [DecidableEq α]

mutual

/-- Whether two expressions are equal. -/
def same : Exp α → Exp α → Bool
  | .var a x, f => match f with | .var b y => a == b && x == y | _ => false
  | .int a v w, f => match f with | .int b v' w' => a == b && v == v' && w == w' | _ => false
  | .ascribe a e t, f =>
    match f with | .ascribe b e' t' => a == b && same e e' && t == t' | _ => false
  | .coerce a e t, f =>
    match f with | .coerce b e' t' => a == b && same e e' && t == t' | _ => false
  | .prim a op es, f =>
    match f with | .prim b op' es' => a == b && op == op' && allSame es es' | _ => false
  | .letIn a x t v e, f =>
    match f with
    | .letIn b x' t' v' e' => a == b && x == x' && t == t' && same v v' && same e e'
    | _ => false
  | .call a e es, f =>
    match f with | .call b e' es' => a == b && same e e' && allSame es es' | _ => false
  | .caseOf a e arms, f =>
    match f with
    | .caseOf b e' arms' => a == b && same e e' && armsSame arms arms'
    | _ => false
  | .recIn a fs e, f =>
    match f with | .recIn b fs' e' => a == b && funcsSame fs fs' && same e e' | _ => false
  | .tuple a es, f => match f with | .tuple b es' => a == b && allSame es es' | _ => false
  | .vector a es, f => match f with | .vector b es' => a == b && allSame es es' | _ => false
  | .gep a e p, f =>
    match f with | .gep b e' p' => a == b && same e e' && pathSame p p' | _ => false
  | .load a e p, f =>
    match f with | .load b e' p' => a == b && same e e' && pathSame p p' | _ => false
  | .store a e p v k, f =>
    match f with
    | .store b e' p' v' k' => a == b && same e e' && pathSame p p' && same v v' && same k k'
    | _ => false
  | .update a e p v, f =>
    match f with
    | .update b e' p' v' => a == b && same e e' && pathSame p p' && same v v'
    | _ => false

/-- Whether two lists hold equal expressions. -/
def allSame : List (Exp α) → List (Exp α) → Bool
  | [], [] => true
  | e :: es, e' :: es' => same e e' && allSame es es'
  | _, _ => false

/-- Whether two lists hold equal arms. -/
def armsSame : List (Arm (Exp α)) → List (Arm (Exp α)) → Bool
  | [], [] => true
  | ⟨p, e⟩ :: arms, ⟨p', e'⟩ :: arms' => p == p' && same e e' && armsSame arms arms'
  | _, _ => false

/-- Whether two lists hold equal functions. -/
def funcsSame : List (Func α (Exp α)) → List (Func α (Exp α)) → Bool
  | [], [] => true
  | ⟨a, x, ps, t, e⟩ :: fs, ⟨b, x', ps', t', e'⟩ :: fs' =>
    a == b && x == x' && ps == ps' && t == t' && same e e' && funcsSame fs fs'
  | _, _ => false

/-- Whether two paths are equal. -/
def pathSame : List (Step (Exp α)) → List (Step (Exp α)) → Bool
  | [], [] => true
  | .field n :: p, .field n' :: p' => n == n' && pathSame p p'
  | .element n :: p, .element n' :: p' => n == n' && pathSame p p'
  | .lane e :: p, .lane e' :: p' => same e e' && pathSame p p'
  | .index e :: p, .index e' :: p' => same e e' && pathSame p p'
  | _, _ => false

end

mutual

/-- Trees are found to be the same exactly if they are equal, spans included. The companions below
    say so for the lists that trees hold. -/
theorem same_iff : (e f : Exp α) → (same e f = true ↔ e = f)
  | .var .., f => by cases f <;> simp [same]
  | .int .., f => by cases f <;> simp [same, and_assoc]
  | .ascribe _ e _, f => by cases f <;> simp [same, same_iff e, and_assoc]
  | .coerce _ e _, f => by cases f <;> simp [same, same_iff e, and_assoc]
  | .prim _ _ es, f => by cases f <;> simp [same, allSame_iff es, and_assoc]
  | .letIn _ _ _ v e, f => by cases f <;> simp [same, same_iff v, same_iff e, and_assoc]
  | .call _ e es, f => by cases f <;> simp [same, same_iff e, allSame_iff es, and_assoc]
  | .caseOf _ e arms, f => by cases f <;> simp [same, same_iff e, armsSame_iff arms, and_assoc]
  | .recIn _ fs e, f => by cases f <;> simp [same, funcsSame_iff fs, same_iff e, and_assoc]
  | .tuple _ es, f => by cases f <;> simp [same, allSame_iff es]
  | .vector _ es, f => by cases f <;> simp [same, allSame_iff es]
  | .gep _ e p, f => by cases f <;> simp [same, same_iff e, pathSame_iff p, and_assoc]
  | .load _ e p, f => by cases f <;> simp [same, same_iff e, pathSame_iff p, and_assoc]
  | .store _ e p v k, f => by
    cases f <;> simp [same, same_iff e, pathSame_iff p, same_iff v, same_iff k, and_assoc]
  | .update _ e p v, f => by
    cases f <;> simp [same, same_iff e, pathSame_iff p, same_iff v, and_assoc]

theorem allSame_iff : (es fs : List (Exp α)) → (allSame es fs = true ↔ es = fs)
  | [], fs => by cases fs <;> simp [allSame]
  | e :: es, fs => by cases fs <;> simp [allSame, same_iff e, allSame_iff es]

/-- Arms are the same if their patterns and their bodies are. -/
theorem armsSame_iff :
    (xs ys : List (Arm (Exp α))) → (armsSame xs ys = true ↔ xs = ys)
  | [], ys => by cases ys <;> simp [armsSame]
  | ⟨p, e⟩ :: xs, ys => by
    cases ys with
    | nil => simp [armsSame]
    | cons y ys =>
      obtain ⟨q, f⟩ := y
      simp [armsSame, same_iff e, armsSame_iff xs]

/-- Functions are the same if all that they declare and their bodies are. -/
theorem funcsSame_iff :
    (xs ys : List (Func α (Exp α))) → (funcsSame xs ys = true ↔ xs = ys)
  | [], ys => by cases ys <;> simp [funcsSame]
  | ⟨a, x, ps, t, e⟩ :: xs, ys => by
    cases ys with
    | nil => simp [funcsSame]
    | cons y ys =>
      obtain ⟨b, y, qs, u, f⟩ := y
      simp [funcsSame, same_iff e, funcsSame_iff xs, and_assoc]

/-- Paths are the same if they take the same steps with the same offsets. -/
theorem pathSame_iff :
    (xs ys : List (Step (Exp α))) → (pathSame xs ys = true ↔ xs = ys)
  | [], ys => by cases ys <;> simp [pathSame]
  | .field n :: xs, ys => by
    cases ys with
    | nil => simp [pathSame]
    | cons y ys => cases y <;> simp [pathSame, pathSame_iff xs]
  | .element n :: xs, ys => by
    cases ys with
    | nil => simp [pathSame]
    | cons y ys => cases y <;> simp [pathSame, pathSame_iff xs]
  | .lane e :: xs, ys => by
    cases ys with
    | nil => simp [pathSame]
    | cons y ys => cases y <;> simp [pathSame, same_iff e, pathSame_iff xs]
  | .index e :: xs, ys => by
    cases ys with
    | nil => simp [pathSame]
    | cons y ys => cases y <;> simp [pathSame, same_iff e, pathSame_iff xs]

end

instance : DecidableEq (Exp α) := fun e f => decidable_of_iff _ (same_iff e f)

end Exp

end BranchIR
