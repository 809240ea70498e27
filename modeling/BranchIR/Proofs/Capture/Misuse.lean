import BranchIR.Proofs.Capture.Classification
import BranchIR.Proofs.Exp.Place
import BranchIR.Typing.Check

/-!
# Misused branch targets

A branch target may only be jumped to: every use of it has to be the callee of a call in tail
position. The search for a fault descends the tree, and passes over the callee of such a call. It
finds the first use in preorder that is no jump, wherever the use stands: as an argument, under an
ascription, in the offset of a path or in the body of a function.
-/

namespace BranchIR.Capture

open Exp

/-- The place at the end of the trail is the callee of a call in tail position. -/
def isJump (trail : Trail Checked) : Bool :=
  match trail.getLast? with
  | some (.call a _ _, .callee) => a.tail
  | _ => false

/-- Why a use of a branch target that is no jump is refused, and where. A call is refused where it
    begins, any other use where it stands. -/
def misuse (trail : Trail Checked) (a : Checked) (id : VarId) : Error :=
  match trail.getLast? with
  | some (.call b _ _, .callee) => ⟨.nonTailCall id, b.span.first⟩
  | _ => ⟨.escapingTarget id, a.span.first⟩

/-- The error at a place, if a branch target is used there other than by a jump. -/
def misuse? (targets : List VarId) (place : Trail Checked × Exp Checked) : Option Error :=
  match place.2 with
  | .var a id =>
    if id ∈ targets ∧ isJump place.1 = false then some (misuse place.1 a id) else none
  | _ => none

section Places

variable {targets : List VarId} {trail : Trail Checked} {t e x : Exp Checked} {err : Error}

/-- A place is jumped to if the last step on the way is that to the callee of a tail call. -/
private theorem isJump_iff :
    isJump trail = true ↔
      ∃ above a callee args, trail = above ++ [(.call a callee args, .callee)] ∧
        a.tail = true := by
  constructor
  · intro h
    unfold isJump at h
    split at h
    · next a callee args hlast =>
      obtain ⟨above, rfl⟩ := List.getLast?_eq_some_iff.1 hlast
      exact ⟨above, a, callee, args, rfl, h⟩
    · cases h
  · rintro ⟨above, a, callee, args, rfl, htail⟩
    simpa [isJump] using htail

/-- A misused place is a variable that names a target and is not jumped to. -/
private theorem misuse?_eq_some :
    misuse? targets (trail, x) = some err ↔
      ∃ a id, x = .var a id ∧ id ∈ targets ∧ isJump trail = false ∧ err = misuse trail a id := by
  cases x with
  | var a id =>
    simp only [misuse?, Option.ite_none_right_eq_some, Option.some.injEq, Exp.var.injEq]
    constructor
    · intro ⟨⟨hid, hjump⟩, herr⟩
      exact ⟨a, id, ⟨rfl, rfl⟩, hid, hjump, herr.symm⟩
    · rintro ⟨_, _, ⟨rfl, rfl⟩, hid, hjump, rfl⟩
      exact ⟨⟨hid, hjump⟩, rfl⟩
  | _ => simp [misuse?]

/-- A place is not misused if it names no target, or is jumped to. -/
private theorem misuse?_eq_none :
    misuse? targets (trail, x) = none ↔
      ∀ a id, x = .var a id → id ∈ targets → isJump trail = true := by
  rw [Option.eq_none_iff_forall_ne_some]
  constructor
  · intro h a id hx hid
    cases hjump : isJump trail with
    | true => rfl
    | false => exact absurd (misuse?_eq_some.2 ⟨a, id, hx, hid, hjump, rfl⟩) (h _)
  · intro h err herr
    obtain ⟨a, id, hx, hid, hjump, -⟩ := misuse?_eq_some.1 herr
    rw [h a id hx hid] at hjump
    cases hjump

/-- Only the last step of the way to a place counts. -/
private theorem misuse?_congr {trail' : Trail Checked} (h : trail.getLast? = trail'.getLast?) :
    misuse? targets (trail, x) = misuse? targets (trail', x) := by
  have hjump : isJump trail = isJump trail' := by rw [isJump, isJump, h]
  have herr (a : Checked) (id : VarId) : misuse trail a id = misuse trail' a id := by
    rw [misuse, misuse, h]
  cases x with
  | var a id => simp only [misuse?, hjump, herr]
  | _ => rfl

end Places

/-! ## The search for a fault -/

section Search

variable {targets : List VarId} {e part : Exp Checked} {role : Role Checked}

/-- The expression calls a branch target. -/
def CallsTarget (targets : List VarId) (e : Exp Checked) : Prop :=
  ∃ a b id args, e = .call a (.var b id) args ∧ id ∈ targets

/-- The first misuse in a part of an expression. -/
def partMisuse? (targets : List VarId) (e : Exp Checked) (p : Role Checked × Exp Checked) :
    Option Error :=
  p.2.places.findSome? fun place => misuse? targets ((e, p.1) :: place.1, place.2)

/-- The first misuse in a tree is at the root or in a part. -/
private theorem findSome?_misuse? (targets : List VarId) (e : Exp Checked) :
    e.places.findSome? (misuse? targets) =
      (misuse? targets ([], e)).or (firstFault? (e.parts.map (partMisuse? targets e))) := by
  rw [findSome?_places, firstFault?, List.findSome?_map]
  rfl

/-- Unless the part itself is misused in its role, the first misuse in it is that of the part
    alone. -/
private theorem partMisuse?_eq
    (h : misuse? targets ([(e, role)], part) = misuse? targets ([], part)) :
    partMisuse? targets e (role, part) = part.places.findSome? (misuse? targets) := by
  rw [partMisuse?, findSome?_places, findSome?_places, h]
  -- below the part, the last step is the same
  have hbelow (p : Role Checked × Exp Checked) (place : Trail Checked × Exp Checked) :
      misuse? targets ((e, role) :: (part, p.1) :: place.1, place.2) =
        misuse? targets ((part, p.1) :: place.1, place.2) :=
    misuse?_congr List.getLast?_cons_cons
  simp only [hbelow]

/-- What is not the callee is misused as it is alone. -/
private theorem misuse?_of_ne_callee (h : role ≠ .callee) :
    misuse? targets ([(e, role)], part) = misuse? targets ([], part) := by
  cases role with
  | callee => exact absurd rfl h
  | _ => cases e <;> rfl

/-- As a part of anything but a call to it, a branch target is misused as it is alone. -/
private theorem misuse?_part (h : ¬ CallsTarget targets e) (hp : (role, part) ∈ e.parts) :
    misuse? targets ([(e, role)], part) = misuse? targets ([], part) := by
  cases role with
  | callee =>
    cases e with
    | call a callee args =>
      obtain rfl : part = callee := by simpa [parts] using hp
      cases part with
      | var b id =>
        have hid : id ∉ targets := fun hid => h ⟨a, b, id, args, rfl, hid⟩
        simp [misuse?, hid]
      | _ => rfl
    | _ => simp [parts] at hp
  | _ => exact misuse?_of_ne_callee (by simp)

/-- At anything but a call to a branch target, the fault is that of the root or the first below. -/
private theorem faultAt?_eq_or (h : ¬ CallsTarget targets e)
    (f : Role Checked × Exp Checked → Option Error) :
    faultAt? targets e (e.parts.map f) =
      (misuse? targets ([], e)).or (firstFault? (e.parts.map f)) := by
  cases e with
  | var a id => simp [faultAt?, misuse?, isJump, misuse, parts, firstFault?]
  | call a callee args =>
    cases callee with
    | var b id =>
      rw [faultAt?, if_neg fun hid => h ⟨a, b, id, args, rfl, hid⟩]
      rfl
    | _ => rfl
  | _ => rfl

/-- The fault of a tree is decided at its root, from the faults of its parts. -/
private theorem fault?_eq (targets : List VarId) (e : Exp Checked) :
    fault? targets e = faultAt? targets e (e.parts.map fun p => fault? targets p.2) := by
  rw [fault?, fold_eq, ← parts_snd, List.map_map]
  rfl

/-- The fault of a tree is that of the first place where a branch target is misused. -/
theorem fault?_eq_findSome? (targets : List VarId) (t : Exp Checked) :
    fault? targets t = t.places.findSome? (misuse? targets) := by
  induction t using Exp.induct with
  | step e ih =>
    have hpart (p) (hp : p ∈ e.parts)
        (hsame : misuse? targets ([(e, p.1)], p.2) = misuse? targets ([], p.2)) :
        fault? targets p.2 = partMisuse? targets e p := by
      rw [ih p.2 (mem_children_of_mem_parts hp)]
      exact (partMisuse?_eq hsame).symm
    rw [fault?_eq, findSome?_misuse?]
    by_cases hcall : CallsTarget targets e
    · obtain ⟨a, b, id, args, rfl, hid⟩ := hcall
      -- the callee has no parts, and is misused unless the call is a tail
      have hcallee : partMisuse? targets (.call a (.var b id) args) (.callee, .var b id) =
          if a.tail then none else some ⟨.nonTailCall id, a.span.first⟩ := by
        rw [partMisuse?, places_eq]
        cases htail : a.tail <;> simp [parts, misuse?, isJump, misuse, hid, htail]
      have hargs (arg) (harg : arg ∈ args) :
          fault? targets arg = partMisuse? targets (.call a (.var b id) args) (.operand, arg) :=
        hpart (.operand, arg) (List.mem_cons_of_mem _ (List.mem_map_of_mem harg))
          (misuse?_of_ne_callee (by simp))
      simp only [faultAt?, parts, List.map_cons, List.map_map, Function.comp_def, if_pos hid,
        List.tail_cons, hcallee, List.map_congr_left hargs]
      cases a.tail <;> rfl
    · rw [List.map_congr_left fun p hp => hpart p hp (misuse?_part hcall hp)]
      exact faultAt?_eq_or hcall _

end Search

/-! ## When a program is refused -/

variable {targets : List VarId} {t : Exp Checked} {err : Error}

/-- No fault is found if every use of a branch target is a jump. -/
theorem fault?_eq_none :
    fault? targets t = none ↔
      ∀ trail a id, (trail, .var a id) ∈ t.places → id ∈ targets → isJump trail = true := by
  rw [fault?_eq_findSome?, List.findSome?_eq_none_iff]
  constructor
  · intro h trail a id hplace
    exact misuse?_eq_none.1 (h _ hplace) a id rfl
  · intro h ⟨trail, x⟩ hplace
    refine misuse?_eq_none.2 fun a id hx => ?_
    subst hx
    exact h trail a id hplace

/-- The fault found is that of the first use that is no jump. -/
private theorem fault?_eq_some :
    fault? targets t = some err ↔
      ∃ before trail a id after, t.places = before ++ (trail, .var a id) :: after ∧
        id ∈ targets ∧ isJump trail = false ∧ err = misuse trail a id ∧
        ∀ trail' a' id', (trail', .var a' id') ∈ before → id' ∈ targets →
          isJump trail' = true := by
  rw [fault?_eq_findSome?, List.findSome?_eq_some_iff]
  constructor
  · rintro ⟨before, ⟨trail, x⟩, after, hplaces, herr, hbefore⟩
    obtain ⟨a, id, rfl, hid, hjump, rfl⟩ := misuse?_eq_some.1 herr
    exact ⟨before, trail, a, id, after, hplaces, hid, hjump, rfl,
      fun trail' a' id' hplace => misuse?_eq_none.1 (hbefore _ hplace) a' id' rfl⟩
  · rintro ⟨before, trail, a, id, after, hplaces, hid, hjump, rfl, hbefore⟩
    refine ⟨before, _, after, hplaces, misuse?_eq_some.2 ⟨a, id, rfl, hid, hjump, rfl⟩, ?_⟩
    intro ⟨trail', x⟩ hplace
    refine misuse?_eq_none.2 fun a' id' hx => ?_
    subst hx
    exact hbefore trail' a' id' hplace

/-- Where no use is at fault, every occurrence of a branch target is the callee of a tail
    call. -/
theorem leads_callee {trail : Trail Checked} {a : Checked} {id : VarId}
    (h : fault? targets t = none) (hid : id ∈ targets) (hl : Leads t trail (.var a id)) :
    ∃ up ann args, trail = up ++ [(.call ann (.var a id) args, .callee)] ∧ ann.tail = true := by
  obtain ⟨up, ann, callee, args, rfl, htail⟩ :=
    isJump_iff.1 (fault?_eq_none.1 h trail a id (mem_places_iff_leads.2 hl) hid)
  -- what the last step leads to is the callee
  obtain ⟨-, hlast⟩ := hl.split
  cases hlast with
  | down hp rest =>
    cases rest
    have hcallee : .var a id = callee := by simpa [parts] using hp
    exact ⟨up, ann, args, by rw [hcallee], htail⟩

/-- A fault is found where a node of the tree begins. -/
theorem fault?_place (h : fault? targets t = some err) :
    ∃ node ∈ t.preorder, err.position = node.checkedStart := by
  obtain ⟨before, trail, a, id, after, hplaces, -, -, rfl, -⟩ := fault?_eq_some.1 h
  have hl : Leads t trail (.var a id) := by
    rw [← mem_places_iff_leads, hplaces]
    exact List.mem_append_right _ (List.mem_cons_self ..)
  unfold misuse
  split
  · next b callee args hlast =>
    exact ⟨_, hl.mem_preorder_of_mem (List.mem_of_getLast? hlast), rfl⟩
  · exact ⟨_, hl.mem_preorder, rfl⟩

/-- A program is accepted exactly if every use of a branch target is the callee of a tail call.
    Otherwise it is refused for the first use in preorder that is not. -/
theorem analyze_first_misuse (t : Exp Checked) :
    ((∃ facts, analyze t = .ok facts) ↔
      ∀ trail a id, (trail, .var a id) ∈ t.places → id ∈ (factsOf t).targets →
        isJump trail = true) ∧
    ∀ err, analyze t = .error err ↔
      ∃ before trail a id after, t.places = before ++ (trail, .var a id) :: after ∧
        id ∈ (factsOf t).targets ∧ isJump trail = false ∧ err = misuse trail a id ∧
        ∀ trail' a' id', (trail', .var a' id') ∈ before → id' ∈ (factsOf t).targets →
          isJump trail' = true := by
  refine ⟨?_, fun err => analyze_eq_error.trans fault?_eq_some⟩
  rw [← fault?_eq_none]
  constructor
  · intro ⟨facts, h⟩
    obtain ⟨rfl, hnone⟩ := analyze_eq_ok.1 h
    exact hnone
  · intro h
    exact ⟨_, analyze_eq_ok.2 ⟨rfl, h⟩⟩

/-- A function that uses a variable from outside is called in tail position, but the callee is
    ascribed. -/
private def ascribedCallee : Exp Checked :=
  let node (offset : Nat) (ty : Ty) : Checked := ⟨⟨offset, offset, "tree"⟩, ty, true⟩
  let i32 := Ty.int 32
  let thunk := Ty.fn [] i32
  let f : Func Checked (Exp Checked) := ⟨node 3 thunk, 1, [], i32, .var (node 4 i32) 0⟩
  let callee := Exp.ascribe (node 6 thunk) (.var (node 7 thunk) 1) thunk
  .letIn (node 0 i32) 0 i32 (.int (node 1 i32) 1 32)
    (.recIn (node 2 i32) [f] (.call (node 5 i32) callee []))

example : analyze ascribedCallee = .error ⟨.escapingTarget 1, ⟨7, "tree"⟩⟩ := by
  decide +kernel

end BranchIR.Capture
