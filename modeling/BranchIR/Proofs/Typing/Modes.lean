import BranchIR.Proofs.Exp.Induction
import BranchIR.Proofs.Typing.Inversion

/-!
# The two modes of checking

A type is computed, or checked against one that is wanted. All forms but one compute their type
and compare it at the end. A case passes the wanted type on to its arms, and lets the first arm
decide if nothing is wanted. Still the same tree comes out: a first arm that has the wanted type
makes it the type of the other arms in both modes.
-/

namespace BranchIR.Typing

open Exp

variable {env : Env} {want : Option Ty}

/-- Every form but a case computes its type first and compares it at the end. -/
theorem typed_eq_settle {e : Exp Span} (h : ∀ s scrutinee arms, e ≠ .caseOf s scrutinee arms) :
    typed env want e = typed env none e >>= settle want := by
  cases e with
  | caseOf s scrutinee arms => exact absurd rfl (h s scrutinee arms)
  | var s id =>
    simp only [typed]
    split <;> rfl
  | prim s op args | vector s args =>
    -- without a first operand there is nothing to compute
    cases args with
    | nil => rfl
    | cons arg args =>
      simp only [typed, bind_assoc]
      rfl
  | _ =>
    simp only [typed, bind_assoc]
    rfl

/-- A type that is wanted of arms is the type they share. -/
theorem typedArms_wanted {width : Nat} {seen : List Int} {T : Ty} {ty : Option Ty}
    {arms : List (Arm (Exp Span))} {arms' : List (Arm (Exp Checked))}
    (h : typedArms env width seen (some T) arms = .ok (ty, arms')) : ty = some T := by
  induction arms generalizing seen arms' with
  | nil =>
    simp only [typedArms, Except.ok.injEq, Prod.mk.injEq] at h
    exact h.1.symm
  | cons arm arms ih =>
    obtain ⟨_, _, _, -, -, hrest, -⟩ := typedArms_cons_eq_ok.1 h
    exact ih hrest

/-- Checking an expression against what is wanted succeeds exactly if computing its type does
    and the type is admitted. The same tree comes out. -/
def ModesAgree (e : Exp Span) : Prop :=
  ∀ env want t, typed env want e = .ok t ↔ typed env none e = .ok t ∧ Admits want t.ty

/-- Where the modes agree on the first arm, they agree on all: its type is that of the others
    in both modes. -/
private theorem typedArms_iff_none {arm : Arm (Exp Span)} {arms : List (Arm (Exp Span))}
    (h : ModesAgree arm.body) {width : Nat} {seen : List Int} {ty : Option Ty}
    {arms' : List (Arm (Exp Checked))} :
    typedArms env width seen want (arm :: arms) = .ok (ty, arms') ↔
      typedArms env width seen none (arm :: arms) = .ok (ty, arms') ∧
        Admits want (ty.getD .void) := by
  -- a type that is wanted and the one found for the first arm are the same
  have hgetD {T : Ty} (hwant : Admits want T) : want.getD T = T := by
    cases want with
    | none => rfl
    | some U => exact admits_some.1 hwant
  simp only [typedArms_cons_eq_ok, Option.getD_none]
  constructor
  · intro ⟨seen', first, rest, hseen, hfirst, hrest, harms'⟩
    obtain ⟨hinfer, hwant⟩ := (h env want first).1 hfirst
    rw [hgetD hwant] at hrest
    refine ⟨⟨seen', first, rest, hseen, hinfer, hrest, harms'⟩, ?_⟩
    rw [typedArms_wanted hrest]
    exact hwant
  · intro ⟨⟨seen', first, rest, hseen, hinfer, hrest, harms'⟩, hwant⟩
    rw [typedArms_wanted hrest] at hwant
    have hfirst := (h env want first).2 ⟨hinfer, hwant⟩
    exact ⟨seen', first, rest, hseen, hfirst, (hgetD hwant).symm ▸ hrest, harms'⟩

/-- The modes agree on every expression. Of the parts only the first arm of a case is checked in
    the mode of the whole, so this is an induction along first arms. -/
theorem typed_iff_infer (e : Exp Span) : ModesAgree e := by
  have hforms {e : Exp Span} (h : ∀ s scrutinee arms, e ≠ .caseOf s scrutinee arms) :
      ModesAgree e := by
    intro env want t
    rw [typed_eq_settle h, bind_eq_ok]
    simp only [settle_eq_ok]
    constructor
    · intro ⟨u, hu, hwant, heq⟩
      subst heq
      exact ⟨hu, hwant⟩
    · intro ⟨ht, hwant⟩
      exact ⟨t, ht, hwant, rfl⟩
  induction e with
  | caseOf s scrutinee arms _ harms =>
    intro env want t
    cases arms with
    | nil => simp [typed_caseOf_eq_ok]
    | cons arm arms =>
      have hfirst := harms arm (List.mem_cons_self ..)
      simp only [typed_caseOf_eq_ok]
      constructor
      · intro ⟨scrutinee', width, ty, arms', hscrutinee, hwidth, hne, htyped, ht⟩
        obtain ⟨htyped, hwant⟩ := (typedArms_iff_none hfirst).1 htyped
        subst ht
        exact ⟨⟨scrutinee', width, ty, arms', hscrutinee, hwidth, hne, htyped, rfl⟩, hwant⟩
      · intro ⟨⟨scrutinee', width, ty, arms', hscrutinee, hwidth, hne, htyped, ht⟩, hwant⟩
        subst ht
        have htyped := (typedArms_iff_none hfirst).2 ⟨htyped, hwant⟩
        exact ⟨scrutinee', width, ty, arms', hscrutinee, hwidth, hne, htyped, rfl⟩
  | _ => exact hforms (by simp)

/-- Checking an expression against a type succeeds exactly where computing its type gives that
    type, and with the same tree. -/
theorem check_iff_infer (env : Env) (e : Exp Span) (ty : Ty) (t : Exp Checked) :
    check env e ty = .ok t ↔ infer env e = .ok t ∧ t.ty = ty := by
  rw [check, infer, typed_iff_infer e env (some ty) t, admits_some, eq_comm (a := ty)]

end BranchIR.Typing
