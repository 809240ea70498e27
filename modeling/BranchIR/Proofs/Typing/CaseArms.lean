import Mathlib.Data.List.Nodup
import BranchIR.Proofs.FrontEnd
import BranchIR.Proofs.Literal
import BranchIR.Proofs.Parser.Writable
import BranchIR.Proofs.Typing.Rules
import BranchIR.Proofs.Typing.Subtrees

/-!
# The literal arms of a case

The literals of a checked case fit the width of its scrutinee, and no integer stands twice. That
does not make them different machine values: a negative number and the number a power of two above
it both fit, as the signed and as the unsigned reading of the same bits. There is no other way for
two arms to match one value.
-/

namespace BranchIR

/-- The literals of arms do not depend on their bodies. -/
private theorem armLiterals_map {δ ε : Type} (f : δ → ε) (arms : List (Arm δ)) :
    armLiterals (arms.map (Arm.map f)) = armLiterals arms := by
  rw [armLiterals, List.filterMap_map]
  rfl

/-- A value is among the literals if an arm has it for its pattern. -/
private theorem mem_armLiterals {ε : Type} {arms : List (Arm ε)} {value : Int} :
    value ∈ armLiterals arms ↔ ∃ arm ∈ arms, arm.pattern = .literal value := by
  simp only [armLiterals, List.mem_filterMap]
  refine exists_congr fun arm => and_congr_right fun _ => ?_
  cases arm.pattern <;> simp [Pattern.literal?]

/-- Patterns are in range when the literals among them are. -/
private theorem forall_writable_iff {ε : Type} {arms : List (Arm ε)} :
    (∀ arm ∈ arms, arm.pattern.Writable) ↔
      ∀ value ∈ armLiterals arms, Pattern.Writable (.literal value) := by
  constructor
  · intro h value hvalue
    obtain ⟨arm, harm, heq⟩ := mem_armLiterals.1 hvalue
    exact heq ▸ h arm harm
  · intro h arm harm
    cases hpattern : arm.pattern with
    | default => trivial
    | literal value => exact h value (mem_armLiterals.2 ⟨arm, harm, hpattern⟩)

namespace Typing

/-- The literals of arms that could be checked are new. -/
private theorem typedArms_newLiterals {env : Env} {width : Nat} {seen : List Int}
    {want ty : Option Ty} {arms : List (Arm (Exp Span))} {arms' : List (Arm (Exp Checked))}
    (h : typedArms env width seen want arms = .ok (ty, arms')) : NewLiterals width seen arms := by
  induction arms generalizing seen want arms' with
  | nil => simp [NewLiterals, armLiterals]
  | cons arm arms ih =>
    obtain ⟨seen', _, _, hseen, -, hrest, -⟩ := typedArms_cons_eq_ok.1 h
    exact (newLiterals_cons_iff _).2 ⟨seen', hseen, ih hrest⟩

/-- The literals of a checked case fit the width of its scrutinee, and are different integers. -/
theorem Reinfers.newLiterals {env : Env} {a : Checked} {scrutinee : Exp Checked}
    {arms : List (Arm (Exp Checked))} (h : Reinfers env (.caseOf a scrutinee arms)) :
    ∃ width, scrutinee.ty = .int width ∧ NewLiterals width [] arms := by
  rw [Reinfers, infer, Exp.mapAnn_caseOf] at h
  obtain ⟨_, width, _, _, -, hwidth, -, harms, heq⟩ := typed_caseOf_eq_ok.1 h
  obtain ⟨-, rfl, rfl⟩ := Exp.caseOf.inj heq
  have hnew := typedArms_newLiterals harms
  rw [NewLiterals, armLiterals_map] at hnew
  exact ⟨width, hwidth, hnew⟩

/-- In a checked tree the literal arms of a case, whose patterns are 128-bit integers, are different
    machine values of the scrutinee's width exactly if no pattern stands besides its unsigned
    reading. -/
theorem literal_arms_distinct_iff {env : Env} {e : Exp Span} {t scrutinee : Exp Checked}
    {a : Checked} {arms : List (Arm (Exp Checked))} (h : infer env e = .ok t)
    (hcase : .caseOf a scrutinee arms ∈ t.preorder)
    (hwide : ∀ arm ∈ arms, arm.pattern.Writable) :
    ∃ width, scrutinee.ty = .int width ∧
      (((armLiterals arms).map (BitVec.ofInt width)).Nodup ↔
        ∀ value ∈ armLiterals arms, value + 2 ^ width ∉ armLiterals arms) := by
  obtain ⟨trail, hl⟩ := Exp.mem_preorder_iff_leads.1 hcase
  obtain ⟨width, hwidth, hfit, hnodup⟩ := ((reinfers_of_typed h).leads hl).newLiterals
  have hbounds := forall_writable_iff.1 hwide
  -- two literals that fit have the same bits only if one is the unsigned reading of the other
  have hreadings : ∀ v ∈ armLiterals arms, ∀ v' ∈ armLiterals arms, v < v' →
      (BitVec.ofInt width v = BitVec.ofInt width v' ↔ v' = v + 2 ^ width) := fun v hv v' hv' =>
    ofInt_eq_ofInt_iff_of_fits (hbounds v hv) (hbounds v' hv') (hfit v hv).1 (hfit v' hv').1
  have hpos : (0 : Int) < 2 ^ width := Int.pow_pos (by decide)
  refine ⟨width, hwidth, ?_⟩
  -- the literals themselves differ, which the checker has seen to
  rw [List.nodup_map_iff_inj_on hnodup]
  constructor
  · intro hinj value hvalue hsum
    have hlt : value < value + 2 ^ width := Int.lt_add_of_pos_right _ hpos
    exact hlt.ne (hinj _ hvalue _ hsum ((hreadings _ hvalue _ hsum hlt).2 rfl))
  · intro hnone v hv v' hv' heq
    -- the larger one of two would be the unsigned reading of the other
    obtain hlt | hsame | hlt := lt_trichotomy v v'
    · obtain rfl := (hreadings v hv v' hv' hlt).1 heq
      exact absurd hv' (hnone v hv)
    · exact hsame
    · obtain rfl := (hreadings v' hv' v hv hlt).1 heq.symm
      exact absurd hv (hnone v' hv')

/-- The type of the scrutinee and the literals, if this is a case. -/
private def caseLiterals? : Exp Checked → Option (Ty × List Int)
  | .caseOf _ scrutinee arms => some (scrutinee.ty, armLiterals arms)
  | _ => none

/-- A source that is a case checks to one, with the same type and the same literals. -/
private theorem checkSource_eq_case {source : String} {ty : Ty} {literals : List Int}
    (h : (checkSource source "shell").toOption.bind caseLiterals? = some (ty, literals)) :
    ∃ a scrutinee arms, checkSource source "shell" = .ok (.caseOf a scrutinee arms) ∧
      scrutinee.ty = ty ∧ armLiterals arms = literals := by
  obtain ⟨t, ht, hcase⟩ := Option.bind_eq_some_iff.1 h
  cases t with
  | caseOf a scrutinee arms =>
    obtain ⟨hty, hliterals⟩ := Prod.mk.inj (Option.some.inj hcase)
    exact ⟨a, scrutinee, arms, toOption_eq_some.1 ht, hty, hliterals⟩
  | _ => cases hcase

/-- A case whose patterns are the least and the greatest number of the signed reading, and a number
    of the unsigned reading alone. -/
private def apart : String := "case 1i8 { -128 => 0i32, 127 => 1i32, 254 => 2i32, _ => 3i32 }"

/-- No pattern stands besides its unsigned reading, so the three arms match three values. -/
theorem literal_arms_distinct_iff_apart :
    ∃ a scrutinee arms, checkSource apart "shell" = .ok (.caseOf a scrutinee arms) ∧
      scrutinee.ty = .int 8 ∧ (∀ arm ∈ arms, arm.pattern.Writable) ∧
      armLiterals arms = [-128, 127, 254] ∧
      ((armLiterals arms).map (BitVec.ofInt 8)).Nodup := by
  have hrun : (checkSource apart "shell").toOption.bind caseLiterals? =
      some (.int 8, [-128, 127, 254]) := by
    decide +kernel
  obtain ⟨a, scrutinee, arms, hsource, hty, hliterals⟩ := checkSource_eq_case hrun
  obtain ⟨_, -, hcheck⟩ := checkSource_eq_ok.1 hsource
  have hwide : ∀ arm ∈ arms, arm.pattern.Writable := by
    rw [forall_writable_iff, hliterals]
    simp [Pattern.Writable, Text.maxWideInt]
  obtain ⟨width, hwidth, hiff⟩ :=
    literal_arms_distinct_iff hcheck (Exp.mem_preorder_self _) hwide
  obtain rfl : width = 8 := by simpa [hty, Ty.int, eq_comm] using hwidth
  refine ⟨a, scrutinee, arms, hsource, hty, hwide, hliterals, hiff.2 ?_⟩
  rw [hliterals]
  decide

/-- A case with a pattern in both readings. -/
private def bothReadings : String := "case 1i8 { -1 => 0i32, 255 => 1i32 }"

/-- The case is accepted, and its arms match the same value. -/
theorem literal_arms_collide :
    ∃ a scrutinee arms, checkSource bothReadings "shell" = .ok (.caseOf a scrutinee arms) ∧
      scrutinee.ty = .int 8 ∧ armLiterals arms = [-1, 255] ∧
      ¬((armLiterals arms).map (BitVec.ofInt 8)).Nodup := by
  have hrun : (checkSource bothReadings "shell").toOption.bind caseLiterals? =
      some (.int 8, [-1, 255]) := by
    decide +kernel
  obtain ⟨a, scrutinee, arms, hsource, hty, hliterals⟩ := checkSource_eq_case hrun
  refine ⟨a, scrutinee, arms, hsource, hty, hliterals, ?_⟩
  rw [hliterals]
  decide

end Typing

end BranchIR
