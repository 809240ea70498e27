import BranchIR.Proofs.Exp.Binding
import BranchIR.Proofs.Typing.Elaboration

/-!
# Where checking fails

A program is refused where one of its nodes begins. That an identity is not in scope is said
only of variables that are free in the expression and that the environment does not hold.
-/

namespace BranchIR

open Exp

/-- A chain of two steps fails when the first does, or the second after the first. -/
theorem bind_eq_error {α β : Type} {x : Except Error α} {f : α → Except Error β} {err : Error} :
    (x >>= f) = .error err ↔ x = .error err ∨ ∃ a, x = .ok a ∧ f a = .error err := by
  cases x <;> simp [bind, Except.bind]

theorem pure_ne_error {α : Type} {a : α} {err : Error} :
    (pure a : Except Error α) ≠ .error err := by
  simp [pure, Except.pure]

namespace Typing

/-- The error is at the place, and is none of scopes. -/
structure Misfit (pos : Position) (err : Error) : Prop where
  place : err.position = pos
  unscoped : ∀ id, err.cause ≠ .notInScope id

/-- The error is where a node of the expression begins. If it is one of scopes, the variable is
    free in the expression, and the environment does not hold it. -/
structure Fault (env : Env) (e : Exp Span) (err : Error) : Prop where
  place : ∃ node ∈ e.preorder, err.position = node.start
  scope : ∀ id, err.cause = .notInScope id → Free id e ∧ env.find? id = none

/-- All errors of checking the expression are faults of it. -/
def Faulted (e : Exp Span) : Prop := ∀ env want err, typed env want e = .error err → Fault env e err

/-! ## Single steps -/

section Steps

variable {pos : Position} {err : Error}

/-- What is refused for a reason that is none of scopes does not fit. -/
private theorem refuse_misfit {α : Type} {cause : Cause} (hcause : ∀ id, cause ≠ .notInScope id)
    (h : (refuse cause pos : Except Error α) = .error err) : Misfit pos err := by
  obtain rfl : Error.mk cause pos = err := Except.error.inj h
  exact ⟨rfl, hcause⟩

/-- What is refused on a condition does not fit. -/
private theorem refuseIf_misfit {condition : Bool} {cause : Cause}
    (hcause : ∀ id, cause ≠ .notInScope id)
    (h : refuseIf condition cause pos = .error err) : Misfit pos err := by
  cases condition with
  | false => cases h
  | true => exact refuse_misfit hcause h

/-- A type without the part that is required does not fit, where its expression begins. -/
private theorem require_misfit {α : Type} {expected : String} {part? : Ty → Option α}
    {t : Exp Checked} (h : require expected part? t = .error err) : Misfit t.checkedStart err := by
  unfold require at h
  split at h
  · cases h
  · exact refuse_misfit (by simp) h

/-- A type that is not the wanted one does not fit, where its expression begins. -/
private theorem settle_misfit {want : Option Ty} {t : Exp Checked}
    (h : settle want t = .error err) :
    Misfit t.checkedStart err := by
  cases want with
  | none => cases h
  | some ty =>
    rw [settle] at h
    split at h
    · cases h
    · exact refuse_misfit (by simp) h

/-- A field that the type does not have does not fit. -/
private theorem fieldTy_misfit {n : Nat} {ty : Ty} (h : fieldTy n ty pos = .error err) :
    Misfit pos err := by
  unfold fieldTy at h
  split at h
  · split at h
    · cases h
    · exact refuse_misfit (by simp [Cause.fieldOutOfRange]) h
  · exact refuse_misfit (by simp) h

/-- An element that the type does not have does not fit. -/
private theorem elementTy_misfit {n : Nat} {ty : Ty} (h : elementTy n ty pos = .error err) :
    Misfit pos err := by
  unfold elementTy at h
  split at h
  · split at h
    · cases h
    · exact refuse_misfit (by simp [Cause.elementOutOfRange]) h
  · exact refuse_misfit (by simp) h

private theorem laneTy_misfit {ty : Ty} (h : laneTy ty pos = .error err) : Misfit pos err := by
  unfold laneTy at h
  split at h
  · cases h
  · exact refuse_misfit (by simp) h

/-- An index into what is no pointer, or behind the first step, does not fit. -/
private theorem indexTy_misfit {first : Bool} {ty : Ty} (h : indexTy first ty pos = .error err) :
    Misfit pos err := by
  unfold indexTy at h
  split at h
  · split at h
    · cases h
    · exact refuse_misfit (by simp) h
  · exact refuse_misfit (by simp [Cause.lateIndex]) h

/-- A literal that does not fit the width, or stands twice, does not fit. -/
private theorem checkPattern_misfit {width : Nat} {seen : List Int} {pattern : Pattern}
    (h : checkPattern width seen pattern pos = .error err) : Misfit pos err := by
  unfold checkPattern at h
  split at h
  · cases h
  · split at h
    · exact refuse_misfit (by simp [Cause.patternTooWide]) h
    · split at h
      · exact refuse_misfit (by simp [Cause.duplicatePattern]) h
      · cases h

end Steps

/-! ## Faults of parts -/

section Parts

variable {env env' : Env} {want : Option Ty} {e p : Exp Span} {err : Error}

/-- A checked expression begins where the expression does. -/
private theorem checkedStart_eq {t : Exp Checked} (h : typed env want e = .ok t) :
    t.checkedStart = e.start := by
  rw [← typed_erases e _ _ _ h, start, ann_mapAnn]
  rfl

private theorem Misfit.fault {pos : Position} (h : Misfit pos err) (hpos : pos = e.start) :
    Fault env e err where
  place := ⟨e, mem_preorder_self e, h.place.trans hpos⟩
  scope id hid := absurd hid (h.unscoped id)

/-- What a checked part lacks is a fault of the part. -/
private theorem Fault.of_checked {t : Exp Checked} {env'' : Env} (ht : typed env' want e = .ok t)
    (h : Misfit t.checkedStart err) : Fault env'' e err :=
  h.fault (checkedStart_eq ht)

/-- A fault of a part is one of the whole, if the environment of the part holds what is bound
    for it. -/
private theorem Fault.of_part (role : Role Span) (h : Fault env' p err) (hp : (role, p) ∈ e.parts)
    (henv : ∀ id, env'.find? id = none → id ∉ e.binds role ∧ env.find? id = none) :
    Fault env e err where
  place := by
    obtain ⟨node, hnode, hplace⟩ := h.place
    exact ⟨node, mem_preorder_of_child (mem_children_of_mem_parts hp) hnode, hplace⟩
  scope id hid := by
    obtain ⟨hfree, hnone⟩ := h.scope id hid
    obtain ⟨hbinds, hfind⟩ := henv id hnone
    exact ⟨.part hp hbinds hfree, hfind⟩

/-- Nothing is bound for the part. -/
private theorem Fault.of_operand (role : Role Span) (h : Fault env' p err)
    (hp : (role, p) ∈ e.parts) (hbinds : e.binds role = []) (henv : env'.find? = env.find?) :
    Fault env e err :=
  h.of_part role hp fun id hid => ⟨by simp [hbinds], henv ▸ hid⟩

/-- An identity is unknown behind a declaration if it is another one and was unknown before. -/
private theorem find?_declare_eq_none {id x : VarId} {ty : Ty} :
    (env.declare x ty).find? id = none ↔ id ≠ x ∧ env.find? id = none := by
  by_cases h : id = x
  · subst h
    simp
  · rw [Env.find?_declare_of_ne _ _ h]
    exact (and_iff_right h).symm

/-- An identity is unknown behind declarations if it is none of theirs and was unknown before. -/
theorem find?_declareAll_eq_none {id : VarId} {bindings : List (VarId × Ty)} :
    (env.declareAll bindings).find? id = none ↔
      id ∉ bindings.map Prod.fst ∧ env.find? id = none := by
  induction bindings generalizing env with
  | nil => simp [Env.declareAll]
  | cons b bs ih =>
    have hrest : (env.declareAll (b :: bs)).find? id = none ↔ _ := @ih (env.declare b.1 b.2)
    rw [hrest, find?_declare_eq_none, List.map_cons, List.mem_cons, not_or]
    exact ⟨fun ⟨hbs, hb, hnone⟩ => ⟨⟨hb, hbs⟩, hnone⟩, fun ⟨⟨hb, hbs⟩, hnone⟩ => ⟨hbs, hb, hnone⟩⟩

end Parts

/-! ## Lists, arms, functions and paths -/

section Containers

variable {env : Env} {err : Error}

/-- Checking a list fails at one of its items. -/
private theorem typedAll_fault {es : List (Exp Span)} (h : ∀ e ∈ es, Faulted e)
    {wants : List (Option Ty)} (herr : typedAll env wants es = .error err) :
    ∃ e ∈ es, Fault env e err := by
  induction es generalizing wants with
  | nil => cases herr
  | cons e es ih =>
    obtain ⟨he, hes⟩ := List.forall_mem_cons.1 h
    rw [typedAll] at herr
    rcases bind_eq_error.1 herr with herr | ⟨_, -, herr⟩
    · exact ⟨e, List.mem_cons_self .., he _ _ _ herr⟩
    · rcases bind_eq_error.1 herr with herr | ⟨_, -, herr⟩
      · obtain ⟨e', he', hfault⟩ := ih hes herr
        exact ⟨e', List.mem_cons_of_mem _ he', hfault⟩
      · exact absurd herr pure_ne_error

/-- Checking arms fails at the body of one of them: that is where a pattern that does not fit is
    reported, too. -/
private theorem typedArms_fault {arms : List (Arm (Exp Span))} (h : ∀ arm ∈ arms, Faulted arm.body)
    {width : Nat} {seen : List Int} {want : Option Ty}
    (herr : typedArms env width seen want arms = .error err) :
    ∃ arm ∈ arms, Fault env arm.body err := by
  induction arms generalizing seen want with
  | nil => cases herr
  | cons arm arms ih =>
    obtain ⟨harm, harms⟩ := List.forall_mem_cons.1 h
    rw [typedArms] at herr
    -- a pattern is faulted where the body begins
    rcases bind_eq_error.1 herr with herr | ⟨_, -, herr⟩
    · exact ⟨arm, List.mem_cons_self .., (checkPattern_misfit herr).fault rfl⟩
    rcases bind_eq_error.1 herr with herr | ⟨_, -, herr⟩
    · exact ⟨arm, List.mem_cons_self .., harm _ _ _ herr⟩
    rcases bind_eq_error.1 herr with herr | ⟨_, -, herr⟩
    · obtain ⟨arm', harm', hfault⟩ := ih harms herr
      exact ⟨arm', List.mem_cons_of_mem _ harm', hfault⟩
    · exact absurd herr pure_ne_error

/-- Checking functions fails in the body of one of them, where its parameters are known. -/
private theorem typedFuncs_fault {fs : List (Func Span (Exp Span))} (h : ∀ f ∈ fs, Faulted f.body)
    (herr : typedFuncs env fs = .error err) :
    ∃ f ∈ fs, Fault (bodyEnv env f.params) f.body err := by
  induction fs with
  | nil => cases herr
  | cons f fs ih =>
    obtain ⟨hf, hfs⟩ := List.forall_mem_cons.1 h
    rw [typedFuncs] at herr
    rcases bind_eq_error.1 herr with herr | ⟨_, -, herr⟩
    · exact ⟨f, List.mem_cons_self .., hf _ _ _ herr⟩
    rcases bind_eq_error.1 herr with herr | ⟨_, -, herr⟩
    · obtain ⟨g, hg, hfault⟩ := ih hfs herr
      exact ⟨g, List.mem_cons_of_mem _ hg, hfault⟩
    · exact absurd herr pure_ne_error

/-- The errors of a path: at its owner, or in one of its offsets. -/
private theorem typedPath_fault {path : List (Step (Exp Span))} (h : ∀ e ∈ offsets path, Faulted e)
    {first : Bool} {ty : Ty} {owner : Position}
    (herr : typedPath env first ty owner path = .error err) :
    Misfit owner err ∨ ∃ e ∈ offsets path, Fault env e err := by
  induction path generalizing first ty with
  | nil => cases herr
  | cons step path ih =>
    rw [offsets_cons, List.forall_mem_append] at h
    obtain ⟨hstep, hpath⟩ := h
    -- what is wrong further on is wrong with the whole path
    have hrest {ty : Ty} (herr : typedPath env false ty owner path = .error err) :
        Misfit owner err ∨ ∃ e ∈ offsets (step :: path), Fault env e err := by
      rcases ih hpath herr with hmisfit | ⟨e, he, hfault⟩
      · exact .inl hmisfit
      · exact .inr ⟨e, by simp [he], hfault⟩
    cases step with
    | field n =>
      rw [typedPath] at herr
      rcases bind_eq_error.1 herr with herr | ⟨_, -, herr⟩
      · exact .inl (fieldTy_misfit herr)
      rcases bind_eq_error.1 herr with herr | ⟨_, -, herr⟩
      · exact hrest herr
      · exact absurd herr pure_ne_error
    | element n =>
      rw [typedPath] at herr
      rcases bind_eq_error.1 herr with herr | ⟨_, -, herr⟩
      · exact .inl (elementTy_misfit herr)
      rcases bind_eq_error.1 herr with herr | ⟨_, -, herr⟩
      · exact hrest herr
      · exact absurd herr pure_ne_error
    | lane e =>
      have he : e ∈ offsets (.lane e :: path) := by simp
      rw [typedPath] at herr
      rcases bind_eq_error.1 herr with herr | ⟨_, -, herr⟩
      · exact .inr ⟨e, he, (laneTy_misfit herr).fault rfl⟩
      rcases bind_eq_error.1 herr with herr | ⟨t, ht, herr⟩
      · exact .inr ⟨e, he, hstep e (by simp) _ _ _ herr⟩
      rcases bind_eq_error.1 herr with herr | ⟨_, -, herr⟩
      · exact .inr ⟨e, he, .of_checked ht (require_misfit herr)⟩
      rcases bind_eq_error.1 herr with herr | ⟨_, -, herr⟩
      · exact hrest herr
      · exact absurd herr pure_ne_error
    | index e =>
      have he : e ∈ offsets (.index e :: path) := by simp
      rw [typedPath] at herr
      rcases bind_eq_error.1 herr with herr | ⟨_, -, herr⟩
      · exact .inr ⟨e, he, (indexTy_misfit herr).fault rfl⟩
      rcases bind_eq_error.1 herr with herr | ⟨t, ht, herr⟩
      · exact .inr ⟨e, he, hstep e (by simp) _ _ _ herr⟩
      rcases bind_eq_error.1 herr with herr | ⟨_, -, herr⟩
      · exact .inr ⟨e, he, .of_checked ht (require_misfit herr)⟩
      rcases bind_eq_error.1 herr with herr | ⟨_, -, herr⟩
      · exact hrest herr
      · exact absurd herr pure_ne_error

/-- A path that may not step through a pointer is faulted at an offset. -/
private theorem refuseIndex_misfit {path : List (Step (Exp Span))}
    (h : refuseIndex path = .error err) :
    ∃ offset ∈ offsets path, Misfit offset.start err := by
  unfold refuseIndex at h
  split at h
  · rename_i offset hoffset
    refine ⟨offset, ?_, refuse_misfit (by simp [Cause.indexInUpdate]) h⟩
    induction path with
    | nil => cases hoffset
    | cons step path ih => cases step <;> simp_all [firstIndex?]
  · cases h

end Containers

/-! ## All forms -/

section Forms

variable {env : Env} {want : Option Ty} {err : Error} {s : Span}

/-- The errors of a path whose offsets are operands are faults of the whole. -/
private theorem Fault.of_path {e : Exp Span} {path : List (Step (Exp Span))} {first : Bool}
    {ty : Ty} (h : ∀ offset ∈ offsets path, Faulted offset)
    (hp : ∀ offset ∈ offsets path, (Role.operand, offset) ∈ e.parts)
    (hbinds : e.binds .operand = [])
    (herr : typedPath env.operand first ty e.start path = .error err) : Fault env e err := by
  rcases typedPath_fault h herr with hmisfit | ⟨offset, hoffset, hfault⟩
  · exact hmisfit.fault rfl
  · exact hfault.of_operand .operand (hp offset hoffset) hbinds rfl

/-- A variable fails only when it is not in scope, and it is free in itself. -/
private theorem var_faulted (x : VarId) : Faulted (.var s x) := by
  intro env want err h
  rw [typed] at h
  split at h
  · exact (settle_misfit h).fault rfl
  · -- the one place where scopes are at fault
    rename_i hnone
    obtain rfl : Error.mk (.notInScope x) s.first = err := Except.error.inj h
    refine ⟨⟨_, mem_preorder_self _, rfl⟩, fun id hid => ?_⟩
    obtain rfl : x = id := Cause.notInScope.inj hid
    exact ⟨.var, hnone⟩

private theorem int_faulted (value : Int) (width : Nat) : Faulted (.int s value width) := by
  intro env want err h
  rw [typed] at h
  exact (settle_misfit h).fault rfl

/-- An ascription fails in its expression, or where it begins. -/
private theorem ascribe_faulted {inner : Exp Span} (hinner : Faulted inner) (ty : Ty) :
    Faulted (.ascribe s inner ty) := by
  intro env want err h
  rw [typed] at h
  rcases bind_eq_error.1 h with h | ⟨t, ht, h⟩
  · exact (hinner _ _ _ h).of_operand .same (by simp [parts]) rfl rfl
  · exact (settle_misfit h).fault rfl

/-- A coercion fails in its expression, or where it begins. -/
private theorem coerce_faulted {inner : Exp Span} (hinner : Faulted inner) (ty : Ty) :
    Faulted (.coerce s inner ty) := by
  intro env want err h
  rw [typed] at h
  rcases bind_eq_error.1 h with h | ⟨t, -, h⟩
  · exact (hinner _ _ _ h).of_operand .operand (by simp [parts]) rfl rfl
  · exact (settle_misfit h).fault rfl

/-- An operation fails in an operand, or where it begins, as it does when it has none. -/
private theorem prim_faulted {op : PrimOp} {args : List (Exp Span)}
    (hargs : ∀ e ∈ args, Faulted e) :
    Faulted (.prim s op args) := by
  intro env want err h
  cases args with
  | nil =>
    rw [typed] at h
    exact (refuse_misfit (by simp [Cause.noArguments]) h).fault rfl
  | cons arg args =>
    rw [typed] at h
    obtain ⟨harg, hrest⟩ := List.forall_mem_cons.1 hargs
    rcases bind_eq_error.1 h with h | ⟨first, hfirst, h⟩
    · exact (harg _ _ _ h).of_operand .operand (by simp [parts]) rfl rfl
    rcases bind_eq_error.1 h with h | ⟨ty, -, h⟩
    · have hfault : Fault env.operand arg err := .of_checked hfirst (require_misfit h)
      exact hfault.of_operand .operand (by simp [parts]) rfl rfl
    rcases bind_eq_error.1 h with h | ⟨rest, -, h⟩
    · obtain ⟨e, he, hfault⟩ := typedAll_fault hrest h
      exact hfault.of_operand .operand (by simp [parts, he]) rfl rfl
    · exact (settle_misfit h).fault rfl

/-- A let fails in its value, or in its body, where its name is known, or where it begins. -/
private theorem letIn_faulted {name : VarId} {ty : Ty} {value body : Exp Span}
    (hvalue : Faulted value) (hbody : Faulted body) : Faulted (.letIn s name ty value body) := by
  intro env want err h
  rw [typed] at h
  rcases bind_eq_error.1 h with h | ⟨_, -, h⟩
  · exact (hvalue _ _ _ h).of_operand .operand (by simp [parts]) rfl rfl
  rcases bind_eq_error.1 h with h | ⟨_, -, h⟩
  · refine (hbody _ _ _ h).of_part .under (by simp [parts]) fun id hid => ?_
    simpa [binds, own, funcs] using find?_declare_eq_none.1 hid
  · exact (settle_misfit h).fault rfl

/-- A call fails in its callee or in an argument, or where it begins. -/
private theorem call_faulted {callee : Exp Span} {args : List (Exp Span)} (hcallee : Faulted callee)
    (hargs : ∀ e ∈ args, Faulted e) : Faulted (.call s callee args) := by
  intro env want err h
  rw [typed] at h
  rcases bind_eq_error.1 h with h | ⟨t, ht, h⟩
  · exact (hcallee _ _ _ h).of_operand .callee (by simp [parts]) rfl rfl
  rcases bind_eq_error.1 h with h | ⟨⟨params, result⟩, -, h⟩
  · have hfault : Fault env.operand callee err := .of_checked ht (require_misfit h)
    exact hfault.of_operand .callee (by simp [parts]) rfl rfl
  rcases bind_eq_error.1 h with h | ⟨_, -, h⟩
  · exact (refuseIf_misfit (by simp) h).fault rfl
  rcases bind_eq_error.1 h with h | ⟨_, -, h⟩
  · obtain ⟨e, he, hfault⟩ := typedAll_fault hargs h
    exact hfault.of_operand .operand (by simp [parts, he]) rfl rfl
  · exact (settle_misfit h).fault rfl

/-- A case fails in its scrutinee or in an arm, or where it begins. -/
private theorem caseOf_faulted {scrutinee : Exp Span} {arms : List (Arm (Exp Span))}
    (hscrutinee : Faulted scrutinee) (harms : ∀ arm ∈ arms, Faulted arm.body) :
    Faulted (.caseOf s scrutinee arms) := by
  intro env want err h
  rw [typed] at h
  rcases bind_eq_error.1 h with h | ⟨t, ht, h⟩
  · exact (hscrutinee _ _ _ h).of_operand .operand (by simp [parts]) rfl rfl
  rcases bind_eq_error.1 h with h | ⟨width, -, h⟩
  · have hfault : Fault env.operand scrutinee err := .of_checked ht (require_misfit h)
    exact hfault.of_operand .operand (by simp [parts]) rfl rfl
  rcases bind_eq_error.1 h with h | ⟨_, -, h⟩
  · exact (refuseIf_misfit (by simp [Cause.emptyCase]) h).fault rfl
  rcases bind_eq_error.1 h with h | ⟨⟨ty, checked⟩, -, h⟩
  · obtain ⟨arm, harm, hfault⟩ := typedArms_fault harms h
    have hp : (Role.same, arm.body) ∈ (Exp.caseOf s scrutinee arms).parts := by
      simp only [parts, List.mem_cons, List.mem_map]
      exact .inr ⟨arm, harm, rfl⟩
    exact hfault.of_operand .same hp rfl rfl
  · exact absurd h pure_ne_error

/-- A bundle fails in one of its bodies, where the names of its functions are known, or where it
    begins. -/
private theorem recIn_faulted {fs : List (Func Span (Exp Span))} {body : Exp Span}
    (hfs : ∀ f ∈ fs, Faulted f.body) (hbody : Faulted body) : Faulted (.recIn s fs body) := by
  intro env want err h
  rw [typed] at h
  -- the bundle's environment holds the names of all its functions
  have hbundle {id : VarId}
      (hid : (env.declareAll (fs.map fun f => (f.name, f.ty))).find? id = none) :
      id ∉ fs.map (·.name) ∧ env.find? id = none := by
    simpa [Function.comp_def] using find?_declareAll_eq_none.1 hid
  rcases bind_eq_error.1 h with h | ⟨_, -, h⟩
  · obtain ⟨f, hf, hfault⟩ := typedFuncs_fault hfs h
    have hp : (Role.body f, f.body) ∈ (Exp.recIn s fs body).parts := by
      simp only [parts, List.mem_append, List.mem_map]
      exact .inl ⟨f, hf, rfl⟩
    refine hfault.of_part (.body f) hp fun id hid => ?_
    obtain ⟨hparams, hid⟩ := find?_declareAll_eq_none.1 hid
    obtain ⟨hnames, hnone⟩ := hbundle hid
    refine ⟨?_, hnone⟩
    rw [binds, List.mem_append, not_or]
    exact ⟨by simpa [own, Function.comp_def] using hparams, hnames⟩
  rcases bind_eq_error.1 h with h | ⟨_, -, h⟩
  · refine (hbody _ _ _ h).of_part .after (by simp [parts]) fun id hid => ?_
    exact hbundle hid
  · exact (settle_misfit h).fault rfl

/-- A tuple fails in an element, or where it begins. -/
private theorem tuple_faulted {elems : List (Exp Span)} (helems : ∀ e ∈ elems, Faulted e) :
    Faulted (.tuple s elems) := by
  intro env want err h
  rw [typed] at h
  rcases bind_eq_error.1 h with h | ⟨_, -, h⟩
  · obtain ⟨e, he, hfault⟩ := typedAll_fault helems h
    exact hfault.of_operand .operand (by simp [parts, he]) rfl rfl
  · exact (settle_misfit h).fault rfl

/-- A vector fails in an element, or where it begins. -/
private theorem vector_faulted {elems : List (Exp Span)} (helems : ∀ e ∈ elems, Faulted e) :
    Faulted (.vector s elems) := by
  intro env want err h
  cases elems with
  | nil =>
    rw [typed] at h
    exact (refuse_misfit (by simp [Cause.emptyVector]) h).fault rfl
  | cons elem elems =>
    rw [typed] at h
    obtain ⟨helem, hrest⟩ := List.forall_mem_cons.1 helems
    rcases bind_eq_error.1 h with h | ⟨first, hfirst, h⟩
    · exact (helem _ _ _ h).of_operand .operand (by simp [parts]) rfl rfl
    rcases bind_eq_error.1 h with h | ⟨lane, -, h⟩
    · have hfault : Fault env.operand elem err := .of_checked hfirst (require_misfit h)
      exact hfault.of_operand .operand (by simp [parts]) rfl rfl
    rcases bind_eq_error.1 h with h | ⟨rest, -, h⟩
    · obtain ⟨e, he, hfault⟩ := typedAll_fault hrest h
      exact hfault.of_operand .operand (by simp [parts, he]) rfl rfl
    · exact (settle_misfit h).fault rfl

/-- What is wrong with the pointer of an access, or with the path from it. -/
private theorem Fault.of_access {e base : Exp Span} {path : List (Step (Exp Span))} {α : Type}
    {next : Exp Checked → Ty × List (Step (Exp Checked)) → Except Error α}
    (hbase : Faulted base) (hpath : ∀ offset ∈ offsets path, Faulted offset)
    (hparts : ((.operand, base) :: (offsets path).map fun x => (.operand, x)) ⊆ e.parts)
    (hbinds : e.binds .operand = [])
    (hnext : ∀ t out, next t out = .error err → Fault env e err)
    (herr : (do
      let t ← typed env.operand none base
      let target ← require "pointer" Ty.pointee? t
      let out ← typedPath env.operand true (pathStart t.ty target path) e.start path
      next t out) = .error err) : Fault env e err := by
  have hbase' := hparts (List.mem_cons_self ..)
  rcases bind_eq_error.1 herr with h | ⟨t, ht, h⟩
  · exact (hbase _ _ _ h).of_operand .operand hbase' hbinds rfl
  rcases bind_eq_error.1 h with h | ⟨target, -, h⟩
  · have hfault : Fault env.operand base err := .of_checked ht (require_misfit h)
    exact hfault.of_operand .operand hbase' hbinds rfl
  rcases bind_eq_error.1 h with h | ⟨out, -, h⟩
  · refine .of_path hpath (fun offset ho => ?_) hbinds h
    exact hparts (List.mem_cons_of_mem _ (List.mem_map_of_mem ho))
  · exact hnext t out h

/-- A `gep` fails in its base or along its path, or where it begins. -/
private theorem gep_faulted {base : Exp Span} {path : List (Step (Exp Span))} (hbase : Faulted base)
    (hpath : ∀ offset ∈ offsets path, Faulted offset) : Faulted (.gep s base path) := by
  intro env want err h
  rw [typed] at h
  refine .of_access hbase hpath (List.Subset.refl _) rfl (fun t out h => ?_) h
  exact (settle_misfit h).fault rfl

/-- A load fails in its base or along its path, or where it begins. -/
private theorem load_faulted {base : Exp Span} {path : List (Step (Exp Span))}
    (hbase : Faulted base)
    (hpath : ∀ offset ∈ offsets path, Faulted offset) : Faulted (.load s base path) := by
  intro env want err h
  rw [typed] at h
  refine .of_access hbase hpath (List.Subset.refl _) rfl (fun t out h => ?_) h
  exact (settle_misfit h).fault rfl

/-- A store fails in its destination, along its path, in its value or in its body, or where it
    begins. -/
private theorem store_faulted {dest : Exp Span} {path : List (Step (Exp Span))}
    {value body : Exp Span} (hdest : Faulted dest) (hpath : ∀ offset ∈ offsets path, Faulted offset)
    (hvalue : Faulted value) (hbody : Faulted body) :
    Faulted (.store s dest path value body) := by
  intro env want err h
  rw [typed] at h
  refine .of_access hdest hpath (by simp [parts]) rfl (fun t out h => ?_) h
  rcases bind_eq_error.1 h with h | ⟨_, -, h⟩
  · exact (hvalue _ _ _ h).of_operand .operand (by simp [parts]) rfl rfl
  rcases bind_eq_error.1 h with h | ⟨_, -, h⟩
  · exact (hbody _ _ _ h).of_operand .same (by simp [parts]) rfl rfl
  · exact (settle_misfit h).fault rfl

/-- An update fails in its base, along its path or in its value, or where it begins: a step that
    indexes is at fault at its offset. -/
private theorem update_faulted {base : Exp Span} {path : List (Step (Exp Span))} {value : Exp Span}
    (hbase : Faulted base) (hpath : ∀ offset ∈ offsets path, Faulted offset)
    (hvalue : Faulted value) : Faulted (.update s base path value) := by
  intro env want err h
  have hoffset {offset : Exp Span} (ho : offset ∈ offsets path) :
      (Role.operand, offset) ∈ (Exp.update s base path value).parts := by
    simp [parts, ho]
  rw [typed] at h
  rcases bind_eq_error.1 h with h | ⟨t, ht, h⟩
  · exact (hbase _ _ _ h).of_operand .operand (by simp [parts]) rfl rfl
  rcases bind_eq_error.1 h with h | ⟨_, -, h⟩
  · have hfault : Fault env.operand base err := .of_checked ht (refuseIf_misfit (by simp) h)
    exact hfault.of_operand .operand (by simp [parts]) rfl rfl
  rcases bind_eq_error.1 h with h | ⟨_, -, h⟩
  · obtain ⟨offset, ho, hmisfit⟩ := refuseIndex_misfit h
    have hfault : Fault env offset err := hmisfit.fault rfl
    exact hfault.of_operand .operand (hoffset ho) rfl rfl
  rcases bind_eq_error.1 h with h | ⟨_, -, h⟩
  · exact .of_path hpath (fun offset ho => hoffset ho) rfl h
  rcases bind_eq_error.1 h with h | ⟨_, -, h⟩
  · exact (hvalue _ _ _ h).of_operand .operand (by simp [parts]) rfl rfl
  · exact (settle_misfit h).fault rfl

end Forms

/-- An expression is refused where one of its nodes begins. If that is for an identity that is
    not in scope, the identity is free in it and unknown to the environment. -/
theorem typed_fault (e : Exp Span) : Faulted e := by
  induction e with
  | var s x => exact var_faulted x
  | int s value width => exact int_faulted value width
  | ascribe s inner ty ih => exact ascribe_faulted ih ty
  | coerce s inner ty ih => exact coerce_faulted ih ty
  | prim s op args ih => exact prim_faulted ih
  | letIn s name ty value body ihvalue ihbody => exact letIn_faulted ihvalue ihbody
  | call s callee args ihcallee ihargs => exact call_faulted ihcallee ihargs
  | caseOf s scrutinee arms ihscrutinee iharms => exact caseOf_faulted ihscrutinee iharms
  | recIn s fs body ihfs ihbody => exact recIn_faulted ihfs ihbody
  | tuple s elems ih => exact tuple_faulted ih
  | vector s elems ih => exact vector_faulted ih
  | gep s base path ihbase ihpath => exact gep_faulted ihbase ihpath
  | load s base path ihbase ihpath => exact load_faulted ihbase ihpath
  | store s dest path value body ihdest ihpath ihvalue ihbody =>
    exact store_faulted ihdest ihpath ihvalue ihbody
  | update s base path value ihbase ihpath ihvalue => exact update_faulted ihbase ihpath ihvalue

end Typing

end BranchIR
