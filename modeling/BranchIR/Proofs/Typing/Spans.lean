import BranchIR.Proofs.Exp.Alike
import BranchIR.Typing.Check

/-!
# Checking does not depend on spans

Spans only say where an error was found. Two trees that differ in spans only are both checked,
with the same types and tail flags, or both refused for the same cause.
-/

namespace BranchIR

open Exp

/-! ## Results that agree -/

/-- Both runs succeed with related results, or both fail for the same cause. -/
inductive Agrees {α β : Type} (R : α → β → Prop) : Except Error α → Except Error β → Prop
  | ok {a b} (related : R a b) : Agrees R (.ok a) (.ok b)
  | error {e e' : Error} (cause : e.cause = e'.cause) : Agrees R (.error e) (.error e')

theorem Agrees.exists_ok {α β : Type} {R : α → β → Prop} {a : α} {y : Except Error β}
    (h : Agrees R (.ok a) y) : ∃ b, y = .ok b ∧ R a b := by
  cases h with
  | ok related => exact ⟨_, rfl, related⟩

/-- Chains agree when their first steps do and the rest does on related results. -/
theorem Agrees.bind {α β γ δ : Type} {R : α → β → Prop} {S : γ → δ → Prop} {x : Except Error α}
    {y : Except Error β} {f : α → Except Error γ} {g : β → Except Error δ} (h : Agrees R x y)
    (hrest : ∀ a b, R a b → Agrees S (f a) (g b)) : Agrees S (x >>= f) (y >>= g) := by
  cases h with
  | ok related => exact hrest _ _ related
  | error cause => exact .error cause

/-- What a checked tree says of a node but for its span. -/
def Checked.typing (a : Checked) : Ty × Bool := (a.ty, a.tail)

/-- Two checked trees differ in spans only. -/
abbrev SameTyping (t u : Exp Checked) : Prop := t.mapAnn Checked.typing = u.mapAnn Checked.typing

/-- Trees with the same typing have the same type. -/
theorem ty_eq_of_sameTyping {t u : Exp Checked} (h : SameTyping t u) : t.ty = u.ty := by
  have hann := congrArg (fun e => e.ann.1) h
  simpa [Checked.typing, Exp.ty] using hann

/-- Lists of checked trees differ in spans only. -/
abbrev SameTypings (ts us : List (Exp Checked)) : Prop :=
  ts.map (mapAnn Checked.typing) = us.map (mapAnn Checked.typing)

/-- Lists with the same typings have the same types. -/
private theorem map_ty_of_sameTypings {ts us : List (Exp Checked)} (h : SameTypings ts us) :
    ts.map Exp.ty = us.map Exp.ty := by
  have hann := congrArg (List.map fun e => e.ann.1) h
  simp only [List.map_map, Function.comp_def, ann_mapAnn, Checked.typing] at hann
  exact hann

namespace Typing

/-! ## Single steps -/

section Steps

variable {α : Type} {pos pos' : Position}

private theorem refuse_agrees {β : Type} {R : α → β → Prop} (cause : Cause) :
    Agrees R (refuse cause pos) (refuse cause pos') := .error rfl

/-- A refusal on a condition does not depend on the place, which it only reports. -/
private theorem refuseIf_agrees (condition : Bool) (cause : Cause) :
    Agrees Eq (refuseIf condition cause pos) (refuseIf condition cause pos') := by
  cases condition with
  | false => exact .ok rfl
  | true => exact refuse_agrees cause

/-- What is required of a type does not depend on spans. -/
private theorem require_agrees {expected : String} {part? : Ty → Option α} {t u : Exp Checked}
    (h : SameTyping t u) : Agrees Eq (require expected part? t) (require expected part? u) := by
  rw [require, require, ty_eq_of_sameTyping h]
  cases part? u.ty with
  | none => exact refuse_agrees _
  | some a => exact .ok rfl

/-- Whether a type is admitted does not depend on spans. -/
private theorem settle_agrees (want : Option Ty) {t u : Exp Checked} (h : SameTyping t u) :
    Agrees SameTyping (settle want t) (settle want u) := by
  cases want with
  | none => exact .ok h
  | some ty =>
    rw [settle, settle, ty_eq_of_sameTyping h]
    by_cases hty : u.ty = ty
    · rw [if_pos hty, if_pos hty]
      exact .ok h
    · rw [if_neg hty, if_neg hty]
      exact refuse_agrees _

/-- Whether there is a field does not depend on the place that is reported. -/
private theorem fieldTy_agrees (n : Nat) (ty : Ty) :
    Agrees Eq (fieldTy n ty pos) (fieldTy n ty pos') := by
  cases ty with
  | tuple fields =>
    rw [fieldTy, fieldTy]
    cases fields[n]? with
    | none => exact refuse_agrees _
    | some field => exact .ok rfl
  | _ => exact refuse_agrees _

/-- Whether there is an element does not depend on the place that is reported. -/
private theorem elementTy_agrees (n : Nat) (ty : Ty) :
    Agrees Eq (elementTy n ty pos) (elementTy n ty pos') := by
  cases ty with
  | array length element =>
    rw [elementTy, elementTy]
    by_cases hn : n < length
    · rw [if_pos hn, if_pos hn]
      exact .ok rfl
    · rw [if_neg hn, if_neg hn]
      exact refuse_agrees _
  | _ => exact refuse_agrees _

private theorem laneTy_agrees (ty : Ty) : Agrees Eq (laneTy ty pos) (laneTy ty pos') := by
  cases ty with
  | vector length lane => exact .ok rfl
  | _ => exact refuse_agrees _

/-- Whether there is something to index does not depend on the place that is reported. -/
private theorem indexTy_agrees (first : Bool) (ty : Ty) :
    Agrees Eq (indexTy first ty pos) (indexTy first ty pos') := by
  cases first with
  | false => exact refuse_agrees _
  | true =>
    simp only [indexTy, if_true]
    cases ty.pointee? with
    | none => exact refuse_agrees _
    | some target => exact .ok rfl

/-- Whether a pattern passes does not depend on the place that is reported. -/
private theorem checkPattern_agrees (width : Nat) (seen : List Int) (pattern : Pattern) :
    Agrees Eq (checkPattern width seen pattern pos) (checkPattern width seen pattern pos') := by
  cases pattern with
  | default => exact .ok rfl
  | literal value =>
    rw [checkPattern, checkPattern]
    by_cases hfits : fits value width = false
    · rw [if_pos hfits, if_pos hfits]
      exact refuse_agrees _
    · -- the literal fits: it is refused if it was seen before
      rw [if_neg hfits, if_neg hfits]
      by_cases hseen : value ∈ seen
      · rw [if_pos hseen, if_pos hseen]
        exact refuse_agrees _
      · rw [if_neg hseen, if_neg hseen]
        exact .ok rfl

/-- The first index is found where it was when offsets are mapped. -/
private theorem firstIndex?_map {β : Type} (f : α → β) (path : List (Step α)) :
    firstIndex? (path.map (Step.map f)) = (firstIndex? path).map f := by
  induction path with
  | nil => rfl
  | cons step path ih =>
    cases step with
    | index e => rfl
    | _ => exact ih

/-- Whether a path has an index does not depend on spans. -/
private theorem refuseIndex_agrees (f g : α → Span) (path : List (Step (Exp α))) :
    Agrees Eq (refuseIndex (path.map (Step.map (mapAnn f))))
      (refuseIndex (path.map (Step.map (mapAnn g)))) := by
  rw [refuseIndex, refuseIndex, firstIndex?_map, firstIndex?_map]
  cases firstIndex? path with
  | none => exact .ok rfl
  | some offset => exact refuse_agrees _

private theorem pathStart_map {β : Type} (f : α → β) (pointer target : Ty) (path : List (Step α)) :
    pathStart pointer target (path.map (Step.map f)) = pathStart pointer target path := by
  rw [pathStart, pathStart, List.isEmpty_map]

end Steps

/-! ## Lists, arms, functions and paths -/

/-- Whatever the spans are, checks of the expression agree. -/
def SpanFree {α : Type} (f g : α → Span) (e : Exp α) : Prop :=
  ∀ env want, Agrees SameTyping (typed env want (e.mapAnn f)) (typed env want (e.mapAnn g))

section Containers

variable {α : Type} {f g : α → Span} {env : Env}

/-- Checking a list does not depend on spans if checking its items does not. -/
private theorem typedAll_agrees {es : List (Exp α)} (h : ∀ e ∈ es, SpanFree f g e)
    (wants : List (Option Ty)) :
    Agrees SameTypings (typedAll env wants (es.map (mapAnn f)))
      (typedAll env wants (es.map (mapAnn g))) := by
  induction es generalizing wants with
  | nil => exact .ok rfl
  | cons e es ih =>
    obtain ⟨he, hes⟩ := List.forall_mem_cons.1 h
    simp only [List.map_cons, typedAll]
    apply (he env _).bind
    intro t u htu
    apply (ih hes _).bind
    intro ts us hrest
    exact .ok (List.cons_eq_cons.2 ⟨htu, hrest⟩)

/-- Checked arms with the type they share differ in spans only. -/
def SameArms (r r' : Option Ty × List (Arm (Exp Checked))) : Prop :=
  r.1 = r'.1 ∧
    r.2.map (Arm.map (mapAnn Checked.typing)) = r'.2.map (Arm.map (mapAnn Checked.typing))

/-- Checking arms does not depend on spans if checking their bodies does not. -/
private theorem typedArms_agrees {arms : List (Arm (Exp α))}
    (h : ∀ arm ∈ arms, SpanFree f g arm.body)
    (width : Nat) (seen : List Int) (want : Option Ty) :
    Agrees SameArms (typedArms env width seen want (arms.map (Arm.map (mapAnn f))))
      (typedArms env width seen want (arms.map (Arm.map (mapAnn g)))) := by
  induction arms generalizing seen want with
  | nil => exact .ok ⟨rfl, rfl⟩
  | cons arm arms ih =>
    obtain ⟨harm, harms⟩ := List.forall_mem_cons.1 h
    simp only [List.map_cons, Arm.map, typedArms]
    apply (checkPattern_agrees width seen arm.pattern).bind
    intro seen' _ heq
    subst heq
    apply (harm env want).bind
    intro t u htu
    -- both runs want the same type of the other arms
    rw [ty_eq_of_sameTyping htu]
    apply (ih harms seen' _).bind
    rintro r r' ⟨hty, hrest⟩
    exact .ok ⟨hty, List.cons_eq_cons.2 ⟨congrArg (Arm.mk arm.pattern) htu, hrest⟩⟩

/-- Checked functions differ in spans only. -/
def SameFuncs (fs fs' : List (Func Checked (Exp Checked))) : Prop :=
  fs.map (Func.map Checked.typing (mapAnn Checked.typing)) =
    fs'.map (Func.map Checked.typing (mapAnn Checked.typing))

/-- Checking functions does not depend on spans if checking their bodies does not. -/
private theorem typedFuncs_agrees {fs : List (Func α (Exp α))}
    (h : ∀ func ∈ fs, SpanFree f g func.body) :
    Agrees SameFuncs (typedFuncs env (fs.map (Func.map f (mapAnn f))))
      (typedFuncs env (fs.map (Func.map g (mapAnn g)))) := by
  induction fs with
  | nil => exact .ok rfl
  | cons func fs ih =>
    obtain ⟨hfunc, hfs⟩ := List.forall_mem_cons.1 h
    simp only [List.map_cons, Func.map, typedFuncs, List.map_map, Function.comp_def, Param.map]
    apply (hfunc _ (some func.result)).bind
    intro t u htu
    apply (ih hfs).bind
    intro ts us hrest
    refine .ok (List.cons_eq_cons.2 ⟨?_, hrest⟩)
    -- the type and the flag of a function and its parameters do not come from spans
    have hbody : t.mapAnn Checked.typing = u.mapAnn Checked.typing := htu
    simp [Func.map, Param.map, typedParam, Checked.typing, hbody]

/-- Checked paths with the types they lead to differ in spans only. -/
def SamePaths (r r' : Ty × List (Step (Exp Checked))) : Prop :=
  r.1 = r'.1 ∧
    r.2.map (Step.map (mapAnn Checked.typing)) = r'.2.map (Step.map (mapAnn Checked.typing))

/-- Checking a path does not depend on spans if checking its offsets does not. -/
private theorem typedPath_agrees {path : List (Step (Exp α))}
    (h : ∀ e ∈ offsets path, SpanFree f g e) (first : Bool) (ty : Ty) (owner owner' : Position) :
    Agrees SamePaths (typedPath env first ty owner (path.map (Step.map (mapAnn f))))
      (typedPath env first ty owner' (path.map (Step.map (mapAnn g)))) := by
  induction path generalizing first ty with
  | nil => exact .ok ⟨rfl, rfl⟩
  | cons step path ih =>
    rw [offsets_cons, List.forall_mem_append] at h
    obtain ⟨hstep, hpath⟩ := h
    cases step with
    | field n =>
      simp only [List.map_cons, Step.map, typedPath]
      -- both paths reach the same type, so the rest goes on alike
      apply (fieldTy_agrees n ty).bind
      intro next _ heq
      subst heq
      apply (ih hpath false next).bind
      rintro r r' ⟨hty, hrest⟩
      exact .ok ⟨hty, List.cons_eq_cons.2 ⟨rfl, hrest⟩⟩
    | element n =>
      simp only [List.map_cons, Step.map, typedPath]
      apply (elementTy_agrees n ty).bind
      intro next _ heq
      subst heq
      apply (ih hpath false next).bind
      rintro r r' ⟨hty, hrest⟩
      exact .ok ⟨hty, List.cons_eq_cons.2 ⟨rfl, hrest⟩⟩
    | lane e =>
      simp only [List.map_cons, Step.map, typedPath]
      apply (laneTy_agrees ty).bind
      intro next _ heq
      subst heq
      apply (hstep e (by simp) env none).bind
      intro t u htu
      -- only the type of an offset matters, and that is the same
      apply (require_agrees htu).bind
      intro _ _ _
      apply (ih hpath false next).bind
      rintro r r' ⟨hty, hrest⟩
      exact .ok ⟨hty, List.cons_eq_cons.2 ⟨congrArg Step.lane htu, hrest⟩⟩
    | index e =>
      simp only [List.map_cons, Step.map, typedPath]
      apply (indexTy_agrees first ty).bind
      intro next _ heq
      subst heq
      apply (hstep e (by simp) env none).bind
      intro t u htu
      apply (require_agrees htu).bind
      intro _ _ _
      apply (ih hpath false next).bind
      rintro r r' ⟨hty, hrest⟩
      exact .ok ⟨hty, List.cons_eq_cons.2 ⟨congrArg Step.index htu, hrest⟩⟩

/-- A base, a pointer to start a path from, is checked before the path. -/
private theorem based_agrees {γ : Type} {R : γ → γ → Prop} {base : Exp α}
    {path : List (Step (Exp α))}
    (hbase : SpanFree f g base) (hpath : ∀ e ∈ offsets path, SpanFree f g e)
    {owner owner' : Position}
    {k k' : Exp Checked → Ty × List (Step (Exp Checked)) → Except Error γ}
    (hk : ∀ t u r r', SameTyping t u → SamePaths r r' → Agrees R (k t r) (k' u r')) :
    Agrees R
      (do
        let b ← typed env none (base.mapAnn f)
        let target ← require "pointer" Ty.pointee? b
        let r ← typedPath env true (pathStart b.ty target (path.map (Step.map (mapAnn f)))) owner
          (path.map (Step.map (mapAnn f)))
        k b r)
      (do
        let b ← typed env none (base.mapAnn g)
        let target ← require "pointer" Ty.pointee? b
        let r ← typedPath env true (pathStart b.ty target (path.map (Step.map (mapAnn g)))) owner'
          (path.map (Step.map (mapAnn g)))
        k' b r) := by
  -- the base, the pointer that it must be, and the path from there
  apply (hbase env none).bind
  intro t u htu
  apply (require_agrees htu).bind
  intro target _ heq
  subst heq
  -- both paths start at the same type
  rw [pathStart_map, pathStart_map, ty_eq_of_sameTyping htu]
  exact (typedPath_agrees hpath true _ owner owner').bind fun r r' hr => hk t u r r' htu hr

end Containers

/-! ## Forms -/

namespace SpanFree

variable {α : Type} {f g : α → Span} {a : α}

/-- The lookup of a variable does not see spans. -/
private theorem var {id : VarId} : SpanFree f g (.var a id) := by
  intro env want
  simp only [mapAnn_var, typed]
  cases env.find? id with
  | none => exact refuse_agrees _
  | some binding => exact settle_agrees want rfl

private theorem int {value : Int} {width : Nat} : SpanFree f g (.int a value width) := by
  intro env want
  simp only [mapAnn_int, typed]
  exact settle_agrees want rfl

/-- An ascription sees the type of its expression only. -/
private theorem ascribe {inner : Exp α} {ty : Ty} (ih : SpanFree f g inner) :
    SpanFree f g (.ascribe a inner ty) := by
  intro env want
  simp only [mapAnn_ascribe, typed]
  apply (ih env (some ty)).bind
  intro t u htu
  apply settle_agrees want
  rw [SameTyping, mapAnn_ascribe, htu]
  rfl

/-- A coercion sees the type of its expression only. -/
private theorem coerce {inner : Exp α} {ty : Ty} (ih : SpanFree f g inner) :
    SpanFree f g (.coerce a inner ty) := by
  intro env want
  simp only [mapAnn_coerce, typed]
  apply (ih env.operand none).bind
  intro t u htu
  apply settle_agrees want
  rw [SameTyping, mapAnn_coerce, htu]
  rfl

/-- An operation sees the types of its operands only. -/
private theorem prim {op : PrimOp} {args : List (Exp α)} (ih : ∀ e ∈ args, SpanFree f g e) :
    SpanFree f g (.prim a op args) := by
  intro env want
  cases args with
  | nil =>
    simp only [mapAnn_prim, List.map_nil, typed]
    exact refuse_agrees _
  | cons arg args =>
    obtain ⟨harg, hargs⟩ := List.forall_mem_cons.1 ih
    simp only [mapAnn_prim, List.map_cons, typed, List.map_map, Function.comp_def]
    apply (harg env.operand none).bind
    intro t u htu
    apply (require_agrees htu).bind
    intro ty _ heq
    subst heq
    apply (typedAll_agrees hargs _).bind
    intro ts us hrest
    apply settle_agrees want
    rw [SameTyping, mapAnn_prim, mapAnn_prim, List.map_cons, List.map_cons, htu, hrest]
    rfl

/-- A let declares its name with the type that is written, so its body is checked alike. -/
private theorem letIn {name : VarId} {ty : Ty} {value body : Exp α} (hvalue : SpanFree f g value)
    (hbody : SpanFree f g body) : SpanFree f g (.letIn a name ty value body) := by
  intro env want
  simp only [mapAnn_letIn, typed]
  apply (hvalue env.operand (some ty)).bind
  intro t u htu
  apply (hbody (env.declare name ty) none).bind
  intro t' u' htu'
  apply settle_agrees want
  rw [SameTyping, mapAnn_letIn, mapAnn_letIn, htu, htu', ty_eq_of_sameTyping htu']
  rfl

/-- A call sees the types of its callee and its arguments only. -/
private theorem call {callee : Exp α} {args : List (Exp α)} (hcallee : SpanFree f g callee)
    (hargs : ∀ e ∈ args, SpanFree f g e) : SpanFree f g (.call a callee args) := by
  intro env want
  simp only [mapAnn_call, typed, List.length_map]
  apply (hcallee env.operand none).bind
  intro t u htu
  apply (require_agrees htu).bind
  rintro ⟨params, result⟩ _ heq
  subst heq
  apply (refuseIf_agrees _ _).bind
  intro _ _ _
  apply (typedAll_agrees hargs _).bind
  intro ts us hrest
  apply settle_agrees want
  rw [SameTyping, mapAnn_call, mapAnn_call, htu, hrest]
  rfl

/-- A case sees the type of its scrutinee, and its arms see literals and types. -/
private theorem caseOf {scrutinee : Exp α} {arms : List (Arm (Exp α))}
    (hscrutinee : SpanFree f g scrutinee)
    (harms : ∀ arm ∈ arms, SpanFree f g arm.body) : SpanFree f g (.caseOf a scrutinee arms) := by
  intro env want
  simp only [mapAnn_caseOf, typed, List.isEmpty_map]
  apply (hscrutinee env.operand none).bind
  intro t u htu
  apply (require_agrees htu).bind
  intro width _ heq
  subst heq
  apply (refuseIf_agrees _ _).bind
  intro _ _ _
  apply (typedArms_agrees harms width [] want).bind
  rintro ⟨ty, ts⟩ ⟨ty', us⟩ ⟨hty, hrest⟩
  apply Agrees.ok
  obtain rfl : ty = ty' := hty
  rw [SameTyping, mapAnn_caseOf, mapAnn_caseOf, htu, hrest]
  rfl

/-- A bundle declares its functions with the types that are written, so all bodies are checked
    alike. -/
private theorem recIn {fs : List (Func α (Exp α))} {body : Exp α}
    (hfs : ∀ func ∈ fs, SpanFree f g func.body) (hbody : SpanFree f g body) :
    SpanFree f g (.recIn a fs body) := by
  intro env want
  simp only [mapAnn_recIn, typed, List.map_map, Function.comp_def, Func.name_map, Func.ty_map]
  apply (typedFuncs_agrees hfs).bind
  intro ts us hrest
  apply (hbody _ none).bind
  intro t u htu
  apply settle_agrees want
  rw [SameTyping, mapAnn_recIn, mapAnn_recIn, htu, ty_eq_of_sameTyping htu, hrest]
  rfl

/-- A tuple sees the types of its elements only. -/
private theorem tuple {elems : List (Exp α)} (ih : ∀ e ∈ elems, SpanFree f g e) :
    SpanFree f g (.tuple a elems) := by
  intro env want
  simp only [mapAnn_tuple, typed]
  apply (typedAll_agrees ih _).bind
  intro ts us hrest
  apply settle_agrees want
  rw [SameTyping, mapAnn_tuple, mapAnn_tuple, hrest, map_ty_of_sameTypings hrest]
  rfl

/-- A vector sees the types of its elements only. -/
private theorem vector {elems : List (Exp α)} (ih : ∀ e ∈ elems, SpanFree f g e) :
    SpanFree f g (.vector a elems) := by
  intro env want
  cases elems with
  | nil =>
    simp only [mapAnn_vector, List.map_nil, typed]
    exact refuse_agrees _
  | cons elem elems =>
    obtain ⟨helem, helems⟩ := List.forall_mem_cons.1 ih
    simp only [mapAnn_vector, List.map_cons, typed, List.map_map, Function.comp_def,
      List.length_map]
    apply (helem env.operand none).bind
    intro t u htu
    apply (require_agrees htu).bind
    intro lane _ heq
    subst heq
    apply (typedAll_agrees helems _).bind
    intro ts us hrest
    apply settle_agrees want
    rw [SameTyping, mapAnn_vector, mapAnn_vector, List.map_cons, List.map_cons, htu, hrest]
    rfl

/-- A `gep` sees the type of its base and of its offsets only. -/
private theorem gep {base : Exp α} {path : List (Step (Exp α))} (hbase : SpanFree f g base)
    (hpath : ∀ e ∈ offsets path, SpanFree f g e) : SpanFree f g (.gep a base path) := by
  intro env want
  simp only [mapAnn_gep, typed]
  apply based_agrees hbase hpath
  rintro t u ⟨ty, p⟩ ⟨ty', p'⟩ htu ⟨hty, hrest⟩
  obtain rfl : ty = ty' := hty
  apply settle_agrees want
  rw [SameTyping, mapAnn_gep, mapAnn_gep, htu, hrest]
  rfl

/-- A load sees the type of its base and of its offsets only. -/
private theorem load {base : Exp α} {path : List (Step (Exp α))} (hbase : SpanFree f g base)
    (hpath : ∀ e ∈ offsets path, SpanFree f g e) : SpanFree f g (.load a base path) := by
  intro env want
  simp only [mapAnn_load, typed]
  apply based_agrees hbase hpath
  rintro t u ⟨ty, p⟩ ⟨ty', p'⟩ htu ⟨hty, hrest⟩
  obtain rfl : ty = ty' := hty
  apply settle_agrees want
  rw [SameTyping, mapAnn_load, mapAnn_load, htu, hrest]
  rfl

/-- A store sees types only, in its destination, its path, its value and its body. -/
private theorem store {dest value body : Exp α} {path : List (Step (Exp α))}
    (hdest : SpanFree f g dest)
    (hpath : ∀ e ∈ offsets path, SpanFree f g e) (hvalue : SpanFree f g value)
    (hbody : SpanFree f g body) : SpanFree f g (.store a dest path value body) := by
  intro env want
  simp only [mapAnn_store, typed]
  apply based_agrees hdest hpath
  rintro t u ⟨ty, p⟩ ⟨ty', p'⟩ htu ⟨hty, hrest⟩
  obtain rfl : ty = ty' := hty
  apply (hvalue env.operand (some ty)).bind
  intro t₁ u₁ htu₁
  apply (hbody env none).bind
  intro t₂ u₂ htu₂
  apply settle_agrees want
  rw [SameTyping, mapAnn_store, mapAnn_store, htu, hrest, htu₁, htu₂, ty_eq_of_sameTyping htu₂]
  rfl

/-- An update sees types only, and the steps of its path. -/
private theorem update {base value : Exp α} {path : List (Step (Exp α))} (hbase : SpanFree f g base)
    (hpath : ∀ e ∈ offsets path, SpanFree f g e) (hvalue : SpanFree f g value) :
    SpanFree f g (.update a base path value) := by
  intro env want
  simp only [mapAnn_update, typed]
  apply (hbase env.operand none).bind
  intro t u htu
  rw [ty_eq_of_sameTyping htu]
  apply (refuseIf_agrees _ _).bind
  intro _ _ _
  apply (refuseIndex_agrees f g path).bind
  intro _ _ _
  apply (typedPath_agrees hpath true u.ty _ _).bind
  rintro ⟨ty, p⟩ ⟨ty', p'⟩ ⟨hty, hrest⟩
  obtain rfl : ty = ty' := hty
  apply (hvalue env.operand (some ty)).bind
  intro t₁ u₁ htu₁
  apply settle_agrees want
  rw [SameTyping, mapAnn_update, mapAnn_update, htu, hrest, htu₁]
  rfl

end SpanFree

/-! ## Expressions -/

/-- Checking two images of one tree agrees. -/
theorem typed_agrees {α : Type} (f g : α → Span) (e : Exp α) : SpanFree f g e := by
  induction e with
  | var a id => exact .var
  | int a value width => exact .int
  | ascribe a inner ty ih => exact .ascribe ih
  | coerce a inner ty ih => exact .coerce ih
  | prim a op args ih => exact .prim ih
  | letIn a name ty value body hvalue hbody => exact .letIn hvalue hbody
  | call a callee args hcallee hargs => exact .call hcallee hargs
  | caseOf a scrutinee arms hscrutinee harms => exact .caseOf hscrutinee harms
  | recIn a fs body hfs hbody => exact .recIn hfs hbody
  | tuple a elems ih => exact .tuple ih
  | vector a elems ih => exact .vector ih
  | gep a base path hbase hpath => exact .gep hbase hpath
  | load a base path hbase hpath => exact .load hbase hpath
  | store a dest path value body hdest hpath hvalue hbody =>
    exact .store hdest hpath hvalue hbody
  | update a base path value hbase hpath hvalue => exact .update hbase hpath hvalue

/-- Programs that are equal without their spans are both checked, with the same types and tail
    flags, or both refused for the same cause. -/
theorem checkProgram_agrees {e e' : Exp Span} (h : e.mapAnn noAnn = e'.mapAnn noAnn) :
    Agrees SameTyping (checkProgram e) (checkProgram e') := by
  obtain ⟨p, rfl, rfl⟩ := e.exists_pair e' h
  exact typed_agrees Prod.fst Prod.snd p _ _

end Typing

end BranchIR
