import BranchIR.Proofs.Typing.Modes

/-!
# The type system as rules

`HasType Γ e T` says that `e` has type `T` where the identities have the types `Γ`. The rules
are undirected: they treat operands, elements and arms alike, do not say which of them is
looked at first, and do not know what an expression is wanted for. The checker follows one
order and passes wanted types down; `infer_iff_hasType` says that it finds exactly the types
that the rules give.

## Key results

- `typed_iff_hasType`: what the checker decides, with and without a wanted type
- `infer_iff_hasType`: computing a type succeeds exactly for the types of the rules
- `HasType.unique`: an expression has at most one type
-/

namespace BranchIR

/-- The types of the identities in scope. -/
abbrev TyContext := VarId → Option Ty

namespace TyContext

/-- The context with one more binding, which hides an older one of the same identity. -/
def bind (Γ : TyContext) (id : VarId) (ty : Ty) : TyContext :=
  fun x => if x = id then some ty else Γ x

/-- The context with more bindings, of which later ones hide earlier ones. -/
def bindAll (Γ : TyContext) (bindings : List (VarId × Ty)) : TyContext :=
  bindings.foldl (fun Γ b => Γ.bind b.1 b.2) Γ

end TyContext

/-- The types of the identities in an environment. -/
def Env.types (env : Env) : TyContext := fun id => (env.find? id).map (·.ty)

@[simp] theorem Env.types_withTail (env : Env) (tail : Bool) :
    (env.withTail tail).types = env.types := rfl

@[simp] theorem Env.types_operand (env : Env) : env.operand.types = env.types := rfl

@[simp] theorem Env.types_declare (env : Env) (id : VarId) (ty : Ty) :
    (env.declare id ty).types = env.types.bind id ty := by
  funext x
  by_cases h : x = id <;> simp [types, declare, TyContext.bind, h]

/-- Declarations bind types in the order in which they are made. -/
@[simp] theorem Env.types_declareAll (env : Env) (bindings : List (VarId × Ty)) :
    (env.declareAll bindings).types = env.types.bindAll bindings := by
  induction bindings generalizing env with
  | nil => rfl
  | cons b bs ih =>
    have h := ih (env.declare b.1 b.2)
    rw [types_declare] at h
    exact h

/-- The integer that a pattern stands for, if it is a literal. -/
def Pattern.literal? : Pattern → Option Int
  | .literal value => some value
  | .default => none

/-- The literals of the arms of a case, in order. -/
def armLiterals {ε : Type} (arms : List (Arm ε)) : List Int :=
  arms.filterMap fun arm => arm.pattern.literal?

/-- The context of the bodies of a bundle's functions and of the expression that uses it: all
    names of the bundle at once. -/
def TyContext.bundle {ε : Type} (Γ : TyContext) (fs : List (Func Span ε)) : TyContext :=
  Γ.bindAll (fs.map fun f => (f.name, f.ty))

mutual

/-- The types of expressions. -/
inductive HasType : TyContext → Exp Span → Ty → Prop
  | var {Γ s id T} (bound : Γ id = some T) : HasType Γ (.var s id) T
  | int {Γ s value width} : HasType Γ (.int s value width) (.int width)
  | ascribe {Γ s e T} (inner : HasType Γ e T) : HasType Γ (.ascribe s e T) T
  | coerce {Γ s e T U} (inner : HasType Γ e U) : HasType Γ (.coerce s e T) T
  | prim {Γ s op args T} (some_arg : args ≠ []) (numeric : T.isNumeric = true)
      (operands : ∀ e ∈ args, HasType Γ e T) : HasType Γ (.prim s op args) T
  | letIn {Γ s name T value body U} (bound : HasType Γ value T)
      (uses : HasType (Γ.bind name T) body U) : HasType Γ (.letIn s name T value body) U
  | call {Γ s callee args params T} (function : HasType Γ callee (.fn params T))
      (arity : args.length = params.length)
      (arguments : ∀ p ∈ args.zip params, HasType Γ p.1 p.2) : HasType Γ (.call s callee args) T
  | caseOf {Γ s scrutinee arms width T} (switch : HasType Γ scrutinee (.int width))
      (some_arm : arms ≠ []) (fit : ∀ value ∈ armLiterals arms, fits value width = true)
      (distinct : (armLiterals arms).Nodup) (bodies : ∀ arm ∈ arms, HasType Γ arm.body T) :
      HasType Γ (.caseOf s scrutinee arms) T
  | recIn {Γ s fs body T}
      (bodies : ∀ f ∈ fs,
        HasType ((Γ.bundle fs).bindAll (f.params.map fun p => (p.name, p.ty))) f.body f.result)
      (uses : HasType (Γ.bundle fs) body T) : HasType Γ (.recIn s fs body) T
  | tuple {Γ s elems fields} (arity : elems.length = fields.length)
      (parts : ∀ p ∈ elems.zip fields, HasType Γ p.1 p.2) :
      HasType Γ (.tuple s elems) (.tuple fields)
  | vector {Γ s elems lane} (some_elem : elems ≠ [])
      (lanes : ∀ e ∈ elems, HasType Γ e (.prim lane)) :
      HasType Γ (.vector s elems) (.vector elems.length lane)
  | gep {Γ s base path target T} (pointer : HasType Γ base (.ptr target))
      (leads : PointerPath Γ target path T) : HasType Γ (.gep s base path) (.ptr T)
  | load {Γ s base path target T} (pointer : HasType Γ base (.ptr target))
      (leads : PointerPath Γ target path T) : HasType Γ (.load s base path) T
  | store {Γ s dest path value body target T U} (pointer : HasType Γ dest (.ptr target))
      (leads : PointerPath Γ target path T) (written : HasType Γ value T)
      (next : HasType Γ body U) : HasType Γ (.store s dest path value body) U
  | update {Γ s base path value T U} (aggregate : HasType Γ base U) (direct : U.pointee? = none)
      (leads : PartPath Γ U path T) (written : HasType Γ value T) :
      HasType Γ (.update s base path value) U

/-- The types of the parts of a value: a path leads from the type of the whole to the type of
    a part of it. -/
inductive PartPath : TyContext → Ty → List (Step (Exp Span)) → Ty → Prop
  | here {Γ T} : PartPath Γ T [] T
  | field {Γ fields n F path T} (field : fields[n]? = some F) (rest : PartPath Γ F path T) :
      PartPath Γ (.tuple fields) (.field n :: path) T
  | element {Γ length elem n path T} (within : n < length) (rest : PartPath Γ elem path T) :
      PartPath Γ (.array length elem) (.element n :: path) T
  | lane {Γ length lane e width path T} (offset : HasType Γ e (.int width))
      (rest : PartPath Γ (.prim lane) path T) :
      PartPath Γ (.vector length lane) (.lane e :: path) T

/-- The types that paths from a pointer lead to: that of its target, or after a first step over
    targets, that of a part of the target. -/
inductive PointerPath : TyContext → Ty → List (Step (Exp Span)) → Ty → Prop
  | here {Γ target} : PointerPath Γ target [] target
  | index {Γ target e width path T} (offset : HasType Γ e (.int width))
      (rest : PartPath Γ target path T) : PointerPath Γ target (.index e :: path) T

end

/-- Arithmetic applies to the integers and the floating-point numbers. -/
theorem Ty.isNumeric_iff {T : Ty} :
    T.isNumeric = true ↔ (∃ width, T = .int width) ∨ ∃ kind, T = .float kind := by
  constructor
  · intro h
    -- of the primitive types only pointers are left out
    cases T with
    | prim p =>
      cases p with
      | int width => exact .inl ⟨width, rfl⟩
      | float kind => exact .inr ⟨kind, rfl⟩
      | ptr target => cases h
    | _ => cases h
  · rintro (⟨width, rfl⟩ | ⟨kind, rfl⟩) <;> rfl

/-- An operator joins operands of one type, an integer or a floating-point number, which is its
    own type. -/
theorem HasType.prim_iff {Γ : TyContext} {s : Span} {op : PrimOp} {args : List (Exp Span)}
    {T : Ty} :
    HasType Γ (.prim s op args) T ↔
      args ≠ [] ∧ ((∃ width, T = .int width) ∨ ∃ kind, T = .float kind) ∧
        ∀ e ∈ args, HasType Γ e T := by
  rw [← Ty.isNumeric_iff]
  constructor
  · intro h
    cases h with
    | prim some_arg numeric operands => exact ⟨some_arg, numeric, operands⟩
  · rintro ⟨some_arg, numeric, operands⟩
    exact .prim some_arg numeric operands

/-- A path to a part steps over no pointer. -/
theorem PartPath.not_index {Γ : TyContext} {T U : Ty} {path : List (Step (Exp Span))}
    (h : PartPath Γ T path U) (e : Exp Span) : Step.index e ∉ path := by
  induction path generalizing T with
  | nil => simp
  | cons step path ih =>
    cases h with
    | field _ rest | element _ rest | lane _ rest => simpa using ih rest

namespace Typing

/-- Checking an expression, whatever is wanted of it, succeeds with a type exactly if the rules
    give it the type and the type is admitted. -/
def Decides (e : Exp Span) : Prop :=
  ∀ env want T, (∃ t, typed env want e = .ok t ∧ t.ty = T) ↔
    HasType env.types e T ∧ Admits want T

/-- What is checked is typed by the rules, and its type is admitted. -/
private theorem Decides.hasType {env : Env} {want : Option Ty} {e : Exp Span} {t : Exp Checked}
    (h : Decides e) (ht : typed env want e = .ok t) : HasType env.types e t.ty ∧ Admits want t.ty :=
  (h env want t.ty).1 ⟨t, ht, rfl⟩

/-- What the rules type is checked with that type if it is admitted. -/
private theorem Decides.typed {want : Option Ty} {e : Exp Span} {T : Ty} (h : Decides e) (env : Env)
    (hT : HasType env.types e T) (hwant : Admits want T) :
    ∃ t, typed env want e = .ok t ∧ t.ty = T :=
  (h env want T).2 ⟨hT, hwant⟩

/-! ## Containers -/

section Containers

variable {env : Env}

/-- Expressions in a list get the types of the rules, as far as these are admitted. -/
private theorem typedAll_iff_hasType (env : Env) {es : List (Exp Span)} (h : ∀ e ∈ es, Decides e)
    (wants : List (Option Ty)) (Ts : List Ty) :
    (∃ ts, typedAll env wants es = .ok ts ∧ ts.map Exp.ty = Ts) ↔
      es.length = Ts.length ∧ (∀ p ∈ es.zip Ts, HasType env.types p.1 p.2) ∧
        ∀ p ∈ wants.zip Ts, Admits p.1 p.2 := by
  induction es generalizing wants Ts with
  | nil =>
    cases Ts with
    | nil => simp [typedAll]
    | cons T Ts => simp [typedAll]
  | cons e es ih =>
    obtain ⟨he, hes⟩ := List.forall_mem_cons.1 h
    -- what is wanted of the first expression goes with it, the rest with the others
    have hwants (T : Ty) (Ts : List Ty) : (∀ p ∈ wants.zip (T :: Ts), Admits p.1 p.2) ↔
        Admits wants.head?.join T ∧ ∀ p ∈ wants.tail.zip Ts, Admits p.1 p.2 := by
      cases wants <;> simp
    constructor
    · -- the type found for each is the one that the rules give
      intro h
      obtain ⟨ts, hts, rfl⟩ := h
      obtain ⟨first, rest, hfirst, hrest, rfl⟩ := typedAll_cons_eq_ok.1 hts
      obtain ⟨hT, hwant⟩ := he.hasType hfirst
      obtain ⟨hlen, hzip, hadmits⟩ := (ih hes wants.tail _).1 ⟨rest, hrest, rfl⟩
      rw [List.map_cons, hwants]
      refine ⟨by simp [hlen], ?_, hwant, hadmits⟩
      rw [List.zip_cons_cons, List.forall_mem_cons]
      exact ⟨hT, hzip⟩
    · -- each type of the rules is found
      intro ⟨hlen, hzip, hadmits⟩
      obtain _ | ⟨T, Ts⟩ := Ts
      · simp at hlen
      rw [List.zip_cons_cons, List.forall_mem_cons] at hzip
      rw [hwants] at hadmits
      obtain ⟨first, hfirst, rfl⟩ := he.typed _ hzip.1 hadmits.1
      obtain ⟨rest, hrest, rfl⟩ :=
        (ih hes wants.tail Ts).2 ⟨by simpa using hlen, hzip.2, hadmits.2⟩
      exact ⟨first :: rest, typedAll_cons_eq_ok.2 ⟨first, rest, hfirst, hrest, rfl⟩, rfl⟩

/-- Expressions of which one type is wanted. -/
private theorem typedAll_same_iff_hasType (env : Env) {es : List (Exp Span)}
    (h : ∀ e ∈ es, Decides e) (T : Ty) :
    (∃ ts, typedAll env (es.map fun _ => some T) es = .ok ts) ↔
      ∀ e ∈ es, HasType env.types e T := by
  induction es with
  | nil => simp [typedAll]
  | cons e es ih =>
    obtain ⟨he, hes⟩ := List.forall_mem_cons.1 h
    rw [List.forall_mem_cons]
    constructor
    · intro ⟨ts, hts⟩
      obtain ⟨first, rest, hfirst, hrest, -⟩ := typedAll_cons_eq_ok.1 hts
      obtain ⟨hT, hwant⟩ := he.hasType hfirst
      exact ⟨admits_some.1 hwant ▸ hT, (ih hes).1 ⟨rest, hrest⟩⟩
    · intro ⟨hT, hrest⟩
      obtain ⟨first, hfirst, -⟩ := he.typed _ hT (admits_some.2 rfl)
      obtain ⟨rest, hrest⟩ := (ih hes).2 hrest
      exact ⟨first :: rest, typedAll_cons_eq_ok.2 ⟨first, rest, hfirst, hrest, rfl⟩⟩

private theorem admits_zip_self (Ts : List Ty) : ∀ p ∈ (Ts.map some).zip Ts, Admits p.1 p.2 := by
  induction Ts with
  | nil => simp
  | cons T Ts ih => simpa using ih

/-- Lists of one length in which each type is admitted as the other are equal. -/
private theorem eq_of_admits_zip {Ts Us : List Ty} (hlen : Ts.length = Us.length)
    (h : ∀ p ∈ (Ts.map some).zip Us, Admits p.1 p.2) : Ts = Us := by
  induction Ts generalizing Us with
  | nil => simpa [eq_comm] using hlen
  | cons T Ts ih =>
    obtain _ | ⟨U, Us⟩ := Us
    · simp at hlen
    · rw [List.map_cons, List.zip_cons_cons, List.forall_mem_cons] at h
      rw [admits_some.1 h.1, ih (by simpa using hlen) h.2]

/-- The literals of arms fit the width and differ from each other and from those seen. -/
def NewLiterals {ε : Type} (width : Nat) (seen : List Int) (arms : List (Arm ε)) : Prop :=
  (∀ value ∈ armLiterals arms, fits value width = true ∧ value ∉ seen) ∧ (armLiterals arms).Nodup

/-- The first pattern is accepted and what is seen with it leaves the other literals new, exactly
    if all the literals are new. -/
theorem newLiterals_cons_iff {ε : Type} {width : Nat} {seen : List Int} {arm : Arm ε}
    {arms : List (Arm ε)} (pos : Position) :
    NewLiterals width seen (arm :: arms) ↔
      ∃ seen', checkPattern width seen arm.pattern pos = .ok seen' ∧
        NewLiterals width seen' arms := by
  obtain ⟨pattern, body⟩ := arm
  simp only [checkPattern_eq_ok]
  cases pattern with
  -- the default arm has no literal and leaves those seen as they are
  | default => simp [NewLiterals, armLiterals, Pattern.literal?]
  | literal value =>
    have hliterals : armLiterals (⟨.literal value, body⟩ :: arms) = value :: armLiterals arms := rfl
    simp only [NewLiterals, hliterals, List.forall_mem_cons, List.nodup_cons]
    constructor
    · -- the other literals differ from the first, so they are new with it among those seen
      intro ⟨⟨⟨hfit, hnew⟩, hrest⟩, hdiffer, hnodup⟩
      refine ⟨value :: seen, .inr ⟨value, rfl, hfit, hnew, rfl⟩, fun v hv => ?_, hnodup⟩
      rw [List.mem_cons, not_or]
      exact ⟨(hrest v hv).1, fun heq => hdiffer (heq ▸ hv), (hrest v hv).2⟩
    · -- what is new with the first among those seen differs from it
      intro ⟨seen', hseen, hrest, hnodup⟩
      obtain ⟨hdefault, -⟩ | ⟨_, hvalue, hfit, hnew, rfl⟩ := hseen
      · cases hdefault
      · cases hvalue
        refine ⟨⟨⟨hfit, hnew⟩, fun v hv => ⟨(hrest v hv).1, ?_⟩⟩, ?_, hnodup⟩
        · exact fun hmem => (hrest v hv).2 (List.mem_cons_of_mem _ hmem)
        · exact fun hmem => (hrest value hmem).2 (List.mem_cons_self ..)

/-- Arms share one type, and their literals are new. -/
private theorem typedArms_iff_hasType {arms : List (Arm (Exp Span))}
    (h : ∀ arm ∈ arms, Decides arm.body) (width : Nat) (seen : List Int) (want : Option Ty)
    (T : Ty) :
    (∃ arms', typedArms env width seen want arms = .ok (some T, arms')) ↔
      Admits want T ∧ (want = none → arms ≠ []) ∧ NewLiterals width seen arms ∧
        ∀ arm ∈ arms, HasType env.types arm.body T := by
  induction arms generalizing seen want with
  | nil =>
    cases want with
    | none => simp [typedArms]
    | some U => simp [typedArms, NewLiterals, armLiterals]
  | cons arm arms ih =>
    obtain ⟨harm, harms⟩ := List.forall_mem_cons.1 h
    -- the pattern is checked first, and its literal counts as seen for the arms after it
    rw [newLiterals_cons_iff arm.body.start, List.forall_mem_cons]
    constructor
    · intro ⟨arms', htyped⟩
      obtain ⟨seen', first, rest, hseen, hfirst, hrest, -⟩ := typedArms_cons_eq_ok.1 htyped
      obtain ⟨hfirstT, hwant⟩ := harm.hasType hfirst
      obtain ⟨hT, -, hnew, hbodies⟩ := (ih harms seen' _).1 ⟨rest, hrest⟩
      -- the other arms are checked for the wanted type, or else for that of the first
      have hty : first.ty = T := by
        cases want with
        | none => simpa using hT
        | some U => exact (admits_some.1 hwant).symm.trans (by simpa using hT)
      subst hty
      exact ⟨hwant, fun _ => by simp, ⟨seen', hseen, hnew⟩, hfirstT, hbodies⟩
    · intro ⟨hwant, _, ⟨seen', hseen, hnew⟩, hfirstT, hbodies⟩
      obtain ⟨first, hfirst, hty⟩ := harm.typed _ hfirstT hwant
      -- whether it was wanted or found, the type is now wanted of the other arms
      have hnext : want.getD first.ty = T := by
        cases want with
        | none => exact hty
        | some U => exact admits_some.1 hwant
      obtain ⟨rest, hrest⟩ := (ih harms seen' (some (want.getD first.ty))).2
        ⟨admits_some.2 hnext, by simp, hnew, hbodies⟩
      exact ⟨_, typedArms_cons_eq_ok.2 ⟨seen', first, rest, hseen, hfirst, hrest, rfl⟩⟩

/-- Any arm at all decides the type of a case. -/
private theorem typedArms_some_of_ne_nil {arms : List (Arm (Exp Span))} (hne : arms ≠ [])
    {width : Nat} {seen : List Int} {want ty : Option Ty} {arms' : List (Arm (Exp Checked))}
    (h : typedArms env width seen want arms = .ok (ty, arms')) : ∃ T, ty = some T := by
  cases arms with
  | nil => exact absurd rfl hne
  | cons arm arms =>
    -- from the second arm on a type is wanted, and it comes out
    obtain ⟨_, _, _, -, -, hrest, -⟩ := typedArms_cons_eq_ok.1 h
    exact ⟨_, typedArms_wanted hrest⟩

/-- Bodies have the declared results where the parameters are bound over the bundle. -/
private theorem typedFuncs_iff_hasType {fs : List (Func Span (Exp Span))}
    (h : ∀ f ∈ fs, Decides f.body) :
    (∃ fs', typedFuncs env fs = .ok fs') ↔
      ∀ f ∈ fs, HasType (env.types.bindAll (f.params.map fun p => (p.name, p.ty))) f.body
        f.result := by
  -- the tail flag of a body does not touch the types
  have hscope (f : Func Span (Exp Span)) : (bodyEnv env f.params).types =
      env.types.bindAll (f.params.map fun p => (p.name, p.ty)) := by
    simp [bodyEnv]
  induction fs with
  | nil => simp [typedFuncs]
  | cons f fs ih =>
    obtain ⟨hf, hfs⟩ := List.forall_mem_cons.1 h
    rw [List.forall_mem_cons, ← hscope f]
    constructor
    · intro ⟨fs', htyped⟩
      obtain ⟨body, rest, hbody, hrest, -⟩ := typedFuncs_cons_eq_ok.1 htyped
      obtain ⟨hT, hwant⟩ := hf.hasType hbody
      exact ⟨admits_some.1 hwant ▸ hT, (ih hfs).1 ⟨rest, hrest⟩⟩
    · intro ⟨hT, hrest⟩
      obtain ⟨rest, hrest⟩ := (ih hfs).2 hrest
      obtain ⟨body, hbody, -⟩ := hf.typed _ hT (admits_some.2 rfl)
      exact ⟨_, typedFuncs_cons_eq_ok.2 ⟨body, rest, hbody, hrest, rfl⟩⟩

/-- After its first step, a path leads to a part. -/
private theorem typedPath_later_iff_partPath (env : Env) {path : List (Step (Exp Span))}
    (h : ∀ e ∈ Exp.offsets path, Decides e) (ty T : Ty) (owner : Position) :
    (∃ path', typedPath env false ty owner path = .ok (T, path')) ↔
      PartPath env.types ty path T := by
  induction path generalizing ty with
  | nil =>
    -- the end of the path: the type it has come to
    simp only [typedPath_nil_eq_ok, exists_eq_right]
    exact ⟨fun h => h ▸ .here, fun h => by cases h; rfl⟩
  | cons step path ih =>
    rw [Exp.offsets_cons, List.forall_mem_append] at h
    obtain ⟨hstep, hpath⟩ := h
    cases step with
    | field n =>
      simp only [typedPath_field_eq_ok]
      constructor
      · intro h
        -- inversion and the rule name the same field, and the rest of the path goes on from it
        obtain ⟨_, fields, next, rest, rfl, hfield, hrest, -⟩ := h
        exact .field hfield ((ih hpath next).1 ⟨rest, hrest⟩)
      · intro h
        cases h with
        | field hfield hrest =>
          obtain ⟨rest, hrest⟩ := (ih hpath _).2 hrest
          exact ⟨_, _, _, rest, rfl, hfield, hrest, rfl⟩
    | element n =>
      simp only [typedPath_element_eq_ok]
      constructor
      · intro h
        obtain ⟨_, length, next, rest, rfl, hlt, hrest, -⟩ := h
        exact .element hlt ((ih hpath next).1 ⟨rest, hrest⟩)
      · intro h
        cases h with
        | element hlt hrest =>
          obtain ⟨rest, hrest⟩ := (ih hpath _).2 hrest
          exact ⟨_, _, _, rest, rfl, hlt, hrest, rfl⟩
    | lane e =>
      have he : Decides e := hstep e (by simp)
      simp only [typedPath_lane_eq_ok]
      constructor
      · intro h
        obtain ⟨_, length, lane, offset, width, rest, rfl, hoffset, hwidth, hrest, -⟩ := h
        exact .lane (hwidth ▸ (he.hasType hoffset).1) ((ih hpath _).1 ⟨rest, hrest⟩)
      · intro h
        cases h with
        | lane hoffset hrest =>
          -- nothing is wanted of an offset, so the type that it has is admitted
          obtain ⟨offset, hoffset, hwidth⟩ := he.typed _ hoffset (admits_none _)
          obtain ⟨rest, hrest⟩ := (ih hpath _).2 hrest
          exact ⟨_, _, _, offset, _, rest, rfl, hoffset, hwidth, hrest, rfl⟩
    | index e =>
      -- only a first step goes over a pointer
      simp only [typedPath_index_eq_ok]
      constructor
      · intro ⟨_, _, _, _, _, hfirst, _⟩
        cases hfirst
      · intro h
        cases h

/-- From a type that is no pointer, a path leads to a part from its first step on. -/
private theorem typedPath_direct_iff_partPath (env : Env) {path : List (Step (Exp Span))}
    (h : ∀ e ∈ Exp.offsets path, Decides e) {ty : Ty} (hty : ty.pointee? = none) (T : Ty)
    (owner : Position) :
    (∃ path', typedPath env true ty owner path = .ok (T, path')) ↔
      PartPath env.types ty path T := by
  rw [← typedPath_later_iff_partPath _ h ty T owner]
  -- whether a step is the first only matters to steps over targets, which want a pointer
  obtain _ | ⟨_ | _ | _ | e, path⟩ := path
  · simp [typedPath_nil_eq_ok]
  · simp [typedPath_field_eq_ok]
  · simp [typedPath_element_eq_ok]
  · simp [typedPath_lane_eq_ok]
  · simp only [typedPath_index_eq_ok]
    constructor
    · intro h
      obtain ⟨_, target, _, _, _, _, rfl, -⟩ := h
      cases hty
    · intro ⟨_, _, _, _, _, hfirst, _⟩
      cases hfirst

/-- From a pointer, a path leads to the target, or over targets with its first step and then to
    a part. -/
private theorem typedPath_start_iff_pointerPath {path : List (Step (Exp Span))}
    (h : ∀ e ∈ Exp.offsets path, Decides e) (target T : Ty) (owner : Position) :
    (∃ path', typedPath env.operand true (pathStart (.ptr target) target path) owner path =
      .ok (T, path')) ↔ PointerPath env.types target path T := by
  have hstart (step : Step (Exp Span)) (path : List (Step (Exp Span))) :
      pathStart (.ptr target) target (step :: path) = .ptr target := rfl
  cases path with
  | nil =>
    -- without steps the path is at the target already
    simp only [typedPath_nil_eq_ok, exists_eq_right]
    exact ⟨fun h => h ▸ .here, fun h => by cases h; rfl⟩
  | cons step path =>
    cases step with
    -- a pointer has no fields, elements or lanes
    | field n =>
      simp only [hstart, typedPath_field_eq_ok]
      exact ⟨fun ⟨_, _, _, _, hty, _⟩ => (nomatch hty), fun h => nomatch h⟩
    | element n =>
      simp only [hstart, typedPath_element_eq_ok]
      exact ⟨fun ⟨_, _, _, _, hty, _⟩ => (nomatch hty), fun h => nomatch h⟩
    | lane e =>
      simp only [hstart, typedPath_lane_eq_ok]
      exact ⟨fun ⟨_, _, _, _, _, _, hty, _⟩ => (nomatch hty), fun h => nomatch h⟩
    | index e =>
      -- behind the pointer the path leads to a part
      rw [Exp.offsets_cons, List.forall_mem_append] at h
      have he : Decides e := h.1 e (by simp)
      have hrest (ty : Ty) := typedPath_later_iff_partPath env.operand h.2 ty T owner
      simp only [hstart, typedPath_index_eq_ok, true_and]
      constructor
      · intro ⟨_, _, offset, width, rest, hty, hoffset, hwidth, htyped, _⟩
        cases hty
        exact .index (hwidth ▸ (he.hasType hoffset).1) ((hrest _).1 ⟨rest, htyped⟩)
      · intro h
        cases h with
        | index hoffset hpart =>
          obtain ⟨offset, hoffset, hwidth⟩ := he.typed env.operand hoffset (admits_none _)
          obtain ⟨rest, htyped⟩ := (hrest _).2 hpart
          exact ⟨_, _, offset, _, rest, rfl, hoffset, hwidth, htyped, rfl⟩

/-- A base and a path that the checker accepts are a pointer and a path from it. -/
private theorem addresses_iff_hasType {s : Span} {base : Exp Span} {path : List (Step (Exp Span))}
    (hbase : Decides base) (hpath : ∀ e ∈ Exp.offsets path, Decides e) (T : Ty) :
    (∃ base' path', Addresses env s base path base' T path') ↔
      ∃ target, HasType env.types base (.ptr target) ∧ PointerPath env.types target path T := by
  constructor
  · -- where the path starts is told by the type that was found for the base
    intro ⟨base', path', target, hbase', hty, htyped⟩
    rw [hty] at htyped
    have hleads := (typedPath_start_iff_pointerPath hpath target T s.first).1 ⟨path', htyped⟩
    exact ⟨target, hty ▸ (hbase.hasType hbase').1, hleads⟩
  · intro ⟨target, hT, hpointer⟩
    obtain ⟨base', hbase', hty⟩ := hbase.typed env.operand hT (admits_none _)
    obtain ⟨path', htyped⟩ := (typedPath_start_iff_pointerPath hpath target T s.first).2 hpointer
    exact ⟨base', path', target, hbase', hty, hty ▸ htyped⟩

end Containers

/-! ## Forms -/

namespace Decides

/-- A variable is looked up in the context of the rules. -/
private theorem var {s : Span} {id : VarId} : Decides (.var s id) := by
  intro env want T
  simp only [typed_var_eq_ok]
  constructor
  · intro h
    obtain ⟨_, ⟨binding, hfound, hwant, rfl⟩, rfl⟩ := h
    exact ⟨.var (by simp [Env.types, hfound, Exp.ty, Exp.ann, note]), hwant⟩
  · rintro ⟨hT, hwant⟩
    cases hT with | var hbound
    obtain ⟨binding, hfound, rfl⟩ := Option.map_eq_some_iff.1 hbound
    exact ⟨_, ⟨binding, hfound, hwant, rfl⟩, rfl⟩

/-- A literal has the type of its width by its rule. -/
private theorem int {s : Span} {value : Int} {width : Nat} : Decides (.int s value width) := by
  intro env want T
  simp only [typed_int_eq_ok]
  constructor
  · intro h
    obtain ⟨_, ⟨hwant, rfl⟩, rfl⟩ := h
    exact ⟨.int, hwant⟩
  · intro ⟨hT, hwant⟩
    cases hT
    exact ⟨_, ⟨hwant, rfl⟩, rfl⟩

/-- An ascription wants its type, which the rules give to its expression. -/
private theorem ascribe {s : Span} {e : Exp Span} {ty : Ty} (ih : Decides e) :
    Decides (.ascribe s e ty) := by
  intro env want T
  simp only [typed_ascribe_eq_ok]
  constructor
  · intro h
    obtain ⟨_, ⟨inner, hinner, hwant, rfl⟩, rfl⟩ := h
    obtain ⟨hT, hty⟩ := ih.hasType hinner
    exact ⟨.ascribe (admits_some.1 hty ▸ hT), hwant⟩
  · intro ⟨hT, hwant⟩
    cases hT with | ascribe hT
    obtain ⟨inner, hinner, -⟩ := ih.typed _ hT (admits_some.2 rfl)
    exact ⟨_, ⟨inner, hinner, hwant, rfl⟩, rfl⟩

/-- A coercion asks only that its expression has a type. -/
private theorem coerce {s : Span} {e : Exp Span} {ty : Ty} (ih : Decides e) :
    Decides (.coerce s e ty) := by
  intro env want T
  simp only [typed_coerce_eq_ok]
  constructor
  · intro h
    obtain ⟨_, ⟨inner, hinner, hwant, rfl⟩, rfl⟩ := h
    exact ⟨.coerce (ih.hasType hinner).1, hwant⟩
  · intro ⟨hT, hwant⟩
    cases hT with | coerce hT
    obtain ⟨inner, hinner, -⟩ := ih.typed env.operand hT (admits_none _)
    exact ⟨_, ⟨inner, hinner, hwant, rfl⟩, rfl⟩

/-- The first operand is looked at before the others, which have to be of its type. -/
private theorem prim {s : Span} {op : PrimOp} {args : List (Exp Span)}
    (ih : ∀ e ∈ args, Decides e) :
    Decides (.prim s op args) := by
  intro env want T
  simp only [typed_prim_eq_ok]
  constructor
  · intro h
    obtain ⟨_, ⟨arg, args', first, rest, rfl, hfirst, hnum, hrest, hwant, rfl⟩, rfl⟩ := h
    obtain ⟨harg, hargs⟩ := List.forall_mem_cons.1 ih
    have htypes := (typedAll_same_iff_hasType _ hargs first.ty).1 ⟨rest, hrest⟩
    exact ⟨.prim (List.cons_ne_nil _ _) hnum
      (List.forall_mem_cons.2 ⟨(harg.hasType hfirst).1, htypes⟩), hwant⟩
  · intro ⟨hT, hwant⟩
    cases hT with | prim hargs hnum htypes
    obtain ⟨arg, args, rfl⟩ := List.exists_cons_of_ne_nil hargs
    obtain ⟨harg, hargs⟩ := List.forall_mem_cons.1 ih
    obtain ⟨harg', hargs'⟩ := List.forall_mem_cons.1 htypes
    obtain ⟨first, hfirst, rfl⟩ := harg.typed env.operand harg' (admits_none _)
    obtain ⟨rest, hrest⟩ :=
      (typedAll_same_iff_hasType env.operand hargs first.ty).2 hargs'
    exact ⟨_, ⟨arg, args, first, rest, rfl, hfirst, hnum, hrest, hwant, rfl⟩, rfl⟩

/-- A let asks for the type of its value and goes on with its name bound. -/
private theorem letIn {s : Span} {name : VarId} {ty : Ty} {value body : Exp Span}
    (hvalue : Decides value) (hbody : Decides body) : Decides (.letIn s name ty value body) := by
  intro env want T
  simp only [typed_letIn_eq_ok]
  constructor
  · intro h
    obtain ⟨_, ⟨value', body', hvalue', hbody', hwant, rfl⟩, rfl⟩ := h
    obtain ⟨hT, hty⟩ := hvalue.hasType hvalue'
    have huses := (hbody.hasType hbody').1
    rw [Env.types_declare] at huses
    exact ⟨.letIn (admits_some.1 hty ▸ hT) huses, hwant⟩
  · intro ⟨hT, hwant⟩
    cases hT with | letIn hT huses
    rw [← Env.types_declare] at huses
    obtain ⟨value', hvalue', -⟩ := hvalue.typed env.operand hT (admits_some.2 rfl)
    obtain ⟨body', hbody', rfl⟩ := hbody.typed _ huses (admits_none _)
    exact ⟨_, ⟨value', body', hvalue', hbody', hwant, rfl⟩, rfl⟩

/-- A call wants of each argument what the parameter asks for, so their types are the parameters. -/
private theorem call {s : Span} {callee : Exp Span} {args : List (Exp Span)}
    (hcallee : Decides callee) (hargs : ∀ e ∈ args, Decides e) : Decides (.call s callee args) := by
  intro env want T
  simp only [typed_call_eq_ok]
  have hall (params Ts : List Ty) := typedAll_iff_hasType env.operand hargs
    (params.map some) Ts
  constructor
  · intro h
    obtain ⟨_, ⟨callee', params, result, args', hcallee', hsig, hlen, hargs', hwant, rfl⟩,
      rfl⟩ := h
    obtain ⟨hlen', hzip, hadmits⟩ := (hall params (args'.map Exp.ty)).1 ⟨args', hargs', rfl⟩
    -- as many arguments as parameters, so each has been compared with one
    have hparams : args'.map Exp.ty = params :=
      (eq_of_admits_zip (by omega) hadmits).symm
    rw [hparams] at hlen' hzip
    exact ⟨.call (hsig ▸ (hcallee.hasType hcallee').1) hlen' hzip, hwant⟩
  · intro ⟨hT, hwant⟩
    cases hT with | call hfn hlen hzip
    obtain ⟨callee', hcallee', hsig⟩ := hcallee.typed env.operand hfn (admits_none _)
    obtain ⟨args', hargs', -⟩ := (hall _ _).2 ⟨hlen, hzip, admits_zip_self _⟩
    exact ⟨_, ⟨callee', _, _, args', hcallee', hsig, hlen.symm, hargs', hwant, rfl⟩, rfl⟩

/-- A case asks for an integer, for literals that fit and differ, and for one type of all arms. -/
private theorem caseOf {s : Span} {scrutinee : Exp Span} {arms : List (Arm (Exp Span))}
    (hscrutinee : Decides scrutinee) (harms : ∀ arm ∈ arms, Decides arm.body) :
    Decides (.caseOf s scrutinee arms) := by
  intro env want T
  simp only [typed_caseOf_eq_ok]
  constructor
  · intro h
    obtain ⟨_, ⟨scrutinee', width, ty, arms', hscrutinee', hwidth, hne, harms', rfl⟩, rfl⟩ := h
    -- the stand-in type of a case without arms is never used
    obtain ⟨U, rfl⟩ := typedArms_some_of_ne_nil hne harms'
    obtain ⟨hwant, -, ⟨hfit, hnodup⟩, hbodies⟩ :=
      (typedArms_iff_hasType harms width [] want U).1 ⟨arms', harms'⟩
    exact ⟨.caseOf (hwidth ▸ (hscrutinee.hasType hscrutinee').1) hne (fun v hv => (hfit v hv).1)
      hnodup hbodies, hwant⟩
  · intro ⟨hT, hwant⟩
    cases hT with | caseOf hswitch hne hfit hnodup hbodies
    obtain ⟨scrutinee', hscrutinee', hwidth⟩ :=
      hscrutinee.typed env.operand hswitch (admits_none _)
    obtain ⟨arms', harms'⟩ := (typedArms_iff_hasType harms _ [] want T).2
      ⟨hwant, fun _ => hne, ⟨fun v hv => ⟨hfit v hv, by simp⟩, hnodup⟩, hbodies⟩
    exact ⟨_, ⟨scrutinee', _, some T, arms', hscrutinee', hwidth, hne, harms', rfl⟩, rfl⟩

/-- A bundle binds its functions before the rules look at any of them. -/
private theorem recIn {s : Span} {fs : List (Func Span (Exp Span))} {body : Exp Span}
    (hfs : ∀ f ∈ fs, Decides f.body) (hbody : Decides body) : Decides (.recIn s fs body) := by
  intro env want T
  simp only [typed_recIn_eq_ok]
  -- the functions are declared for the checker as the rules bind them
  have hbundle : (env.declareAll (fs.map fun f => (f.name, f.ty))).types = env.types.bundle fs :=
    Env.types_declareAll ..
  constructor
  · intro h
    obtain ⟨_, ⟨fs', body', hfs', hbody', hwant, rfl⟩, rfl⟩ := h
    have hbodies := (typedFuncs_iff_hasType hfs).1 ⟨fs', hfs'⟩
    have huses := (hbody.hasType hbody').1
    rw [hbundle] at hbodies huses
    exact ⟨.recIn hbodies huses, hwant⟩
  · intro ⟨hT, hwant⟩
    cases hT with | recIn hbodies huses
    rw [← hbundle] at hbodies huses
    obtain ⟨fs', hfs'⟩ := (typedFuncs_iff_hasType hfs).2 hbodies
    obtain ⟨body', hbody', rfl⟩ := hbody.typed _ huses (admits_none _)
    exact ⟨_, ⟨fs', body', hfs', hbody', hwant, rfl⟩, rfl⟩

/-- A tuple asks only that each element has a type. -/
private theorem tuple {s : Span} {elems : List (Exp Span)} (ih : ∀ e ∈ elems, Decides e) :
    Decides (.tuple s elems) := by
  intro env want T
  simp only [typed_tuple_eq_ok]
  constructor
  · intro h
    obtain ⟨_, ⟨elems', helems', hwant, rfl⟩, rfl⟩ := h
    obtain ⟨hlen, hzip, -⟩ :=
      (typedAll_iff_hasType _ ih [] (elems'.map Exp.ty)).1 ⟨elems', helems', rfl⟩
    exact ⟨.tuple hlen hzip, hwant⟩
  · intro ⟨hT, hwant⟩
    cases hT with | tuple hlen hzip
    -- nothing is wanted of the elements
    obtain ⟨elems', helems', rfl⟩ := (typedAll_iff_hasType env.operand ih [] _).2
      ⟨hlen, hzip, by simp⟩
    exact ⟨_, ⟨elems', helems', hwant, rfl⟩, rfl⟩

/-- The first lane is looked at before the others, which have to be of its type. -/
private theorem vector {s : Span} {elems : List (Exp Span)} (ih : ∀ e ∈ elems, Decides e) :
    Decides (.vector s elems) := by
  intro env want T
  simp only [typed_vector_eq_ok]
  constructor
  · intro h
    obtain ⟨_, ⟨elem, elems', first, lane, rest, rfl, hfirst, hlane, hrest, hwant, rfl⟩, rfl⟩ := h
    obtain ⟨helem, helems⟩ := List.forall_mem_cons.1 ih
    have htypes := (typedAll_same_iff_hasType _ helems (.prim lane)).1 ⟨rest, hrest⟩
    exact ⟨.vector (List.cons_ne_nil _ _)
      (List.forall_mem_cons.2 ⟨hlane ▸ (helem.hasType hfirst).1, htypes⟩), hwant⟩
  · intro ⟨hT, hwant⟩
    cases hT with | vector helems htypes
    obtain ⟨elem, elems, rfl⟩ := List.exists_cons_of_ne_nil helems
    obtain ⟨helem, helems⟩ := List.forall_mem_cons.1 ih
    obtain ⟨helem', helems'⟩ := List.forall_mem_cons.1 htypes
    obtain ⟨first, hfirst, hlane⟩ := helem.typed env.operand helem' (admits_none _)
    obtain ⟨rest, hrest⟩ :=
      (typedAll_same_iff_hasType env.operand helems _).2 helems'
    exact ⟨_, ⟨elem, elems, first, _, rest, rfl, hfirst, hlane, hrest, hwant, rfl⟩, rfl⟩

/-- A `gep` asks for a pointer and for a path from it. -/
private theorem gep {s : Span} {base : Exp Span} {path : List (Step (Exp Span))}
    (hbase : Decides base)
    (hpath : ∀ e ∈ Exp.offsets path, Decides e) : Decides (.gep s base path) := by
  intro env want T
  simp only [typed_gep_eq_ok]
  constructor
  · intro h
    obtain ⟨_, ⟨base', ty, path', haddr, hwant, rfl⟩, rfl⟩ := h
    obtain ⟨target, hT, hleads⟩ := (addresses_iff_hasType hbase hpath ty).1 ⟨base', path', haddr⟩
    exact ⟨.gep hT hleads, hwant⟩
  · intro ⟨hT, hwant⟩
    cases hT with | gep hT hleads
    obtain ⟨base', path', haddr⟩ := (addresses_iff_hasType hbase hpath _).2 ⟨_, hT, hleads⟩
    exact ⟨_, ⟨base', _, path', haddr, hwant, rfl⟩, rfl⟩

/-- A load asks for a pointer and for a path from it. -/
private theorem load {s : Span} {base : Exp Span} {path : List (Step (Exp Span))}
    (hbase : Decides base)
    (hpath : ∀ e ∈ Exp.offsets path, Decides e) : Decides (.load s base path) := by
  intro env want T
  simp only [typed_load_eq_ok]
  constructor
  · intro h
    obtain ⟨_, ⟨base', ty, path', haddr, hwant, rfl⟩, rfl⟩ := h
    obtain ⟨target, hT, hleads⟩ := (addresses_iff_hasType hbase hpath ty).1 ⟨base', path', haddr⟩
    exact ⟨.load hT hleads, hwant⟩
  · intro ⟨hT, hwant⟩
    cases hT with | load hT hleads
    obtain ⟨base', path', haddr⟩ := (addresses_iff_hasType hbase hpath _).2 ⟨_, hT, hleads⟩
    exact ⟨_, ⟨base', _, path', haddr, hwant, rfl⟩, rfl⟩

/-- A store asks for a path to the type of its value, and has the type of its body. -/
private theorem store {s : Span} {dest value body : Exp Span} {path : List (Step (Exp Span))}
    (hdest : Decides dest) (hpath : ∀ e ∈ Exp.offsets path, Decides e) (hvalue : Decides value)
    (hbody : Decides body) : Decides (.store s dest path value body) := by
  intro env want T
  simp only [typed_store_eq_ok]
  constructor
  · intro h
    obtain ⟨_, ⟨dest', ty, path', value', body', haddr, hvalue', hbody', hwant, rfl⟩, rfl⟩ := h
    obtain ⟨target, hT, hleads⟩ := (addresses_iff_hasType hdest hpath ty).1 ⟨dest', path', haddr⟩
    obtain ⟨hwritten, hty⟩ := hvalue.hasType hvalue'
    exact ⟨.store hT hleads (admits_some.1 hty ▸ hwritten) (hbody.hasType hbody').1, hwant⟩
  · intro ⟨hT, hwant⟩
    cases hT with | store hT hleads hwritten hnext
    obtain ⟨dest', path', haddr⟩ := (addresses_iff_hasType hdest hpath _).2 ⟨_, hT, hleads⟩
    obtain ⟨value', hvalue', -⟩ := hvalue.typed env.operand hwritten (admits_some.2 rfl)
    obtain ⟨body', hbody', rfl⟩ := hbody.typed _ hnext (admits_none _)
    exact ⟨_, ⟨dest', _, path', value', body', haddr, hvalue', hbody', hwant, rfl⟩, rfl⟩

/-- An update asks for a path without an index, from what is no pointer. -/
private theorem update {s : Span} {base value : Exp Span} {path : List (Step (Exp Span))}
    (hbase : Decides base) (hpath : ∀ e ∈ Exp.offsets path, Decides e) (hvalue : Decides value) :
    Decides (.update s base path value) := by
  intro env want T
  simp only [typed_update_eq_ok]
  constructor
  · intro h
    obtain ⟨_, ⟨base', ty, path', value', hbase', hdirect, -, hpath', hvalue', hwant, rfl⟩,
      rfl⟩ := h
    have hleads := (typedPath_direct_iff_partPath _ hpath hdirect ty s.first).1 ⟨path', hpath'⟩
    obtain ⟨hwritten, hty⟩ := hvalue.hasType hvalue'
    exact ⟨.update (hbase.hasType hbase').1 hdirect hleads (admits_some.1 hty ▸ hwritten), hwant⟩
  · intro ⟨hT, hwant⟩
    cases hT with | update hT hdirect hleads hwritten
    obtain ⟨base', hbase', rfl⟩ := hbase.typed env.operand hT (admits_none _)
    obtain ⟨path', hpath'⟩ := (typedPath_direct_iff_partPath env.operand hpath hdirect _
      s.first).2 hleads
    obtain ⟨value', hvalue', -⟩ := hvalue.typed env.operand hwritten (admits_some.2 rfl)
    -- a path to a part steps over no pointer, so it is not refused before it is followed
    exact ⟨_, ⟨base', _, path', value', hbase', hdirect, hleads.not_index, hpath', hvalue', hwant,
      rfl⟩, rfl⟩

end Decides

/-! ## Expressions -/

/-- The checker decides the rules. The induction goes with all environments and all wanted types
    at once, since the parts are checked in other ones than the whole. -/
theorem typed_iff_hasType (e : Exp Span) : Decides e := by
  induction e with
  | var s id => exact .var
  | int s value width => exact .int
  | ascribe s e ty ih => exact .ascribe ih
  | coerce s e ty ih => exact .coerce ih
  | prim s op args ih => exact .prim ih
  | letIn s name ty value body hvalue hbody => exact .letIn hvalue hbody
  | call s callee args hcallee hargs => exact .call hcallee hargs
  | caseOf s scrutinee arms hscrutinee harms => exact .caseOf hscrutinee harms
  | recIn s fs body hfs hbody => exact .recIn hfs hbody
  | tuple s elems ih => exact .tuple ih
  | vector s elems ih => exact .vector ih
  | gep s base path hbase hpath => exact .gep hbase hpath
  | load s base path hbase hpath => exact .load hbase hpath
  | store s dest path value body hdest hpath hvalue hbody =>
    exact .store hdest hpath hvalue hbody
  | update s base path value hbase hpath hvalue => exact .update hbase hpath hvalue

end Typing

/-- An expression has at most one type. -/
theorem HasType.unique {Γ : TyContext} {e : Exp Span} {T T' : Ty} (h : HasType Γ e T)
    (h' : HasType Γ e T') : T = T' := by
  -- the rules are undirected, but the checker is a function that finds each type they give
  let env : Env := ⟨fun id => (Γ id).map fun ty => { ty := ty }, false⟩
  have henv : env.types = Γ := by
    funext id
    simp [env, Env.types, Function.comp_def]
  rw [← henv] at h h'
  obtain ⟨t, ht, rfl⟩ := (Typing.typed_iff_hasType e).typed _ h (Typing.admits_none _)
  obtain ⟨t', ht', rfl⟩ := (Typing.typed_iff_hasType e).typed _ h' (Typing.admits_none _)
  rw [ht] at ht'
  cases ht'
  rfl

/-- Computing a type succeeds exactly for the types of the rules. -/
theorem Typing.infer_iff_hasType (env : Env) (e : Exp Span) (T : Ty) :
    (∃ t, infer env e = .ok t ∧ t.ty = T) ↔ HasType env.types e T := by
  rw [infer, typed_iff_hasType e env none T]
  simp

end BranchIR
