import BranchIR.Typing.Check

/-!
# What a successful check consists of

The checker is a chain of steps each of which may refuse. For every step there is one lemma
that says exactly when it succeeds and with what, and for every form of expression one lemma
that takes a successful check of it apart. Proofs about checked programs go through these
lemmas and leave the chains closed.

## Key results

- `settle_eq_ok`, `require_eq_ok`, `checkPattern_eq_ok`, ...: when a single step succeeds
- `typed_prim_eq_ok`, `typed_caseOf_eq_ok`, ...: when the check of a form succeeds
-/

namespace BranchIR

/-- A chain of two steps succeeds when both steps do. -/
theorem bind_eq_ok {ε α β : Type} {x : Except ε α} {f : α → Except ε β} {b : β} :
    (x >>= f) = .ok b ↔ ∃ a, x = .ok a ∧ f a = .ok b := by
  cases x <;> simp [bind, Except.bind]

theorem pure_eq_ok {ε α : Type} {a b : α} : (pure a : Except ε α) = .ok b ↔ a = b := by
  simp [pure, Except.pure]

theorem toOption_eq_some {ε α : Type} {x : Except ε α} {a : α} :
    x.toOption = some a ↔ x = .ok a := by
  cases x <;> simp [Except.toOption]

namespace Typing

/-- A type is admitted where it is wanted, and everywhere if nothing is. -/
def Admits (want : Option Ty) (ty : Ty) : Prop := ∀ t ∈ want, t = ty

@[simp] theorem admits_none (ty : Ty) : Admits none ty := by simp [Admits]

@[simp] theorem admits_some {t ty : Ty} : Admits (some t) ty ↔ t = ty := by simp [Admits]

/-! ## Single steps -/

private theorem refuse_ne_ok {α : Type} {cause : Cause} {pos : Position} {a : α} :
    refuse cause pos ≠ .ok a := by
  simp [refuse]

private theorem refuseIf_eq_ok {condition : Bool} {cause : Cause} {pos : Position} {u : Unit} :
    refuseIf condition cause pos = .ok u ↔ condition = false := by
  cases condition <;> simp [refuseIf, refuse]

/-- What is required is there if the type has the part. -/
theorem require_eq_ok {α : Type} {expected : String} {part? : Ty → Option α} {e : Exp Checked}
    {a : α} : require expected part? e = .ok a ↔ part? e.ty = some a := by
  unfold require
  split <;> simp_all [refuse]

/-- An expression settles as it is if its type is admitted. -/
theorem settle_eq_ok {want : Option Ty} {e t : Exp Checked} :
    settle want e = .ok t ↔ Admits want e.ty ∧ t = e := by
  cases want with
  | none => simp [settle, eq_comm]
  | some u =>
    -- the type found is compared with the wanted one, `Admits` has them the other way round
    rw [settle, admits_some, eq_comm (a := u)]
    split <;> simp_all [refuse, eq_comm]

/-- A type counts as numeric if it is numeric, and is then given back. -/
private theorem numeric?_eq_some {ty t : Ty} :
    numeric? ty = some t ↔ ty.isNumeric = true ∧ t = ty := by
  by_cases h : ty.isNumeric = true
  · simp [numeric?, h, eq_comm (a := t)]
  · simp [numeric?, h]

/-- A field is reached in a tuple that has it. -/
private theorem fieldTy_eq_ok {n : Nat} {ty t : Ty} {owner : Position} :
    fieldTy n ty owner = .ok t ↔ ∃ fields, ty = .tuple fields ∧ fields[n]? = some t := by
  cases ty with
  | tuple fields => cases h : fields[n]? <;> simp [fieldTy, h, refuse]
  | _ => simp [fieldTy, refuse]

/-- An element is reached in an array that is long enough. -/
private theorem elementTy_eq_ok {n : Nat} {ty t : Ty} {owner : Position} :
    elementTy n ty owner = .ok t ↔ ∃ length, ty = .array length t ∧ n < length := by
  cases ty with
  | array length element =>
    by_cases h : n < length
    · simp only [elementTy, h, if_true, Except.ok.injEq, Ty.array.injEq]
      exact ⟨fun ht => ⟨length, ⟨rfl, ht⟩, h⟩, fun ⟨_, ⟨_, ht⟩, _⟩ => ht⟩
    · simp only [elementTy, h, if_false, refuse_ne_ok, Ty.array.injEq, false_iff]
      exact fun ⟨_, ⟨hlen, _⟩, hlt⟩ => h (hlen ▸ hlt)
  | _ => simp [elementTy, refuse]

/-- A lane is reached in a vector. -/
private theorem laneTy_eq_ok {ty t : Ty} {offset : Position} :
    laneTy ty offset = .ok t ↔ ∃ length lane, ty = .vector length lane ∧ t = .prim lane := by
  cases ty with
  | vector length lane =>
    simp only [laneTy, Except.ok.injEq, Ty.vector.injEq]
    exact ⟨fun ht => ⟨length, lane, ⟨rfl, rfl⟩, ht.symm⟩,
      fun ⟨_, _, ⟨_, hlane⟩, ht⟩ => by rw [ht, hlane]⟩
  | _ => simp [laneTy, refuse]

theorem pointee?_eq_some {ty t : Ty} : ty.pointee? = some t ↔ ty = .ptr t := by
  rcases ty with _ | (_ | _ | _) | _ | _ | _ | _ <;> simp [Ty.pointee?, Ty.ptr]

private theorem intWidth?_eq_some {ty : Ty} {width : Nat} :
    ty.intWidth? = some width ↔ ty = .int width := by
  rcases ty with _ | (_ | _ | _) | _ | _ | _ | _ <;> simp [Ty.intWidth?, Ty.int]

private theorem prim?_eq_some {ty : Ty} {p : PrimTy} : ty.prim? = some p ↔ ty = .prim p := by
  cases ty <;> simp [Ty.prim?]

private theorem signature?_eq_some {ty result : Ty} {params : List Ty} :
    ty.signature? = some (params, result) ↔ ty = .fn params result := by
  cases ty <;> simp [Ty.signature?]

/-- An index reaches what a pointer points at, in front of a path only. -/
private theorem indexTy_eq_ok {first : Bool} {ty t : Ty} {offset : Position} :
    indexTy first ty offset = .ok t ↔ first = true ∧ ty = .ptr t := by
  unfold indexTy
  split
  · split <;> simp_all [refuse, ← pointee?_eq_some]
  · simp_all [refuse]

/-- A pattern passes as the default, or as a new literal that fits. -/
theorem checkPattern_eq_ok {width : Nat} {seen seen' : List Int} {pattern : Pattern}
    {body : Position} :
    checkPattern width seen pattern body = .ok seen' ↔
      (pattern = .default ∧ seen' = seen) ∨
      ∃ value, pattern = .literal value ∧ fits value width = true ∧ value ∉ seen ∧
        seen' = value :: seen := by
  cases pattern with
  | default => simp [checkPattern, eq_comm (a := seen')]
  | literal value =>
    cases hfit : fits value width with
    | false => simp [checkPattern, hfit, refuse]
    | true =>
      by_cases hseen : value ∈ seen
      · simp [checkPattern, hfit, hseen, refuse]
      · simp [checkPattern, hfit, hseen, eq_comm (a := seen')]

/-- No index is found exactly if there is none. -/
private theorem firstIndex?_eq_none {ε : Type} {path : List (Step ε)} :
    firstIndex? path = none ↔ ∀ e, Step.index e ∉ path := by
  induction path with
  | nil => simp [firstIndex?]
  | cons step path ih =>
    cases step with
    -- the search ends here, so the step itself is the one that stands in the path
    | index e => simpa [firstIndex?] using ⟨e, fun h => absurd rfl h⟩
    | _ => simp [firstIndex?, ih]

private theorem refuseIndex_eq_ok {path : List (Step (Exp Span))} {u : Unit} :
    refuseIndex path = .ok u ↔ ∀ e, Step.index e ∉ path := by
  rw [← firstIndex?_eq_none, refuseIndex]
  split <;> simp_all [refuse]

attribute [local simp] typed typedAll typedArms typedFuncs typedPath

/-! ## Forms -/

section Forms

variable {env : Env} {want : Option Ty} {s : Span} {t : Exp Checked}

/-- A variable has the type it is bound with. -/
theorem typed_var_eq_ok {id : VarId} :
    typed env want (.var s id) = .ok t ↔
      ∃ binding, env.find? id = some binding ∧ Admits want binding.ty ∧
        t = .var (note env s binding.ty) id := by
  rw [typed]
  split <;> simp_all [settle_eq_ok, refuse, Exp.ty, Exp.ann, note]

/-- A literal has the type of its width. -/
theorem typed_int_eq_ok {value : Int} {width : Nat} :
    typed env want (.int s value width) = .ok t ↔
      Admits want (.int width) ∧ t = .int (note env s (.int width)) value width := by
  rw [typed, settle_eq_ok]
  rfl

/-- An ascription wants its type of its expression, which stays where the ascription is. -/
theorem typed_ascribe_eq_ok {e : Exp Span} {ty : Ty} :
    typed env want (.ascribe s e ty) = .ok t ↔
      ∃ inner, typed env (some ty) e = .ok inner ∧ Admits want ty ∧
        t = .ascribe (note env s ty) inner ty := by
  simp only [typed, bind_eq_ok, settle_eq_ok]
  rfl

/-- A coercion has its type, whatever its expression has. -/
theorem typed_coerce_eq_ok {e : Exp Span} {ty : Ty} :
    typed env want (.coerce s e ty) = .ok t ↔
      ∃ inner, typed env.operand none e = .ok inner ∧ Admits want ty ∧
        t = .coerce (note env s ty) inner ty := by
  simp only [typed, bind_eq_ok, settle_eq_ok]
  rfl

/-- An operation has the type of its first operand, which is numeric, and the other operands have it
    as well. -/
theorem typed_prim_eq_ok {op : PrimOp} {args : List (Exp Span)} :
    typed env want (.prim s op args) = .ok t ↔
      ∃ arg args' first rest, args = arg :: args' ∧
        typed env.operand none arg = .ok first ∧ first.ty.isNumeric = true ∧
        typedAll env.operand (args'.map fun _ => some first.ty) args' = .ok rest ∧
        Admits want first.ty ∧ t = .prim (note env s first.ty) op (first :: rest) := by
  cases args with
  | nil => simp [typed, refuse]
  | cons arg args =>
    simp only [typed, bind_eq_ok, settle_eq_ok, require_eq_ok, numeric?_eq_some]
    constructor
    · intro h
      obtain ⟨first, hfirst, ty, ⟨hnum, rfl⟩, rest, hrest, hwant, rfl⟩ := h
      exact ⟨arg, args, first, rest, rfl, hfirst, hnum, hrest, hwant, rfl⟩
    · intro h
      obtain ⟨arg', args', first, rest, hargs, hfirst, hnum, hrest, hwant, rfl⟩ := h
      -- a list has only one head and one tail
      obtain ⟨rfl, rfl⟩ := List.cons.inj hargs
      exact ⟨first, hfirst, _, ⟨hnum, rfl⟩, rest, hrest, hwant, rfl⟩

/-- A let has the type of its body, where its name has the type that its value has. -/
theorem typed_letIn_eq_ok {name : VarId} {ty : Ty} {value body : Exp Span} :
    typed env want (.letIn s name ty value body) = .ok t ↔
      ∃ value' body', typed env.operand (some ty) value = .ok value' ∧
        typed (env.declare name ty) none body = .ok body' ∧ Admits want body'.ty ∧
        t = .letIn (note env s body'.ty) name ty value' body' := by
  simp only [typed, bind_eq_ok, settle_eq_ok]
  constructor
  · intro h
    obtain ⟨value', hvalue, body', hbody, hwant, rfl⟩ := h
    exact ⟨value', body', hvalue, hbody, hwant, rfl⟩
  · intro h
    obtain ⟨value', body', hvalue, hbody, hwant, rfl⟩ := h
    exact ⟨value', hvalue, body', hbody, hwant, rfl⟩

/-- A call has the result of its callee, which has as many parameters as there are arguments. -/
theorem typed_call_eq_ok {callee : Exp Span} {args : List (Exp Span)} :
    typed env want (.call s callee args) = .ok t ↔
      ∃ callee' params result args', typed env.operand none callee = .ok callee' ∧
        callee'.ty = .fn params result ∧ params.length = args.length ∧
        typedAll env.operand (params.map some) args = .ok args' ∧ Admits want result ∧
        t = .call (note env s result) callee' args' := by
  simp only [typed, bind_eq_ok, settle_eq_ok, require_eq_ok, refuseIf_eq_ok]
  constructor
  · intro h
    obtain ⟨callee', hcallee, ⟨params, result⟩, hsig, _, hlen, args', hargs, hwant, rfl⟩ := h
    exact ⟨callee', params, result, args', hcallee, signature?_eq_some.1 hsig, by simpa using hlen,
      hargs, hwant, rfl⟩
  · intro h
    obtain ⟨callee', params, result, args', hcallee, hsig, hlen, hargs, hwant, rfl⟩ := h
    exact ⟨callee', hcallee, (params, result), signature?_eq_some.2 hsig, (), by simpa using hlen,
      args', hargs, hwant, rfl⟩

/-- A case has the type of its arms, of which there is one, and switches on an integer. -/
theorem typed_caseOf_eq_ok {scrutinee : Exp Span} {arms : List (Arm (Exp Span))} :
    typed env want (.caseOf s scrutinee arms) = .ok t ↔
      ∃ scrutinee' width ty arms', typed env.operand none scrutinee = .ok scrutinee' ∧
        scrutinee'.ty = .int width ∧ arms ≠ [] ∧
        typedArms env width [] want arms = .ok (ty, arms') ∧
        t = .caseOf (note env s (ty.getD .void)) scrutinee' arms' := by
  simp only [typed, bind_eq_ok, require_eq_ok, intWidth?_eq_some, refuseIf_eq_ok, pure_eq_ok]
  constructor
  · intro h
    obtain ⟨scrutinee', hscrutinee, width, hwidth, _, harms, ⟨ty, arms'⟩, harms', rfl⟩ := h
    exact ⟨scrutinee', width, ty, arms', hscrutinee, hwidth, by simpa using harms, harms', rfl⟩
  · intro h
    obtain ⟨scrutinee', width, ty, arms', hscrutinee, hwidth, harms, harms', rfl⟩ := h
    exact ⟨scrutinee', hscrutinee, width, hwidth, (), by simpa using harms, (ty, arms'), harms',
      rfl⟩

/-- A bundle has the type of its body, where its functions are known, as they are in each other. -/
theorem typed_recIn_eq_ok {fs : List (Func Span (Exp Span))} {body : Exp Span} :
    typed env want (.recIn s fs body) = .ok t ↔
      ∃ fs' body', typedFuncs (env.declareAll (fs.map fun f => (f.name, f.ty))) fs = .ok fs' ∧
        typed (env.declareAll (fs.map fun f => (f.name, f.ty))) none body = .ok body' ∧
        Admits want body'.ty ∧ t = .recIn (note env s body'.ty) fs' body' := by
  simp only [typed, bind_eq_ok, settle_eq_ok]
  constructor
  · intro h
    obtain ⟨fs', hfs, body', hbody, hwant, rfl⟩ := h
    exact ⟨fs', body', hfs, hbody, hwant, rfl⟩
  · intro h
    obtain ⟨fs', body', hfs, hbody, hwant, rfl⟩ := h
    exact ⟨fs', hfs, body', hbody, hwant, rfl⟩

/-- A tuple has the types of its elements, of which nothing is wanted. -/
theorem typed_tuple_eq_ok {elems : List (Exp Span)} :
    typed env want (.tuple s elems) = .ok t ↔
      ∃ elems', typedAll env.operand [] elems = .ok elems' ∧
        Admits want (.tuple (elems'.map Exp.ty)) ∧
        t = .tuple (note env s (.tuple (elems'.map Exp.ty))) elems' := by
  simp only [typed, bind_eq_ok, settle_eq_ok]
  rfl

/-- A vector has lanes of the type of its first element, and the others have it as well. -/
theorem typed_vector_eq_ok {elems : List (Exp Span)} :
    typed env want (.vector s elems) = .ok t ↔
      ∃ elem elems' first lane rest, elems = elem :: elems' ∧
        typed env.operand none elem = .ok first ∧ first.ty = .prim lane ∧
        typedAll env.operand (elems'.map fun _ => some (.prim lane)) elems' = .ok rest ∧
        Admits want (.vector elems.length lane) ∧
        t = .vector (note env s (.vector elems.length lane)) (first :: rest) := by
  cases elems with
  | nil => simp [typed, refuse]
  | cons elem elems =>
    simp only [typed, bind_eq_ok, settle_eq_ok, require_eq_ok, prim?_eq_some]
    constructor
    · intro h
      obtain ⟨first, hfirst, lane, hlane, rest, hrest, hwant, rfl⟩ := h
      exact ⟨elem, elems, first, lane, rest, rfl, hfirst, hlane, hrest, hwant, rfl⟩
    · intro h
      obtain ⟨elem', elems', first, lane, rest, helems, hfirst, hlane, hrest, hwant, rfl⟩ := h
      obtain ⟨rfl, rfl⟩ := List.cons.inj helems
      exact ⟨first, hfirst, lane, hlane, rest, hrest, hwant, rfl⟩

/-- The base of a path is a pointer, and the path leads on from it. -/
def Addresses (env : Env) (s : Span) (base : Exp Span) (path : List (Step (Exp Span)))
    (base' : Exp Checked) (ty : Ty) (path' : List (Step (Exp Checked))) : Prop :=
  ∃ target, typed env.operand none base = .ok base' ∧ base'.ty = .ptr target ∧
    typedPath env.operand true (pathStart base'.ty target path) s.first path = .ok (ty, path')

/-- A `gep` points at what its path leads to. -/
theorem typed_gep_eq_ok {base : Exp Span} {path : List (Step (Exp Span))} :
    typed env want (.gep s base path) = .ok t ↔
      ∃ base' ty path', Addresses env s base path base' ty path' ∧ Admits want (.ptr ty) ∧
        t = .gep (note env s (.ptr ty)) base' path' := by
  simp only [typed, bind_eq_ok, settle_eq_ok, require_eq_ok, pointee?_eq_some, Addresses]
  constructor
  · intro h
    obtain ⟨base', hbase, target, htarget, ⟨ty, path'⟩, hpath, hwant, rfl⟩ := h
    exact ⟨base', ty, path', ⟨target, hbase, htarget, hpath⟩, hwant, rfl⟩
  · intro h
    obtain ⟨base', ty, path', ⟨target, hbase, htarget, hpath⟩, hwant, rfl⟩ := h
    exact ⟨base', hbase, target, htarget, (ty, path'), hpath, hwant, rfl⟩

/-- A load has the type that its path leads to. -/
theorem typed_load_eq_ok {base : Exp Span} {path : List (Step (Exp Span))} :
    typed env want (.load s base path) = .ok t ↔
      ∃ base' ty path', Addresses env s base path base' ty path' ∧ Admits want ty ∧
        t = .load (note env s ty) base' path' := by
  simp only [typed, bind_eq_ok, settle_eq_ok, require_eq_ok, pointee?_eq_some, Addresses]
  constructor
  · intro h
    obtain ⟨base', hbase, target, htarget, ⟨ty, path'⟩, hpath, hwant, rfl⟩ := h
    exact ⟨base', ty, path', ⟨target, hbase, htarget, hpath⟩, hwant, rfl⟩
  · intro h
    obtain ⟨base', ty, path', ⟨target, hbase, htarget, hpath⟩, hwant, rfl⟩ := h
    exact ⟨base', hbase, target, htarget, (ty, path'), hpath, hwant, rfl⟩

/-- A store has the type of its body; its value has the type that the path leads to. -/
theorem typed_store_eq_ok {dest value body : Exp Span} {path : List (Step (Exp Span))} :
    typed env want (.store s dest path value body) = .ok t ↔
      ∃ dest' ty path' value' body', Addresses env s dest path dest' ty path' ∧
        typed env.operand (some ty) value = .ok value' ∧ typed env none body = .ok body' ∧
        Admits want body'.ty ∧ t = .store (note env s body'.ty) dest' path' value' body' := by
  simp only [typed, bind_eq_ok, settle_eq_ok, require_eq_ok, pointee?_eq_some, Addresses]
  constructor
  · intro h
    obtain ⟨dest', hdest, target, htarget, ⟨ty, path'⟩, hpath, value', hvalue, body', hbody,
      hwant, rfl⟩ := h
    exact ⟨dest', ty, path', value', body', ⟨target, hdest, htarget, hpath⟩, hvalue, hbody,
      hwant, rfl⟩
  · intro h
    obtain ⟨dest', ty, path', value', body', ⟨target, hdest, htarget, hpath⟩, hvalue, hbody,
      hwant, rfl⟩ := h
    exact ⟨dest', hdest, target, htarget, (ty, path'), hpath, value', hvalue, body', hbody,
      hwant, rfl⟩

/-- An update has the type of its base, which is no pointer; no step of its path is an index. -/
theorem typed_update_eq_ok {base value : Exp Span} {path : List (Step (Exp Span))} :
    typed env want (.update s base path value) = .ok t ↔
      ∃ base' ty path' value', typed env.operand none base = .ok base' ∧
        base'.ty.pointee? = none ∧ (∀ e, Step.index e ∉ path) ∧
        typedPath env.operand true base'.ty s.first path = .ok (ty, path') ∧
        typed env.operand (some ty) value = .ok value' ∧ Admits want base'.ty ∧
        t = .update (note env s base'.ty) base' path' value' := by
  simp only [typed, bind_eq_ok, settle_eq_ok, refuseIf_eq_ok, refuseIndex_eq_ok]
  constructor
  · intro h
    obtain ⟨base', hbase, _, hptr, _, hindex, ⟨ty, path'⟩, hpath, value', hvalue, hwant, rfl⟩ := h
    exact ⟨base', ty, path', value', hbase, by simpa using hptr, hindex, hpath, hvalue, hwant, rfl⟩
  · intro h
    obtain ⟨base', ty, path', value', hbase, hptr, hindex, hpath, hvalue, hwant, rfl⟩ := h
    exact ⟨base', hbase, (), by simp [hptr], (), hindex, (ty, path'), hpath, value', hvalue, hwant,
      rfl⟩

end Forms

/-! ## Lists, arms, functions and paths -/

section Containers

variable {env : Env}

/-- A list is checked from its front, with one wanted type for each item. -/
theorem typedAll_cons_eq_ok {wants : List (Option Ty)} {e : Exp Span} {es : List (Exp Span)}
    {ts : List (Exp Checked)} :
    typedAll env wants (e :: es) = .ok ts ↔
      ∃ first rest, typed env wants.head?.join e = .ok first ∧
        typedAll env wants.tail es = .ok rest ∧ ts = first :: rest := by
  simp only [typedAll, bind_eq_ok, pure_eq_ok]
  constructor
  · intro h
    obtain ⟨first, hfirst, rest, hrest, rfl⟩ := h
    exact ⟨first, rest, hfirst, hrest, rfl⟩
  · intro h
    obtain ⟨first, rest, hfirst, hrest, rfl⟩ := h
    exact ⟨first, hfirst, rest, hrest, rfl⟩

/-- An arm wants of the next ones what was wanted of it, or the type it has itself. -/
theorem typedArms_cons_eq_ok {width : Nat} {seen : List Int} {want ty : Option Ty}
    {arm : Arm (Exp Span)} {arms : List (Arm (Exp Span))} {arms' : List (Arm (Exp Checked))} :
    typedArms env width seen want (arm :: arms) = .ok (ty, arms') ↔
      ∃ seen' first rest, checkPattern width seen arm.pattern arm.body.start = .ok seen' ∧
        typed env want arm.body = .ok first ∧
        typedArms env width seen' (some (want.getD first.ty)) arms = .ok (ty, rest) ∧
        arms' = ⟨arm.pattern, first⟩ :: rest := by
  simp only [typedArms, bind_eq_ok, pure_eq_ok, Prod.exists, Prod.mk.injEq]
  constructor
  · intro h
    obtain ⟨seen', hseen, first, hfirst, _, rest, hrest, rfl, rfl⟩ := h
    exact ⟨seen', first, rest, hseen, hfirst, hrest, rfl⟩
  · intro h
    obtain ⟨seen', first, rest, hseen, hfirst, hrest, rfl⟩ := h
    exact ⟨seen', hseen, first, hfirst, ty, rest, hrest, rfl, rfl⟩

/-- The environment of a function's body. -/
def bodyEnv (bundle : Env) (params : List (Param Span)) : Env :=
  (bundle.declareAll (params.map fun p => (p.name, p.ty))).withTail true

/-- A body is checked in an environment of its own and has the declared result. -/
theorem typedFuncs_cons_eq_ok {f : Func Span (Exp Span)} {fs : List (Func Span (Exp Span))}
    {fs' : List (Func Checked (Exp Checked))} :
    typedFuncs env (f :: fs) = .ok fs' ↔
      ∃ body rest, typed (bodyEnv env f.params) (some f.result) f.body = .ok body ∧
        typedFuncs env fs = .ok rest ∧
        fs' = ⟨⟨f.ann, f.ty, false⟩, f.name, f.params.map typedParam, f.result, body⟩ :: rest := by
  simp only [typedFuncs, bind_eq_ok, pure_eq_ok]
  constructor
  · intro h
    obtain ⟨body, hbody, rest, hrest, rfl⟩ := h
    exact ⟨body, rest, hbody, hrest, rfl⟩
  · intro h
    obtain ⟨body, rest, hbody, hrest, rfl⟩ := h
    exact ⟨body, hbody, rest, hrest, rfl⟩

variable {first : Bool} {ty last : Ty} {owner : Position} {path : List (Step (Exp Span))}
  {path' : List (Step (Exp Checked))}

theorem typedPath_nil_eq_ok :
    typedPath env first ty owner [] = .ok (last, path') ↔ last = ty ∧ path' = [] := by
  simp [typedPath, eq_comm]

/-- A path goes on from the field of a tuple. -/
theorem typedPath_field_eq_ok {n : Nat} :
    typedPath env first ty owner (.field n :: path) = .ok (last, path') ↔
      ∃ fields next rest, ty = .tuple fields ∧ fields[n]? = some next ∧
        typedPath env false next owner path = .ok (last, rest) ∧ path' = .field n :: rest := by
  simp only [typedPath, bind_eq_ok, pure_eq_ok, fieldTy_eq_ok, Prod.exists, Prod.mk.injEq]
  constructor
  · intro h
    obtain ⟨next, ⟨fields, hty, hnext⟩, _, rest, hrest, rfl, rfl⟩ := h
    exact ⟨fields, next, rest, hty, hnext, hrest, rfl⟩
  · intro h
    obtain ⟨fields, next, rest, hty, hnext, hrest, rfl⟩ := h
    exact ⟨next, ⟨fields, hty, hnext⟩, last, rest, hrest, rfl, rfl⟩

/-- A path goes on from an element of an array. -/
theorem typedPath_element_eq_ok {n : Nat} :
    typedPath env first ty owner (.element n :: path) = .ok (last, path') ↔
      ∃ length next rest, ty = .array length next ∧ n < length ∧
        typedPath env false next owner path = .ok (last, rest) ∧ path' = .element n :: rest := by
  simp only [typedPath, bind_eq_ok, pure_eq_ok, elementTy_eq_ok, Prod.exists, Prod.mk.injEq]
  constructor
  · intro h
    obtain ⟨next, ⟨length, hty, hlt⟩, _, rest, hrest, rfl, rfl⟩ := h
    exact ⟨length, next, rest, hty, hlt, hrest, rfl⟩
  · intro h
    obtain ⟨length, next, rest, hty, hlt, hrest, rfl⟩ := h
    exact ⟨next, ⟨length, hty, hlt⟩, last, rest, hrest, rfl, rfl⟩

/-- A path goes on from a lane of a vector, whose offset is an integer. -/
theorem typedPath_lane_eq_ok {e : Exp Span} :
    typedPath env first ty owner (.lane e :: path) = .ok (last, path') ↔
      ∃ length lane offset width rest, ty = .vector length lane ∧
        typed env none e = .ok offset ∧ offset.ty = .int width ∧
        typedPath env false (.prim lane) owner path = .ok (last, rest) ∧
        path' = .lane offset :: rest := by
  simp only [typedPath, bind_eq_ok, pure_eq_ok, laneTy_eq_ok, require_eq_ok, intWidth?_eq_some,
    Prod.exists, Prod.mk.injEq]
  constructor
  · intro h
    obtain ⟨_, ⟨length, lane, hty, rfl⟩, offset, hoffset, width, hwidth, _, rest, hrest, rfl,
      rfl⟩ := h
    exact ⟨length, lane, offset, width, rest, hty, hoffset, hwidth, hrest, rfl⟩
  · intro h
    obtain ⟨length, lane, offset, width, rest, hty, hoffset, hwidth, hrest, rfl⟩ := h
    exact ⟨_, ⟨length, lane, hty, rfl⟩, offset, hoffset, width, hwidth, last, rest, hrest, rfl, rfl⟩

/-- A path goes on from what a pointer points at, whose offset is an integer. -/
theorem typedPath_index_eq_ok {e : Exp Span} :
    typedPath env first ty owner (.index e :: path) = .ok (last, path') ↔
      ∃ target offset width rest, first = true ∧ ty = .ptr target ∧
        typed env none e = .ok offset ∧ offset.ty = .int width ∧
        typedPath env false target owner path = .ok (last, rest) ∧
        path' = .index offset :: rest := by
  simp only [typedPath, bind_eq_ok, pure_eq_ok, indexTy_eq_ok, require_eq_ok, intWidth?_eq_some,
    Prod.exists, Prod.mk.injEq]
  constructor
  · intro h
    obtain ⟨target, ⟨hfirst, hty⟩, offset, hoffset, width, hwidth, _, rest, hrest, rfl, rfl⟩ := h
    exact ⟨target, offset, width, rest, hfirst, hty, hoffset, hwidth, hrest, rfl⟩
  · intro h
    obtain ⟨target, offset, width, rest, hfirst, hty, hoffset, hwidth, hrest, rfl⟩ := h
    exact ⟨target, ⟨hfirst, hty⟩, offset, hoffset, width, hwidth, last, rest, hrest, rfl, rfl⟩

end Containers

end Typing

end BranchIR
