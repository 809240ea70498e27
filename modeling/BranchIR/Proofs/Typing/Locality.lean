import BranchIR.Proofs.Capture.ScopedFree

/-!
# What checking reads of its environment

Checking an expression looks up the identities that are free in it and no others, and the tail flag
of the environment is copied into annotations and never compared. So environments with the same
bindings of the free identities give the same result, down to the first error, but for the tail
flags in the checked tree where theirs differ.

## Key results

- `typed_congr`: environments that agree on what is free
- `typed_withTail`: environments that differ in their tail flags
- `typing_local`: both together, for computing types and for checking against them
-/

namespace BranchIR

open Exp

variable {env env' : Env}

/-! ## Environments that agree -/

/-- The environments have the same flag, and the same bindings of what is free in the expression. -/
structure AgreeOn (env env' : Env) (e : Exp Span) : Prop where
  tail : env.tail = env'.tail
  free : ∀ x, Free x e → env.find? x = env'.find? x

/-- Identities that get a new binding need not have had the same one before. -/
private theorem Env.find?_declareAll_congr {x : VarId} {bindings : List (VarId × Ty)}
    (h : x ∉ bindings.map Prod.fst → env.find? x = env'.find? x) :
    (env.declareAll bindings).find? x = (env'.declareAll bindings).find? x := by
  induction bindings generalizing env env' with
  | nil => exact h List.not_mem_nil
  | cons b bs ih =>
    refine @ih (env.declare b.1 b.2) (env'.declare b.1 b.2) fun hbs => ?_
    by_cases hb : x = b.1
    · rw [hb, find?_declare_self, find?_declare_self]
    · rw [find?_declare_of_ne _ _ hb, find?_declare_of_ne _ _ hb]
      exact h (by simp [hb, hbs])

namespace AgreeOn

variable {e p : Exp Span} {role : Role Span}

/-- What is free in a part and not bound for it is free in the whole. -/
private theorem part (h : AgreeOn env env' e) (hp : (role, p) ∈ e.parts)
    (bindings : List (VarId × Ty)) (hbinds : ∀ x ∈ e.binds role, x ∈ bindings.map Prod.fst) :
    AgreeOn (env.declareAll bindings) (env'.declareAll bindings) p where
  tail := by rw [Env.tail_declareAll, Env.tail_declareAll, h.tail]
  free x hx := Env.find?_declareAll_congr fun hnew =>
    h.free x (.part hp (fun hbound => hnew (hbinds x hbound)) hx)

private theorem withTail (h : AgreeOn env env' e) (tail : Bool) :
    AgreeOn (env.withTail tail) (env'.withTail tail) e :=
  ⟨rfl, h.free⟩

end AgreeOn

/-! ## Results with the same image -/

section Image

variable {ε α β γ δ : Type}

/-- Chains have the same image when their first steps do and the rest does on such results. -/
private theorem map_bind_congr {x y : Except ε α} {f g : α → Except ε β} {F : α → γ} {G : β → δ}
    (h : x.map F = y.map F) (hrest : ∀ a b, F a = F b → (f a).map G = (g b).map G) :
    (x >>= f).map G = (y >>= g).map G := by
  cases x with
  | error e =>
    cases y with
    | error e' => exact congrArg Except.error (Except.error.inj h)
    | ok b => cases h
  | ok a =>
    cases y with
    | error e' => cases h
    | ok b => exact hrest a b (Except.ok.inj h)

/-- Two chains agree under a map if their second steps do on what the first gives. -/
private theorem map_bind_same (x : Except ε α) {f g : α → Except ε β} {G : β → δ}
    (h : ∀ a, (f a).map G = (g a).map G) : (x >>= f).map G = (x >>= g).map G := by
  cases x with
  | error e => rfl
  | ok a => exact h a

end Image

/-- What a checked tree says of a node but for its tail flag. -/
def Checked.untailed (a : Checked) : Span × Ty := (a.span, a.ty)

/-- A checked tree but for its tail flags. -/
abbrev Exp.untailed (t : Exp Checked) : Exp (Span × Ty) := t.mapAnn Checked.untailed

namespace Typing

/-- The annotation of a node depends on the flag of the environment alone. -/
private theorem note_congr (h : env.tail = env'.tail) (s : Span) (ty : Ty) :
    note env s ty = note env' s ty := by
  rw [note, note, h]

/-! ## The same free bindings -/

/-- The expression is checked alike in environments that agree on what is free in it. -/
def Local (e : Exp Span) : Prop :=
  ∀ env env' want, AgreeOn env env' e → typed env want e = typed env' want e

namespace Local

variable {e p : Exp Span}

/-- A part for which nothing is bound. -/
private theorem same (hlocal : Local p) (h : AgreeOn env env' e) (role : Role Span)
    (hp : (role, p) ∈ e.parts) (hbinds : e.binds role = []) (want : Option Ty) :
    typed env want p = typed env' want p :=
  hlocal env env' want (h.part hp [] (by simp [hbinds]))

/-- A part for which nothing is bound, and whose value is still used. -/
private theorem operand (hlocal : Local p) (h : AgreeOn env env' e) (role : Role Span)
    (hp : (role, p) ∈ e.parts) (hbinds : e.binds role = []) (want : Option Ty) :
    typed env.operand want p = typed env'.operand want p :=
  hlocal _ _ want ((h.part hp [] (by simp [hbinds])).withTail false)

end Local

section Containers

/-- Items that are checked alike in two environments make a list that is. -/
private theorem typedAll_congr {es : List (Exp Span)}
    (h : ∀ e ∈ es, ∀ want, typed env want e = typed env' want e) (wants : List (Option Ty)) :
    typedAll env wants es = typedAll env' wants es := by
  induction es generalizing wants with
  | nil => rfl
  | cons e es ih =>
    obtain ⟨he, hes⟩ := List.forall_mem_cons.1 h
    simp only [typedAll, he, ih hes]

/-- Bodies that are checked alike in two environments make arms that are. -/
private theorem typedArms_congr {arms : List (Arm (Exp Span))}
    (h : ∀ arm ∈ arms, ∀ want, typed env want arm.body = typed env' want arm.body) (width : Nat)
    (seen : List Int) (want : Option Ty) :
    typedArms env width seen want arms = typedArms env' width seen want arms := by
  induction arms generalizing seen want with
  | nil => rfl
  | cons arm arms ih =>
    obtain ⟨harm, harms⟩ := List.forall_mem_cons.1 h
    simp only [typedArms, harm, ih harms]

/-- Bodies that are checked alike where their parameters are known make functions that are checked
    alike. -/
private theorem typedFuncs_congr {fs : List (Func Span (Exp Span))}
    (h : ∀ f ∈ fs, typed (bodyEnv env f.params) (some f.result) f.body =
      typed (bodyEnv env' f.params) (some f.result) f.body) :
    typedFuncs env fs = typedFuncs env' fs := by
  induction fs with
  | nil => rfl
  | cons f fs ih =>
    obtain ⟨hf, hfs⟩ := List.forall_mem_cons.1 h
    simp only [bodyEnv] at hf
    simp only [typedFuncs, hf, ih hfs]

/-- Offsets that are checked alike in two environments make a path that is. -/
private theorem typedPath_congr {path : List (Step (Exp Span))}
    (h : ∀ e ∈ offsets path, ∀ want, typed env want e = typed env' want e) (first : Bool) (ty : Ty)
    (owner : Position) :
    typedPath env first ty owner path = typedPath env' first ty owner path := by
  induction path generalizing first ty with
  | nil => rfl
  | cons step path ih =>
    rw [offsets_cons, List.forall_mem_append] at h
    obtain ⟨hstep, hpath⟩ := h
    cases step with
    | field n | element n => simp only [typedPath, ih hpath]
    | lane e | index e => simp only [typedPath, hstep e (by simp), ih hpath]

end Containers

/-! ## Single forms

What is free in a part is free in the whole, or the whole binds it. So the environments of a part
agree on it: they hold the same types for what is bound, and agreed on all else before. -/

namespace Local

section Forms

variable {s : Span}

private theorem var (id : VarId) : Local (.var s id) := by
  intro env env' want h
  simp only [typed, h.free id .var, note_congr h.tail]

private theorem int (value : Int) (width : Nat) : Local (.int s value width) := by
  intro env env' want h
  simp only [typed, note_congr h.tail]

/-- An ascription leaves its expression where it stands, so the flag is the same, too. -/
private theorem ascribe {inner : Exp Span} (ih : Local inner) (ty : Ty) :
    Local (.ascribe s inner ty) := by
  intro env env' want h
  have hinner := ih.same h .same (by simp [parts]) rfl
  simp only [typed, hinner, note_congr h.tail]

/-- The expression of a coercion is an operand, so it does not matter where the whole stands. -/
private theorem coerce {inner : Exp Span} (ih : Local inner) (ty : Ty) :
    Local (.coerce s inner ty) := by
  intro env env' want h
  have hinner := ih.operand h .operand (by simp [parts]) rfl
  simp only [typed, hinner, note_congr h.tail]

/-- The operands of an operation are checked alike. -/
private theorem prim (op : PrimOp) {args : List (Exp Span)} (ih : ∀ e ∈ args, Local e) :
    Local (.prim s op args) := by
  intro env env' want h
  have hargs e (he : e ∈ args) := (ih e he).operand h .operand (by simp [parts, he]) rfl
  cases args with
  | nil => simp only [typed]
  | cons arg args =>
    -- the first operand decides what is wanted of the others
    obtain ⟨harg, hrest⟩ := List.forall_mem_cons.1 hargs
    simp only [typed, harg, typedAll_congr hrest, note_congr h.tail]

/-- Both environments hold the declared type of the name that a let binds. -/
private theorem letIn {name : VarId} {ty : Ty} {value body : Exp Span} (ihvalue : Local value)
    (ihbody : Local body) : Local (.letIn s name ty value body) := by
  intro env env' want h
  have hvalue := ihvalue.operand h .operand (by simp [parts]) rfl
  have hunder : (.under, body) ∈ (Exp.letIn s name ty value body).parts := by simp [parts]
  have hbody : typed (env.declare name ty) none body = typed (env'.declare name ty) none body :=
    ihbody _ _ _ (h.part hunder [(name, ty)] (by simp [binds, own, funcs]))
  simp only [typed, hvalue, hbody, note_congr h.tail]

/-- The callee and the arguments of a call are checked alike. -/
private theorem call {callee : Exp Span} {args : List (Exp Span)} (ihcallee : Local callee)
    (ihargs : ∀ e ∈ args, Local e) : Local (.call s callee args) := by
  intro env env' want h
  have hcallee := ihcallee.operand h .callee (by simp [parts]) rfl
  have hargs e (he : e ∈ args) := (ihargs e he).operand h .operand (by simp [parts, he]) rfl
  simp only [typed, hcallee, typedAll_congr hargs, note_congr h.tail]

/-- The scrutinee of a case is an operand, while the arms stand where the case does. -/
private theorem caseOf {scrutinee : Exp Span} {arms : List (Arm (Exp Span))}
    (ihscrutinee : Local scrutinee) (iharms : ∀ arm ∈ arms, Local arm.body) :
    Local (.caseOf s scrutinee arms) := by
  intro env env' want h
  have hscrutinee := ihscrutinee.operand h .operand (by simp [parts]) rfl
  have harms arm (harm : arm ∈ arms) := (iharms arm harm).same h .same
    (List.mem_cons_of_mem _ (List.mem_map_of_mem harm)) rfl
  simp only [typed, hscrutinee, typedArms_congr harms, note_congr h.tail]

/-- Both environments hold the types of all functions of a bundle in all of its parts, and those of
    a function's parameters in its body. -/
private theorem recIn {fs : List (Func Span (Exp Span))} {body : Exp Span}
    (ihfs : ∀ f ∈ fs, Local f.body) (ihbody : Local body) : Local (.recIn s fs body) := by
  intro env env' want h
  have hnames (x : VarId) : x ∈ (Exp.recIn s fs body).binds .after →
      x ∈ (fs.map fun f => (f.name, f.ty)).map Prod.fst := by
    simp [binds, own, funcs]
  have hfs : ∀ f ∈ fs,
      typed (bodyEnv (env.declareAll (fs.map fun f => (f.name, f.ty))) f.params) (some f.result)
        f.body =
      typed (bodyEnv (env'.declareAll (fs.map fun f => (f.name, f.ty))) f.params) (some f.result)
        f.body := by
    intro f hf
    refine ihfs f hf _ _ _ ?_
    -- names and parameters are bound in one go, and the flag of a body is always set
    rw [bodyEnv, bodyEnv, ← Env.declareAll_append, ← Env.declareAll_append]
    have hpart : (.body f, f.body) ∈ (Exp.recIn s fs body).parts :=
      List.mem_append_left _ (List.mem_map_of_mem hf)
    refine (h.part hpart _ fun x hx => ?_).withTail true
    simpa [binds, own, funcs, or_comm] using hx
  have hafter : (.after, body) ∈ (Exp.recIn s fs body).parts := by simp [parts]
  have hbody := ihbody _ _ none (h.part hafter _ hnames)
  simp only [typed, typedFuncs_congr hfs, hbody, note_congr h.tail]

/-- The elements of a tuple are checked alike. -/
private theorem tuple {elems : List (Exp Span)} (ih : ∀ e ∈ elems, Local e) :
    Local (.tuple s elems) := by
  intro env env' want h
  have helems e (he : e ∈ elems) := (ih e he).operand h .operand (by simp [parts, he]) rfl
  simp only [typed, typedAll_congr helems, note_congr h.tail]

/-- The elements of a vector are checked alike. -/
private theorem vector {elems : List (Exp Span)} (ih : ∀ e ∈ elems, Local e) :
    Local (.vector s elems) := by
  intro env env' want h
  have helems e (he : e ∈ elems) := (ih e he).operand h .operand (by simp [parts, he]) rfl
  cases elems with
  | nil => simp only [typed]
  | cons elem elems =>
    -- the first element decides what is wanted of the others
    obtain ⟨helem, hrest⟩ := List.forall_mem_cons.1 helems
    simp only [typed, helem, typedAll_congr hrest, note_congr h.tail]

/-- The base and the offsets of a `gep` are checked alike. -/
private theorem gep {base : Exp Span} {path : List (Step (Exp Span))} (ihbase : Local base)
    (ihpath : ∀ e ∈ offsets path, Local e) : Local (.gep s base path) := by
  intro env env' want h
  have hbase := ihbase.operand h .operand (by simp [parts]) rfl
  have hpath e (he : e ∈ offsets path) := (ihpath e he).operand h .operand (by simp [parts, he]) rfl
  simp only [typed, hbase, typedPath_congr hpath, note_congr h.tail]

/-- The base and the offsets of a load are checked alike. -/
private theorem load {base : Exp Span} {path : List (Step (Exp Span))} (ihbase : Local base)
    (ihpath : ∀ e ∈ offsets path, Local e) : Local (.load s base path) := by
  intro env env' want h
  have hbase := ihbase.operand h .operand (by simp [parts]) rfl
  have hpath e (he : e ∈ offsets path) := (ihpath e he).operand h .operand (by simp [parts, he]) rfl
  simp only [typed, hbase, typedPath_congr hpath, note_congr h.tail]

/-- A store binds nothing, and its body stands where the store does. -/
private theorem store {dest value body : Exp Span} {path : List (Step (Exp Span))}
    (ihdest : Local dest) (ihpath : ∀ e ∈ offsets path, Local e) (ihvalue : Local value)
    (ihbody : Local body) : Local (.store s dest path value body) := by
  intro env env' want h
  have hdest := ihdest.operand h .operand (by simp [parts]) rfl
  have hpath e (he : e ∈ offsets path) := (ihpath e he).operand h .operand (by simp [parts, he]) rfl
  have hvalue := ihvalue.operand h .operand (by simp [parts]) rfl
  have hbody := ihbody.same h .same (by simp [parts]) rfl
  simp only [typed, hdest, typedPath_congr hpath, hvalue, hbody, note_congr h.tail]

/-- The base, the offsets and the value of an update are checked alike. -/
private theorem update {base value : Exp Span} {path : List (Step (Exp Span))}
    (ihbase : Local base) (ihpath : ∀ e ∈ offsets path, Local e) (ihvalue : Local value) :
    Local (.update s base path value) := by
  intro env env' want h
  have hbase := ihbase.operand h .operand (by simp [parts]) rfl
  have hpath e (he : e ∈ offsets path) := (ihpath e he).operand h .operand (by simp [parts, he]) rfl
  have hvalue := ihvalue.operand h .operand (by simp [parts]) rfl
  simp only [typed, hbase, typedPath_congr hpath, hvalue, note_congr h.tail]

end Forms

end Local

/-- Environments that agree on what is free in an expression give the same result. -/
theorem typed_congr (e : Exp Span) : Local e := by
  induction e with
  | var s id => exact .var id
  | int s value width => exact .int value width
  | ascribe s inner ty ih => exact ih.ascribe ty
  | coerce s inner ty ih => exact ih.coerce ty
  | prim s op args ih => exact .prim op ih
  | letIn s name ty value body ihvalue ihbody => exact ihvalue.letIn ihbody
  | call s callee args ihcallee ihargs => exact ihcallee.call ihargs
  | caseOf s scrutinee arms ihscrutinee iharms => exact ihscrutinee.caseOf iharms
  | recIn s fs body ihfs ihbody => exact .recIn ihfs ihbody
  | tuple s elems ih => exact .tuple ih
  | vector s elems ih => exact .vector ih
  | gep s base path ihbase ihpath => exact ihbase.gep ihpath
  | load s base path ihbase ihpath => exact ihbase.load ihpath
  | store s dest path value body ihdest ihpath ihvalue ihbody =>
    exact ihdest.store ihpath ihvalue ihbody
  | update s base path value ihbase ihpath ihvalue => exact ihbase.update ihpath ihvalue

/-! ## Another tail flag -/

section Untailed

variable {want : Option Ty} {t t' : Exp Checked}

/-- What is equal up to tail flags has equal types. -/
private theorem ty_eq_of_untailed (h : t.untailed = t'.untailed) : t.ty = t'.ty := by
  have hann := congrArg (fun e => e.ann.2) h
  simp only [Exp.untailed, ann_mapAnn, Checked.untailed] at hann
  exact hann

/-- What is equal up to tail flags begins at the same place. -/
private theorem checkedStart_eq_of_untailed (h : t.untailed = t'.untailed) :
    t.checkedStart = t'.checkedStart := by
  have hann := congrArg (fun e => e.ann.1) h
  simp only [Exp.untailed, ann_mapAnn, Checked.untailed] at hann
  rw [checkedStart, checkedStart, hann]

/-- Whether a tree has the wanted type does not hang on tail flags. -/
private theorem settle_untailed (h : t.untailed = t'.untailed) :
    (settle want t).map Exp.untailed = (settle want t').map Exp.untailed := by
  cases want with
  | none => exact congrArg Except.ok h
  | some ty =>
    rw [settle, settle, ty_eq_of_untailed h, checkedStart_eq_of_untailed h]
    split
    · exact congrArg Except.ok h
    · rfl

private theorem bodyEnv_withTail (bundle : Env) (tail : Bool) (params : List (Param Span)) :
    bodyEnv (bundle.withTail tail) params = bodyEnv bundle params := by
  rw [bodyEnv, Env.declareAll_withTail, Env.withTail_withTail, bodyEnv]

/-- Arms are checked alike up to tail flags if their bodies are: what an arm wants of the next ones
    is a type. -/
private theorem typedArms_untailed {arms : List (Arm (Exp Span))}
    (h : ∀ arm ∈ arms, ∀ want, (typed env want arm.body).map Exp.untailed =
      (typed env' want arm.body).map Exp.untailed) (width : Nat) (seen : List Int) :
    (typedArms env width seen want arms).map (Prod.map id (List.map (Arm.map Exp.untailed))) =
      (typedArms env' width seen want arms).map
        (Prod.map id (List.map (Arm.map Exp.untailed))) := by
  induction arms generalizing seen want with
  | nil => rfl
  | cons arm arms ih =>
    obtain ⟨harm, harms⟩ := List.forall_mem_cons.1 h
    rw [typedArms, typedArms]
    refine map_bind_same _ fun seen' => map_bind_congr (harm want) fun first first' hfirst => ?_
    -- both runs want the same type of the other arms
    rw [ty_eq_of_untailed hfirst]
    refine map_bind_congr (ih harms seen') fun rest rest' hrest => ?_
    obtain ⟨hty, hbodies⟩ := Prod.mk.inj hrest
    simp only [id_eq] at hty
    simp [pure, Except.pure, Except.map, Arm.map, hfirst, hbodies, hty]

/-- Another tail flag gives the same result but for the flags in the checked tree. -/
theorem typed_withTail (e : Exp Span) (env : Env) (want : Option Ty) (tail : Bool) :
    (typed env want e).map Exp.untailed = (typed (env.withTail tail) want e).map Exp.untailed := by
  -- operands are checked in one and the same environment, and the flag of the whole goes on only
  -- to the parts that stand in its place
  induction e generalizing env want with
  | var s id =>
    have hfind : (env.withTail tail).find? id = env.find? id := rfl
    rw [typed, typed, hfind]
    cases env.find? id with
    | none => rfl
    | some binding => exact settle_untailed rfl
  | int s value width => exact settle_untailed rfl
  | ascribe s inner ty ih =>
    rw [typed, typed]
    refine map_bind_congr (ih env (some ty)) fun inner inner' hinner => settle_untailed ?_
    simpa [Exp.untailed, Checked.untailed, note] using hinner
  | coerce s inner ty ih =>
    rw [typed, typed]
    -- both environments give an operand the same flag, so its run is the same
    exact map_bind_same _ fun inner => settle_untailed rfl
  | prim s op args ih =>
    cases args with
    | nil => rw [typed, typed]
    | cons arg args =>
      rw [typed, typed]
      exact map_bind_same _ fun first => map_bind_same _ fun ty => map_bind_same _ fun rest =>
        settle_untailed rfl
  | letIn s name ty value body ihvalue ihbody =>
    rw [typed, typed]
    refine map_bind_same _ fun value => ?_
    refine map_bind_congr (ihbody (env.declare name ty) none) fun body body' hbody => ?_
    refine settle_untailed ?_
    simpa [Exp.untailed, Checked.untailed, note, ty_eq_of_untailed hbody] using hbody
  | call s callee args ihcallee ihargs =>
    rw [typed, typed]
    exact map_bind_same _ fun callee => map_bind_same _ fun sig => map_bind_same _ fun _ =>
      map_bind_same _ fun args => settle_untailed rfl
  | caseOf s scrutinee arms ihscrutinee iharms =>
    rw [typed, typed]
    refine map_bind_same _ fun scrutinee => map_bind_same _ fun width => map_bind_same _ fun _ => ?_
    have harms := @typedArms_untailed _ _ want _
      (fun arm harm want => iharms arm harm env want) width []
    refine map_bind_congr harms fun r r' hr => congrArg Except.ok ?_
    obtain ⟨hty, hbodies⟩ := Prod.mk.inj hr
    rw [id_eq, id_eq] at hty
    simpa [Exp.untailed, Checked.untailed, note, hty] using hbodies
  | recIn s fs body ihfs ihbody =>
    rw [typed, typed, Env.declareAll_withTail]
    -- a body is a tail in its own routine, whatever the flag of the bundle
    have hfs := @typedFuncs_congr _ _ fs fun f _ => congrArg (typed · (some f.result) f.body)
      (bodyEnv_withTail (env.declareAll (fs.map fun f => (f.name, f.ty))) tail f.params).symm
    rw [hfs]
    refine map_bind_same _ fun fs' => map_bind_congr (ihbody _ none) fun body body' hbody => ?_
    refine settle_untailed ?_
    simpa [Exp.untailed, Checked.untailed, note, ty_eq_of_untailed hbody] using hbody
  | tuple s elems ih =>
    rw [typed, typed]
    exact map_bind_same _ fun elems => settle_untailed rfl
  | vector s elems ih =>
    cases elems with
    | nil => rw [typed, typed]
    | cons elem elems =>
      rw [typed, typed]
      exact map_bind_same _ fun first => map_bind_same _ fun lane => map_bind_same _ fun rest =>
        settle_untailed rfl
  | gep s base path ihbase ihpath | load s base path ihbase ihpath =>
    rw [typed, typed]
    exact map_bind_same _ fun base => map_bind_same _ fun target => map_bind_same _ fun r =>
      settle_untailed rfl
  | store s dest path value body ihdest ihpath ihvalue ihbody =>
    rw [typed, typed]
    -- all parts but the body are operands
    refine map_bind_same _ fun dest => map_bind_same _ fun target => map_bind_same _ fun r =>
      map_bind_same _ fun value => ?_
    refine map_bind_congr (ihbody env none) fun body body' hbody => settle_untailed ?_
    simpa [Exp.untailed, Checked.untailed, note, ty_eq_of_untailed hbody] using hbody
  | update s base path value ihbase ihpath ihvalue =>
    rw [typed, typed]
    exact map_bind_same _ fun base => map_bind_same _ fun _ => map_bind_same _ fun _ =>
      map_bind_same _ fun r => map_bind_same _ fun value => settle_untailed rfl

end Untailed

/-- Only the tail flag of an environment and its bindings of what is free in the expression are read
    when the expression is checked, and the flag has no part in whether that succeeds, with which
    types, or where and why it fails. -/
theorem typing_local (e : Exp Span) (env env' : Env)
    (h : ∀ x, Free x e → env.find? x = env'.find? x) :
    (env.tail = env'.tail →
      infer env e = infer env' e ∧ ∀ ty, check env e ty = check env' e ty) ∧
    (infer env e).map Exp.untailed = (infer env' e).map Exp.untailed ∧
    ∀ ty, (check env e ty).map Exp.untailed = (check env' e ty).map Exp.untailed := by
  have huntailed (want : Option Ty) :
      (typed env want e).map Exp.untailed = (typed env' want e).map Exp.untailed := by
    rw [typed_withTail e env want env'.tail]
    exact congrArg _ (typed_congr e (env.withTail env'.tail) env' want ⟨rfl, h⟩)
  refine ⟨fun htail => ?_, huntailed none, fun ty => huntailed (some ty)⟩
  have hsame (want : Option Ty) := typed_congr e env env' want ⟨htail, h⟩
  exact ⟨hsame none, fun ty => hsame (some ty)⟩

/-- A let over a bundle whose function has a parameter of the let's identity. -/
private def rebinding : Exp Span :=
  let s : Span := ⟨0, 0, "tree"⟩
  let func : Func Span (Exp Span) := ⟨s, 2, [⟨s, 0, .int 16⟩], .int 16, .var s 0⟩
  .letIn s 0 (.int 8) (.var s 1) (.recIn s [func] (.tuple s [.var s 0, .var s 1]))

/-- The environments differ in what the expression binds itself, and in their flags. -/
theorem typing_local_rebinding :
    ∃ env env' : Env, (∀ x, Free x rebinding → env.find? x = env'.find? x) ∧
      env.find? 0 ≠ env'.find? 0 ∧ env.tail = true ∧ env'.tail = false ∧
      infer env rebinding = infer (env'.withTail true) rebinding ∧
      ∃ t t', infer env rebinding = .ok t ∧ infer env' rebinding = .ok t' ∧
        t.ann.tail = true ∧ t'.ann.tail = false ∧ t.untailed = t'.untailed := by
  -- what is free is computed
  have hfree (x : VarId) (hx : Free x rebinding) : x = 1 := by
    have hids : rebinding.scopedFree.ids = [1] := by decide +kernel
    have hmem : x ∈ rebinding.scopedFree.ids := mem_scopedFree.2 hx
    rw [hids] at hmem
    exact List.mem_singleton.1 hmem
  let env := ((Env.empty true).declare 0 .void).declare 1 (.int 8)
  let env' := ((Env.empty false).declare 2 .void).declare 1 (.int 8)
  have hsame : ∀ x, Free x rebinding → env.find? x = env'.find? x := by
    intro x hx
    rw [hfree x hx]
    rfl
  obtain ⟨-, huntailed, -⟩ := typing_local rebinding env env' hsame
  obtain ⟨hequal, -⟩ := (typing_local rebinding env (env'.withTail true) hsame).1 rfl
  -- that the expression is accepted is decided by running the checker on it
  have hrun : (infer env rebinding).toOption.map (·.ann.tail) = some true := by
    decide +kernel
  have hrun' : (infer env' rebinding).toOption.map (·.ann.tail) = some false := by
    decide +kernel
  obtain ⟨t, ht, htail⟩ := Option.map_eq_some_iff.1 hrun
  obtain ⟨t', ht', htail'⟩ := Option.map_eq_some_iff.1 hrun'
  rw [toOption_eq_some] at ht ht'
  rw [ht, ht'] at huntailed
  have hother : env.find? 0 ≠ env'.find? 0 := by
    intro heq
    cases heq
  exact ⟨env, env', hsame, hother, rfl, rfl, hequal, t, t', ht, ht', htail, htail',
    Except.ok.inj huntailed⟩

end Typing

end BranchIR
