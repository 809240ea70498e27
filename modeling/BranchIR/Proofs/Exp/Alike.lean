import BranchIR.Proofs.Exp.MapAnn

/-!
# Trees that differ in annotations only

Two trees that are equal without their annotations are two images of one tree, which carries
the annotations of both. What is proved for the images of one tree, by induction on it, holds
of any two such trees.
-/

namespace BranchIR

/-- Forgets an annotation. -/
def noAnn {α : Type} (_ : α) : Unit := ()

namespace Exp

variable {α β : Type}

/-- There is a tree that carries the annotations of both. -/
def Paired (e : Exp α) (e' : Exp β) : Prop :=
  ∃ p : Exp (α × β), p.mapAnn Prod.fst = e ∧ p.mapAnn Prod.snd = e'

/-- So is every tree that is equal to the one without annotations. -/
def Pairs (e : Exp α) : Prop :=
  ∀ e' : Exp β, e.mapAnn noAnn = e'.mapAnn noAnn → Paired e e'

/-- Lists of expressions that are the same but for annotations are paired position by position. -/
private theorem pairs_list {es : List (Exp α)} (h : ∀ e ∈ es, @Pairs α β e) {es' : List (Exp β)}
    (heq : es.map (mapAnn noAnn) = es'.map (mapAnn noAnn)) :
    ∃ ps : List (Exp (α × β)), ps.map (mapAnn Prod.fst) = es ∧ ps.map (mapAnn Prod.snd) = es' := by
  induction es generalizing es' with
  | nil =>
    obtain rfl := List.map_eq_nil_iff.1 heq.symm
    exact ⟨[], rfl, rfl⟩
  | cons e es ih =>
    obtain ⟨he, hes⟩ := List.forall_mem_cons.1 h
    cases es' with
    | nil => simp at heq
    | cons e' es' =>
      obtain ⟨hfirst, hrest⟩ := List.cons.inj heq
      obtain ⟨p, rfl, rfl⟩ := he e' hfirst
      obtain ⟨ps, rfl, rfl⟩ := ih hes hrest
      exact ⟨p :: ps, rfl, rfl⟩

/-- Arms are paired position by position; their patterns hold no annotation. -/
private theorem pairs_arms {arms : List (Arm (Exp α))} (h : ∀ arm ∈ arms, @Pairs α β arm.body)
    {arms' : List (Arm (Exp β))}
    (heq : arms.map (Arm.map (mapAnn noAnn)) = arms'.map (Arm.map (mapAnn noAnn))) :
    ∃ ps : List (Arm (Exp (α × β))), ps.map (Arm.map (mapAnn Prod.fst)) = arms ∧
      ps.map (Arm.map (mapAnn Prod.snd)) = arms' := by
  induction arms generalizing arms' with
  | nil =>
    obtain rfl := List.map_eq_nil_iff.1 heq.symm
    exact ⟨[], rfl, rfl⟩
  | cons arm arms ih =>
    obtain ⟨harm, harms⟩ := List.forall_mem_cons.1 h
    cases arms' with
    | nil => simp at heq
    | cons arm' arms' =>
      obtain ⟨hfirst, hrest⟩ := List.cons.inj heq
      obtain ⟨pattern, body⟩ := arm
      obtain ⟨pattern', body'⟩ := arm'
      obtain ⟨rfl, hbody⟩ := Arm.mk.inj hfirst
      obtain ⟨p, rfl, rfl⟩ := harm body' hbody
      obtain ⟨ps, rfl, rfl⟩ := ih harms hrest
      exact ⟨⟨pattern, p⟩ :: ps, rfl, rfl⟩

/-- Parameters are paired position by position, with both their annotations. -/
private theorem pairs_params {ps : List (Param α)} {ps' : List (Param β)}
    (heq : ps.map (Param.map noAnn) = ps'.map (Param.map noAnn)) :
    ∃ qs : List (Param (α × β)), qs.map (Param.map Prod.fst) = ps ∧
      qs.map (Param.map Prod.snd) = ps' := by
  induction ps generalizing ps' with
  | nil =>
    obtain rfl := List.map_eq_nil_iff.1 heq.symm
    exact ⟨[], rfl, rfl⟩
  | cons p ps ih =>
    cases ps' with
    | nil => simp at heq
    | cons p' ps' =>
      obtain ⟨hfirst, hrest⟩ := List.cons.inj heq
      obtain ⟨a, name, ty⟩ := p
      obtain ⟨b, name', ty'⟩ := p'
      obtain ⟨-, rfl, rfl⟩ := Param.mk.inj hfirst
      obtain ⟨qs, rfl, rfl⟩ := ih hrest
      exact ⟨⟨(a, b), name, ty⟩ :: qs, rfl, rfl⟩

/-- Functions are paired position by position, with their parameters and their bodies. -/
private theorem pairs_funcs {fs : List (Func α (Exp α))} (h : ∀ f ∈ fs, @Pairs α β f.body)
    {fs' : List (Func β (Exp β))}
    (heq : fs.map (Func.map noAnn (mapAnn noAnn)) = fs'.map (Func.map noAnn (mapAnn noAnn))) :
    ∃ ps : List (Func (α × β) (Exp (α × β))),
      ps.map (Func.map Prod.fst (mapAnn Prod.fst)) = fs ∧
        ps.map (Func.map Prod.snd (mapAnn Prod.snd)) = fs' := by
  induction fs generalizing fs' with
  | nil =>
    obtain rfl := List.map_eq_nil_iff.1 heq.symm
    exact ⟨[], rfl, rfl⟩
  | cons f fs ih =>
    obtain ⟨hf, hfs⟩ := List.forall_mem_cons.1 h
    cases fs' with
    | nil => simp at heq
    | cons f' fs' =>
      obtain ⟨hfirst, hrest⟩ := List.cons.inj heq
      obtain ⟨a, name, params, result, body⟩ := f
      obtain ⟨b, name', params', result', body'⟩ := f'
      -- name and result are the same, parameters and body go together in pairs
      obtain ⟨-, rfl, hparams, rfl, hbody⟩ := Func.mk.inj hfirst
      obtain ⟨qs, rfl, rfl⟩ := pairs_params hparams
      obtain ⟨p, rfl, rfl⟩ := hf body' hbody
      obtain ⟨ps, rfl, rfl⟩ := ih hfs hrest
      exact ⟨⟨(a, b), name, qs, result, p⟩ :: ps, rfl, rfl⟩

/-- Paths are paired step by step; only computed offsets hold annotations. -/
private theorem pairs_path {path : List (Step (Exp α))} (h : ∀ e ∈ offsets path, @Pairs α β e)
    {path' : List (Step (Exp β))}
    (heq : path.map (Step.map (mapAnn noAnn)) = path'.map (Step.map (mapAnn noAnn))) :
    ∃ ps : List (Step (Exp (α × β))), ps.map (Step.map (mapAnn Prod.fst)) = path ∧
      ps.map (Step.map (mapAnn Prod.snd)) = path' := by
  induction path generalizing path' with
  | nil =>
    obtain rfl := List.map_eq_nil_iff.1 heq.symm
    exact ⟨[], rfl, rfl⟩
  | cons step path ih =>
    rw [offsets_cons, List.forall_mem_append] at h
    obtain ⟨hstep, hpath⟩ := h
    cases path' with
    | nil => simp at heq
    | cons step' path' =>
      obtain ⟨hfirst, hrest⟩ := List.cons.inj heq
      obtain ⟨ps, rfl, rfl⟩ := ih hpath hrest
      -- without annotations the first steps are of one kind
      cases step with
      | field n =>
        cases step' with
        | field n' =>
          obtain rfl := Step.field.inj hfirst
          exact ⟨.field n :: ps, rfl, rfl⟩
        -- a step of another kind stays another one without annotations
        | _ => cases hfirst
      | element n =>
        cases step' with
        | element n' =>
          obtain rfl := Step.element.inj hfirst
          exact ⟨.element n :: ps, rfl, rfl⟩
        | _ => cases hfirst
      | lane e =>
        cases step' with
        | lane e' =>
          obtain ⟨p, rfl, rfl⟩ := hstep e (by simp) e' (Step.lane.inj hfirst)
          exact ⟨.lane p :: ps, rfl, rfl⟩
        | _ => cases hfirst
      | index e =>
        cases step' with
        | index e' =>
          obtain ⟨p, rfl, rfl⟩ := hstep e (by simp) e' (Step.index.inj hfirst)
          exact ⟨.index p :: ps, rfl, rfl⟩
        | _ => cases hfirst

/-! ## Forms

Without annotations the second tree has the form of the first, and what is neither an annotation
nor a part is the same. -/

namespace Pairs

variable {a : α}

/-- A variable is paired with its own. -/
private theorem var {id : VarId} : @Pairs α β (.var a id) := by
  intro e' heq
  cases e' with
  | var b id' =>
    obtain ⟨-, rfl⟩ := Exp.var.inj heq
    exact ⟨.var (a, b) id, rfl, rfl⟩
  | _ => simp at heq

/-- A literal is paired with its own. -/
private theorem int {value : Int} {width : Nat} : @Pairs α β (.int a value width) := by
  intro e' heq
  cases e' with
  | int b value' width' =>
    obtain ⟨-, rfl, rfl⟩ := Exp.int.inj heq
    exact ⟨.int (a, b) value width, rfl, rfl⟩
  | _ => simp at heq

/-- An ascription is paired by the expression in it. -/
private theorem ascribe {inner : Exp α} {ty : Ty} (ih : @Pairs α β inner) :
    @Pairs α β (.ascribe a inner ty) := by
  intro e' heq
  cases e' with
  | ascribe b inner' ty' =>
    obtain ⟨-, hinner, rfl⟩ := Exp.ascribe.inj heq
    obtain ⟨p, rfl, rfl⟩ := ih inner' hinner
    exact ⟨.ascribe (a, b) p ty, rfl, rfl⟩
  | _ => simp at heq

/-- A coercion is paired by the expression in it. -/
private theorem coerce {inner : Exp α} {ty : Ty} (ih : @Pairs α β inner) :
    @Pairs α β (.coerce a inner ty) := by
  intro e' heq
  cases e' with
  | coerce b inner' ty' =>
    obtain ⟨-, hinner, rfl⟩ := Exp.coerce.inj heq
    obtain ⟨p, rfl, rfl⟩ := ih inner' hinner
    exact ⟨.coerce (a, b) p ty, rfl, rfl⟩
  | _ => simp at heq

/-- An operator is paired by its operands. -/
private theorem prim {op : PrimOp} {args : List (Exp α)} (ih : ∀ e ∈ args, @Pairs α β e) :
    @Pairs α β (.prim a op args) := by
  intro e' heq
  cases e' with
  | prim b op' args' =>
    simp only [mapAnn_prim] at heq
    obtain ⟨-, rfl, hargs⟩ := Exp.prim.inj heq
    obtain ⟨ps, rfl, rfl⟩ := pairs_list ih hargs
    exact ⟨.prim (a, b) op ps, mapAnn_prim .., mapAnn_prim ..⟩
  | _ => simp at heq

/-- A let is paired by its value and its body. -/
private theorem letIn {name : VarId} {ty : Ty} {value body : Exp α} (hvalue : @Pairs α β value)
    (hbody : @Pairs α β body) : @Pairs α β (.letIn a name ty value body) := by
  intro e' heq
  cases e' with
  | letIn b name' ty' value' body' =>
    obtain ⟨-, rfl, rfl, hgiven, hinner⟩ := Exp.letIn.inj heq
    obtain ⟨p, rfl, rfl⟩ := hvalue value' hgiven
    obtain ⟨q, rfl, rfl⟩ := hbody body' hinner
    exact ⟨.letIn (a, b) name ty p q, rfl, rfl⟩
  | _ => simp at heq

/-- A call is paired by its callee and its arguments. -/
private theorem call {callee : Exp α} {args : List (Exp α)} (hcallee : @Pairs α β callee)
    (hargs : ∀ e ∈ args, @Pairs α β e) : @Pairs α β (.call a callee args) := by
  intro e' heq
  cases e' with
  | call b callee' args' =>
    simp only [mapAnn_call] at heq
    obtain ⟨-, hfirst, hrest⟩ := Exp.call.inj heq
    obtain ⟨p, rfl, rfl⟩ := hcallee callee' hfirst
    obtain ⟨ps, rfl, rfl⟩ := pairs_list hargs hrest
    exact ⟨.call (a, b) p ps, mapAnn_call .., mapAnn_call ..⟩
  | _ => simp at heq

/-- A case is paired by its scrutinee and its arms. -/
private theorem caseOf {scrutinee : Exp α} {arms : List (Arm (Exp α))}
    (hscrutinee : @Pairs α β scrutinee)
    (harms : ∀ arm ∈ arms, @Pairs α β arm.body) : @Pairs α β (.caseOf a scrutinee arms) := by
  intro e' heq
  cases e' with
  | caseOf b scrutinee' arms' =>
    simp only [mapAnn_caseOf] at heq
    obtain ⟨-, hfirst, hrest⟩ := Exp.caseOf.inj heq
    obtain ⟨p, rfl, rfl⟩ := hscrutinee scrutinee' hfirst
    obtain ⟨ps, rfl, rfl⟩ := pairs_arms harms hrest
    exact ⟨.caseOf (a, b) p ps, mapAnn_caseOf .., mapAnn_caseOf ..⟩
  | _ => simp at heq

/-- A bundle is paired by its functions and what comes after them. -/
private theorem recIn {fs : List (Func α (Exp α))} {body : Exp α}
    (hfs : ∀ f ∈ fs, @Pairs α β f.body)
    (hbody : @Pairs α β body) : @Pairs α β (.recIn a fs body) := by
  intro e' heq
  cases e' with
  | recIn b fs' body' =>
    simp only [mapAnn_recIn] at heq
    obtain ⟨-, hfuncs, hinner⟩ := Exp.recIn.inj heq
    obtain ⟨ps, rfl, rfl⟩ := pairs_funcs hfs hfuncs
    obtain ⟨p, rfl, rfl⟩ := hbody body' hinner
    exact ⟨.recIn (a, b) ps p, mapAnn_recIn .., mapAnn_recIn ..⟩
  | _ => simp at heq

/-- A tuple is paired by its elements. -/
private theorem tuple {elems : List (Exp α)} (ih : ∀ e ∈ elems, @Pairs α β e) :
    @Pairs α β (.tuple a elems) := by
  intro e' heq
  cases e' with
  | tuple b elems' =>
    simp only [mapAnn_tuple] at heq
    obtain ⟨ps, rfl, rfl⟩ := pairs_list ih (Exp.tuple.inj heq).2
    exact ⟨.tuple (a, b) ps, mapAnn_tuple .., mapAnn_tuple ..⟩
  | _ => simp at heq

/-- A vector is paired by its elements. -/
private theorem vector {elems : List (Exp α)} (ih : ∀ e ∈ elems, @Pairs α β e) :
    @Pairs α β (.vector a elems) := by
  intro e' heq
  cases e' with
  | vector b elems' =>
    simp only [mapAnn_vector] at heq
    obtain ⟨ps, rfl, rfl⟩ := pairs_list ih (Exp.vector.inj heq).2
    exact ⟨.vector (a, b) ps, mapAnn_vector .., mapAnn_vector ..⟩
  | _ => simp at heq

/-- An address is paired by its base and the offsets of its path. -/
private theorem gep {base : Exp α} {path : List (Step (Exp α))} (hbase : @Pairs α β base)
    (hpath : ∀ e ∈ offsets path, @Pairs α β e) : @Pairs α β (.gep a base path) := by
  intro e' heq
  cases e' with
  | gep b base' path' =>
    simp only [mapAnn_gep] at heq
    obtain ⟨-, hfirst, hrest⟩ := Exp.gep.inj heq
    obtain ⟨p, rfl, rfl⟩ := hbase base' hfirst
    obtain ⟨ps, rfl, rfl⟩ := pairs_path hpath hrest
    exact ⟨.gep (a, b) p ps, mapAnn_gep .., mapAnn_gep ..⟩
  | _ => simp at heq

/-- A load is paired by its base and the offsets of its path. -/
private theorem load {base : Exp α} {path : List (Step (Exp α))} (hbase : @Pairs α β base)
    (hpath : ∀ e ∈ offsets path, @Pairs α β e) : @Pairs α β (.load a base path) := by
  intro e' heq
  cases e' with
  | load b base' path' =>
    simp only [mapAnn_load] at heq
    obtain ⟨-, hfirst, hrest⟩ := Exp.load.inj heq
    obtain ⟨p, rfl, rfl⟩ := hbase base' hfirst
    obtain ⟨ps, rfl, rfl⟩ := pairs_path hpath hrest
    exact ⟨.load (a, b) p ps, mapAnn_load .., mapAnn_load ..⟩
  | _ => simp at heq

/-- A store is paired by its destination, the offsets of its path, its value and its body. -/
private theorem store {dest value body : Exp α} {path : List (Step (Exp α))}
    (hdest : @Pairs α β dest) (hpath : ∀ e ∈ offsets path, @Pairs α β e) (hvalue : @Pairs α β value)
    (hbody : @Pairs α β body) : @Pairs α β (.store a dest path value body) := by
  intro e' heq
  cases e' with
  | store b dest' path' value' body' =>
    simp only [mapAnn_store] at heq
    obtain ⟨-, hfirst, hrest, hgiven, hinner⟩ := Exp.store.inj heq
    obtain ⟨p, rfl, rfl⟩ := hdest dest' hfirst
    obtain ⟨ps, rfl, rfl⟩ := pairs_path hpath hrest
    obtain ⟨q, rfl, rfl⟩ := hvalue value' hgiven
    obtain ⟨r, rfl, rfl⟩ := hbody body' hinner
    exact ⟨.store (a, b) p ps q r, mapAnn_store .., mapAnn_store ..⟩
  | _ => simp at heq

/-- An update is paired by its base, the offsets of its path and its value. -/
private theorem update {base value : Exp α} {path : List (Step (Exp α))} (hbase : @Pairs α β base)
    (hpath : ∀ e ∈ offsets path, @Pairs α β e) (hvalue : @Pairs α β value) :
    @Pairs α β (.update a base path value) := by
  intro e' heq
  cases e' with
  | update b base' path' value' =>
    simp only [mapAnn_update] at heq
    obtain ⟨-, hfirst, hrest, hgiven⟩ := Exp.update.inj heq
    obtain ⟨p, rfl, rfl⟩ := hbase base' hfirst
    obtain ⟨ps, rfl, rfl⟩ := pairs_path hpath hrest
    obtain ⟨q, rfl, rfl⟩ := hvalue value' hgiven
    exact ⟨.update (a, b) p ps q, mapAnn_update .., mapAnn_update ..⟩
  | _ => simp at heq

end Pairs

/-- Trees that are equal without annotations are images of one tree. -/
theorem exists_pair (e : Exp α) : @Pairs α β e := by
  induction e with
  | var a id => exact .var
  | int a value width => exact .int
  | ascribe a inner ty ih => exact .ascribe ih
  | coerce a inner ty ih => exact .coerce ih
  | prim a op args ih => exact .prim ih
  | letIn a name ty value body hvalue hbody => exact .letIn hvalue hbody
  | call a callee args hcallee hargs => exact .call hcallee hargs
  | caseOf a scrutinee arms hscrutinee harms => exact .caseOf hscrutinee harms
  | recIn a fs body hfs hbody => exact .recIn hfs hbody
  | tuple a elems ih => exact .tuple ih
  | vector a elems ih => exact .vector ih
  | gep a base path hbase hpath => exact .gep hbase hpath
  | load a base path hbase hpath => exact .load hbase hpath
  | store a dest path value body hdest hpath hvalue hbody =>
    exact .store hdest hpath hvalue hbody
  | update a base path value hbase hpath hvalue => exact .update hbase hpath hvalue

end Exp

end BranchIR
