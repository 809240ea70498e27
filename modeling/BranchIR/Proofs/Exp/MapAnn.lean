import BranchIR.Exp.Annotation
import BranchIR.Exp.Printer
import BranchIR.Proofs.Exp.Induction

/-!
# Laws of replacing annotations

`mapAnn` is defined by passing annotations through an action. Here it gets its equations:
one for each form, with the containers mapped pointwise, and from them what it does to the
parts, the binders and the text of a tree.
-/

namespace BranchIR

variable {α β γ δ ε : Type}

/-! ## Containers -/

/-- An arm with another body. -/
def Arm.map (f : δ → ε) (arm : Arm δ) : Arm ε := ⟨arm.pattern, f arm.body⟩

/-- A step with another computed offset. -/
def Step.map (f : δ → ε) : Step δ → Step ε
  | .field n => .field n
  | .element n => .element n
  | .lane e => .lane (f e)
  | .index e => .index (f e)

/-- A parameter with another annotation. -/
def Param.map (f : α → β) (p : Param α) : Param β := ⟨f p.ann, p.name, p.ty⟩

/-- A function with other annotations and another body. -/
def Func.map (f : α → β) (g : δ → ε) (func : Func α δ) : Func β ε :=
  ⟨f func.ann, func.name, func.params.map (Param.map f), func.result, g func.body⟩

@[simp] theorem Func.name_map (f : α → β) (g : δ → ε) (func : Func α δ) :
    (func.map f g).name = func.name := rfl

@[simp] theorem Func.body_map (f : α → β) (g : δ → ε) (func : Func α δ) :
    (func.map f g).body = g func.body := rfl

@[simp] theorem Func.paramNames_map (f : α → β) (g : δ → ε) (func : Func α δ) :
    (func.map f g).params.map (·.name) = func.params.map (·.name) := by
  simp [Func.map, Param.map, Function.comp_def]

@[simp] theorem Func.length_params_map (f : α → β) (g : δ → ε) (func : Func α δ) :
    (func.map f g).params.length = func.params.length := by
  simp [Func.map]

@[simp] theorem Func.ty_map (f : α → β) (g : δ → ε) (func : Func α δ) :
    (func.map f g).ty = func.ty := by
  simp [Func.ty, Func.map, Param.map, Function.comp_def]

@[simp] theorem Step.offset?_map (f : δ → ε) (step : Step δ) :
    (step.map f).offset? = step.offset?.map f := by
  cases step <;> rfl

@[simp] theorem Arm.map_map (g : γ → ε) (f : δ → γ) (arm : Arm δ) :
    (arm.map f).map g = arm.map (g ∘ f) := rfl

@[simp] theorem Func.map_map {δ' : Type} (b : β → γ) (a : α → β) (g : δ' → ε) (f : δ → δ')
    (func : Func α δ) : (func.map a f).map b g = func.map (b ∘ a) (g ∘ f) := by
  simp [map, Param.map]

@[simp] theorem Step.map_map (g : γ → ε) (f : δ → γ) (step : Step δ) :
    (step.map f).map g = step.map (g ∘ f) := by
  cases step <;> rfl

/-- Only the bodies of arms are changed. -/
theorem Arm.map_congr {f g : δ → ε} {arms : List (Arm δ)}
    (h : ∀ arm ∈ arms, f arm.body = g arm.body) :
    arms.map (Arm.map f) = arms.map (Arm.map g) :=
  List.map_congr_left fun arm ha => by rw [map, h arm ha, map]

/-- Beside the annotations, only the bodies of functions are changed. -/
private theorem Func.map_congr {a : α → β} {f g : δ → ε} {fs : List (Func α δ)}
    (h : ∀ func ∈ fs, f func.body = g func.body) :
    fs.map (Func.map a f) = fs.map (Func.map a g) :=
  List.map_congr_left fun func hf => by rw [map, h func hf, map]

/-- Only the computed offsets of a path are changed. -/
theorem Step.map_congr {f g : Exp α → ε} {path : List (Step (Exp α))}
    (h : ∀ e ∈ Exp.offsets path, f e = g e) :
    path.map (Step.map f) = path.map (Step.map g) := by
  induction path with
  | nil => rfl
  | cons step path ih =>
    rw [Exp.offsets_cons, List.forall_mem_append] at h
    rw [List.map_cons, List.map_cons, ih h.2]
    cases step with
    | field | element => rfl
    | lane e | index e => rw [map, map, h.1 e (by simp)]

/-- The offsets of a path that is mapped. -/
theorem Step.offsets_map (f : δ → ε) (path : List (Step δ)) :
    (path.map (Step.map f)).filterMap Step.offset? = (path.filterMap Step.offset?).map f := by
  induction path with
  | nil => rfl
  | cons step path ih => cases step <;> simp [Step.map, Step.offset?, List.filterMap_cons, ih]

@[simp] theorem Exp.offsets_map (f : Exp α → Exp β) (path : List (Step (Exp α))) :
    offsets (path.map (Step.map f)) = (offsets path).map f :=
  Step.offsets_map f path

namespace Exp

/-! ## Equations -/

attribute [local simp] mapParamsM mapAnnM mapAllM mapArmsM mapFuncsM mapPathM

/-- A visitor without effects changes parameters one by one. -/
private theorem mapParamsM_pure (f : α → β) (ps : List (Param α)) :
    mapParamsM (fun a => (pure (f a) : Id β)) ps = pure (ps.map (Param.map f)) := by
  induction ps with
  | nil => rfl
  | cons p ps ih =>
    rw [mapParamsM, ih]
    rfl

/-- A visitor without effects changes expressions of a list one by one. -/
private theorem mapAllM_pure (f : α → β) (es : List (Exp α)) :
    mapAllM (fun a => (pure (f a) : Id β)) es = pure (es.map (mapAnn f)) := by
  induction es with
  | nil => rfl
  | cons e es ih =>
    rw [mapAllM, ih]
    rfl

/-- A visitor without effects changes arms one by one. -/
private theorem mapArmsM_pure (f : α → β) (arms : List (Arm (Exp α))) :
    mapArmsM (fun a => (pure (f a) : Id β)) arms = pure (arms.map (Arm.map (mapAnn f))) := by
  induction arms with
  | nil => rfl
  | cons arm arms ih =>
    rw [mapArmsM, ih]
    rfl

/-- A visitor without effects changes functions one by one. -/
private theorem mapFuncsM_pure (f : α → β) (fs : List (Func α (Exp α))) :
    mapFuncsM (fun a => (pure (f a) : Id β)) fs = pure (fs.map (Func.map f (mapAnn f))) := by
  induction fs with
  | nil => rfl
  | cons func fs ih =>
    rw [mapFuncsM, mapParamsM_pure, ih]
    rfl

/-- A visitor without effects changes a path step by step. -/
private theorem mapPathM_pure (f : α → β) (path : List (Step (Exp α))) :
    mapPathM (fun a => (pure (f a) : Id β)) path = pure (path.map (Step.map (mapAnn f))) := by
  induction path with
  | nil => rfl
  | cons step path ih =>
    cases step <;>
      · rw [mapPathM, ih]
        rfl

section Equations

variable (f : α → β)

@[simp] theorem mapAnn_var (a : α) (id : VarId) : mapAnn f (.var a id) = .var (f a) id := rfl

@[simp] theorem mapAnn_int (a : α) (value : Int) (width : Nat) :
    mapAnn f (.int a value width) = .int (f a) value width := rfl

@[simp] theorem mapAnn_ascribe (a : α) (e : Exp α) (ty : Ty) :
    mapAnn f (.ascribe a e ty) = .ascribe (f a) (mapAnn f e) ty := rfl

@[simp] theorem mapAnn_coerce (a : α) (e : Exp α) (ty : Ty) :
    mapAnn f (.coerce a e ty) = .coerce (f a) (mapAnn f e) ty := rfl

@[simp] theorem mapAnn_prim (a : α) (op : PrimOp) (args : List (Exp α)) :
    mapAnn f (.prim a op args) = .prim (f a) op (args.map (mapAnn f)) := by
  rw [mapAnn, mapAnnM, mapAllM_pure]
  rfl

@[simp] theorem mapAnn_letIn (a : α) (name : VarId) (ty : Ty) (value body : Exp α) :
    mapAnn f (.letIn a name ty value body) =
      .letIn (f a) name ty (mapAnn f value) (mapAnn f body) := rfl

@[simp] theorem mapAnn_call (a : α) (callee : Exp α) (args : List (Exp α)) :
    mapAnn f (.call a callee args) = .call (f a) (mapAnn f callee) (args.map (mapAnn f)) := by
  rw [mapAnn, mapAnnM, mapAllM_pure]
  rfl

@[simp] theorem mapAnn_caseOf (a : α) (scrutinee : Exp α) (arms : List (Arm (Exp α))) :
    mapAnn f (.caseOf a scrutinee arms) =
      .caseOf (f a) (mapAnn f scrutinee) (arms.map (Arm.map (mapAnn f))) := by
  rw [mapAnn, mapAnnM, mapArmsM_pure]
  rfl

@[simp] theorem mapAnn_recIn (a : α) (fs : List (Func α (Exp α))) (body : Exp α) :
    mapAnn f (.recIn a fs body) =
      .recIn (f a) (fs.map (Func.map f (mapAnn f))) (mapAnn f body) := by
  rw [mapAnn, mapAnnM, mapFuncsM_pure]
  rfl

@[simp] theorem mapAnn_tuple (a : α) (elems : List (Exp α)) :
    mapAnn f (.tuple a elems) = .tuple (f a) (elems.map (mapAnn f)) := by
  rw [mapAnn, mapAnnM, mapAllM_pure]
  rfl

@[simp] theorem mapAnn_vector (a : α) (elems : List (Exp α)) :
    mapAnn f (.vector a elems) = .vector (f a) (elems.map (mapAnn f)) := by
  rw [mapAnn, mapAnnM, mapAllM_pure]
  rfl

@[simp] theorem mapAnn_gep (a : α) (base : Exp α) (path : List (Step (Exp α))) :
    mapAnn f (.gep a base path) =
      .gep (f a) (mapAnn f base) (path.map (Step.map (mapAnn f))) := by
  rw [mapAnn, mapAnnM, mapPathM_pure]
  rfl

@[simp] theorem mapAnn_load (a : α) (base : Exp α) (path : List (Step (Exp α))) :
    mapAnn f (.load a base path) =
      .load (f a) (mapAnn f base) (path.map (Step.map (mapAnn f))) := by
  rw [mapAnn, mapAnnM, mapPathM_pure]
  rfl

@[simp] theorem mapAnn_store (a : α) (dest : Exp α) (path : List (Step (Exp α)))
    (value body : Exp α) :
    mapAnn f (.store a dest path value body) =
      .store (f a) (mapAnn f dest) (path.map (Step.map (mapAnn f))) (mapAnn f value)
        (mapAnn f body) := by
  rw [mapAnn, mapAnnM, mapPathM_pure]
  rfl

@[simp] theorem mapAnn_update (a : α) (base : Exp α) (path : List (Step (Exp α)))
    (value : Exp α) :
    mapAnn f (.update a base path value) =
      .update (f a) (mapAnn f base) (path.map (Step.map (mapAnn f))) (mapAnn f value) := by
  rw [mapAnn, mapAnnM, mapPathM_pure]
  rfl

end Equations

/-! ## Parts, binders and text -/

@[simp] theorem ann_mapAnn (f : α → β) (e : Exp α) : (e.mapAnn f).ann = f e.ann := by
  cases e <;> simp [ann]

@[simp] theorem var?_mapAnn (f : α → β) (e : Exp α) : (e.mapAnn f).var? = e.var? := by
  cases e <;> simp [var?]

/-- The functions of a changed tree are the changed functions. -/
@[simp] theorem funcs_mapAnn (f : α → β) (e : Exp α) :
    (e.mapAnn f).funcs = e.funcs.map (Func.map f (mapAnn f)) := by
  cases e <;> simp [funcs]

/-- The direct subexpressions of the image are the images of the direct subexpressions. -/
@[simp] theorem children_mapAnn (f : α → β) (e : Exp α) :
    (e.mapAnn f).children = e.children.map (mapAnn f) := by
  cases e <;> simp [children, Arm.map, Function.comp_def]

/-- Annotations play no part in what a node binds. -/
@[simp] theorem binders_mapAnn (f : α → β) (e : Exp α) :
    (e.mapAnn f).binders = e.binders := by
  cases e <;> simp [binders, List.flatMap_map, Function.comp_def]

/-- The nodes of the image are the images of the nodes. -/
@[simp] theorem preorder_mapAnn (f : α → β) (e : Exp α) :
    (e.mapAnn f).preorder = e.preorder.map (mapAnn f) := by
  induction e using induct with
  | step e ih =>
    -- the root, and after it the nodes of the children, which are images themselves
    rw [preorder_eq, preorder_eq e, children_mapAnn, List.flatMap_map, List.map_cons,
      List.map_flatMap]
    simp only [List.flatMap_def, List.map_congr_left ih]

/-- Replacing annotations twice is replacing them once. -/
theorem mapAnn_mapAnn (g : β → γ) (f : α → β) (e : Exp α) :
    (e.mapAnn f).mapAnn g = e.mapAnn (g ∘ f) := by
  -- a list of expressions and a path, from what holds of the expressions in them
  have hall {es : List (Exp α)} (h : ∀ e ∈ es, (e.mapAnn f).mapAnn g = e.mapAnn (g ∘ f)) :
      (es.map (mapAnn f)).map (mapAnn g) = es.map (mapAnn (g ∘ f)) := by
    rw [List.map_map]
    exact List.map_congr_left h
  have hpath {path : List (Step (Exp α))}
      (h : ∀ e ∈ offsets path, (e.mapAnn f).mapAnn g = e.mapAnn (g ∘ f)) :
      (path.map (Step.map (mapAnn f))).map (Step.map (mapAnn g)) =
        path.map (Step.map (mapAnn (g ∘ f))) := by
    have hcomp : Step.map (mapAnn g) ∘ Step.map (mapAnn f) = Step.map (mapAnn g ∘ mapAnn f) :=
      funext (Step.map_map _ _)
    rw [List.map_map, hcomp]
    exact Step.map_congr h
  induction e with
  | var | int => rfl
  | ascribe _ _ _ ih | coerce _ _ _ ih => simp [ih]
  | prim _ _ _ ih => rw [mapAnn_prim, mapAnn_prim, hall ih, mapAnn_prim, Function.comp_apply]
  | letIn _ _ _ _ _ hvalue hbody => simp [hvalue, hbody]
  | call _ _ _ hcallee hargs =>
    rw [mapAnn_call, mapAnn_call, hcallee, hall hargs, mapAnn_call, Function.comp_apply]
  | caseOf _ _ arms hscrutinee harms =>
    -- here `simp` fuses the two maps, so the law is wanted for the composition
    have h := Arm.map_congr (f := mapAnn g ∘ mapAnn f) harms
    simpa [hscrutinee] using h
  | recIn _ fs _ hfs hbody =>
    have h := Func.map_congr (a := g ∘ f) (f := mapAnn g ∘ mapAnn f) hfs
    simpa [hbody] using h
  | tuple _ _ ih => rw [mapAnn_tuple, mapAnn_tuple, hall ih, mapAnn_tuple, Function.comp_apply]
  | vector _ _ ih =>
    rw [mapAnn_vector, mapAnn_vector, hall ih, mapAnn_vector, Function.comp_apply]
  | gep _ _ _ hbase hoffsets =>
    rw [mapAnn_gep, mapAnn_gep, hbase, hpath hoffsets, mapAnn_gep, Function.comp_apply]
  | load _ _ _ hbase hoffsets =>
    rw [mapAnn_load, mapAnn_load, hbase, hpath hoffsets, mapAnn_load, Function.comp_apply]
  | store _ _ _ _ _ hdest hoffsets hvalue hbody =>
    rw [mapAnn_store, mapAnn_store, hdest, hpath hoffsets, hvalue, hbody, mapAnn_store,
      Function.comp_apply]
  | update _ _ _ _ hbase hoffsets hvalue =>
    rw [mapAnn_update, mapAnn_update, hbase, hpath hoffsets, hvalue, mapAnn_update,
      Function.comp_apply]

/-- A tree whose annotations stay as they are is the tree itself. -/
@[simp] theorem mapAnn_id (e : Exp α) : e.mapAnn id = e := by
  have hall {es : List (Exp α)} (h : ∀ e ∈ es, e.mapAnn id = e) : es.map (mapAnn id) = es :=
    (List.map_congr_left h).trans (List.map_id' es)
  have hpath {path : List (Step (Exp α))} (h : ∀ e ∈ offsets path, e.mapAnn id = e) :
      path.map (Step.map (mapAnn id)) = path := by
    have hid : Step.map (id : Exp α → Exp α) = id := funext fun step => by cases step <;> rfl
    rw [Step.map_congr (g := id) h, hid, List.map_id]
  induction e with
  | var | int => rfl
  | ascribe _ _ _ ih | coerce _ _ _ ih => simp [ih]
  | prim _ _ _ ih => rw [mapAnn_prim, hall ih, id]
  | letIn _ _ _ _ _ hvalue hbody => simp [hvalue, hbody]
  | call _ _ _ hcallee hargs => rw [mapAnn_call, hcallee, hall hargs, id]
  | caseOf _ _ arms hscrutinee harms =>
    -- a container whose parts are kept is kept
    have hid : Arm.map (id : Exp α → Exp α) = id := rfl
    rw [mapAnn_caseOf, hscrutinee, Arm.map_congr (g := id) harms, hid, List.map_id, id]
  | recIn _ fs _ hfs hbody =>
    have hparam : Param.map (id : α → α) = id := rfl
    have hid : Func.map (id : α → α) (id : Exp α → Exp α) = id :=
      funext fun func => by simp [Func.map, hparam]
    rw [mapAnn_recIn, hbody, Func.map_congr (g := id) hfs, hid, List.map_id, id]
  | tuple _ _ ih => rw [mapAnn_tuple, hall ih, id]
  | vector _ _ ih => rw [mapAnn_vector, hall ih, id]
  | gep _ _ _ hbase hoffsets => rw [mapAnn_gep, hbase, hpath hoffsets, id]
  | load _ _ _ hbase hoffsets => rw [mapAnn_load, hbase, hpath hoffsets, id]
  | store _ _ _ _ _ hdest hoffsets hvalue hbody =>
    rw [mapAnn_store, hdest, hpath hoffsets, hvalue, hbody, id]
  | update _ _ _ _ hbase hoffsets hvalue =>
    rw [mapAnn_update, hbase, hpath hoffsets, hvalue, id]

/-- Where annotations can be had back, so can the tree. -/
theorem mapAnn_leftInverse {g : β → α} {f : α → β} (h : Function.LeftInverse g f) :
    Function.LeftInverse (mapAnn g) (mapAnn f) := by
  have hid : g ∘ f = id := funext h
  intro e
  rw [mapAnn_mapAnn, hid, mapAnn_id]

/-- Expressions that keep their texts keep the texts of a list. -/
private theorem texts_map {f : Exp α → Exp β} {es : List (Exp α)}
    (h : ∀ e ∈ es, (f e).text = e.text) : texts (es.map f) = texts es := by
  simpa [texts_eq_map] using h

/-- Bodies that keep their texts keep those of arms. -/
private theorem armTexts_map {f : Exp α → Exp β} {arms : List (Arm (Exp α))}
    (h : ∀ arm ∈ arms, (f arm.body).text = arm.body.text) :
    armTexts (arms.map (Arm.map f)) = armTexts arms := by
  induction arms with
  | nil => rfl
  | cons arm arms ih =>
    obtain ⟨harm, harms⟩ := List.forall_mem_cons.1 h
    rw [List.map_cons, Arm.map, armTexts, ih harms, harm, armTexts]

/-- Bodies that keep their texts keep those of functions, whose heads hold no other text that
    changes. -/
private theorem funcTexts_map {a : α → β} {f : Exp α → Exp β} {fs : List (Func α (Exp α))}
    (h : ∀ func ∈ fs, (f func.body).text = func.body.text) :
    funcTexts (fs.map (Func.map a f)) = funcTexts fs := by
  induction fs with
  | nil => rfl
  | cons func fs ih =>
    obtain ⟨hfunc, hfs⟩ := List.forall_mem_cons.1 h
    -- the text of a parameter is its name and its type
    have hparams : (func.params.map (Param.map a)).map Param.text = func.params.map Param.text := by
      rw [List.map_map]
      rfl
    rw [List.map_cons, Func.map, funcTexts, ih hfs, hparams, hfunc, funcTexts]

/-- Offsets that keep their texts keep the text of a path. -/
private theorem pathText_map {f : Exp α → Exp β} {path : List (Step (Exp α))}
    (h : ∀ e ∈ offsets path, (f e).text = e.text) :
    pathText (path.map (Step.map f)) = pathText path := by
  induction path with
  | nil => rfl
  | cons step path ih =>
    rw [offsets_cons, List.forall_mem_append] at h
    cases step with
    | field | element => rw [List.map_cons, Step.map, pathText, ih h.2, pathText]
    | lane e | index e =>
      rw [List.map_cons, Step.map, pathText, ih h.2, h.1 e (by simp), pathText]

/-- The text of a tree does not depend on annotations. -/
@[simp] theorem text_mapAnn (f : α → β) (e : Exp α) : (e.mapAnn f).text = e.text := by
  induction e with
  | var | int => rfl
  | ascribe _ _ _ ih | coerce _ _ _ ih => simp [text, ih]
  | prim _ _ _ ih => rw [mapAnn_prim, text, texts_map ih, text]
  | letIn _ _ _ _ _ hvalue hbody => simp [text, hvalue, hbody]
  | call _ _ _ hcallee hargs => rw [mapAnn_call, text, hcallee, texts_map hargs, text]
  | caseOf _ _ _ hscrutinee harms =>
    rw [mapAnn_caseOf, text, hscrutinee, armTexts_map harms, text]
  | recIn _ _ _ hfs hbody => rw [mapAnn_recIn, text, funcTexts_map hfs, hbody, text]
  | tuple _ _ ih => rw [mapAnn_tuple, text, texts_map ih, text]
  | vector _ _ ih => rw [mapAnn_vector, text, texts_map ih, text]
  | gep _ _ _ hbase hpath => rw [mapAnn_gep, text, hbase, pathText_map hpath, text]
  | load _ _ _ hbase hpath => rw [mapAnn_load, text, hbase, pathText_map hpath, text]
  | store _ _ _ _ _ hdest hpath hvalue hbody =>
    rw [mapAnn_store, text, hdest, pathText_map hpath, hvalue, hbody, text]
  | update _ _ _ _ hbase hpath hvalue =>
    rw [mapAnn_update, text, hbase, pathText_map hpath, hvalue, text]

end Exp

end BranchIR
