import Mathlib.Data.List.Perm.Basic
import BranchIR.Proofs.Exp.Alike
import BranchIR.Proofs.Exp.Binding
import BranchIR.Proofs.Exp.Routes
import BranchIR.Proofs.Exp.Visits

/-!
# The traversals of a tree

The annotations, the children, the binders and the text of a tree are found by traversals of their
own. They go through one tree: a visitor that keeps a state sees each annotation once, in the order
of the parts, and what it gives is put in its place; nothing else depends on annotations; and the
nodes in preorder are the expressions that stand in the tree, each place once.

## Key results

- `children_mapAnnM`: the parts of a tree are visited one after the other
- `eq_of_anns`: a tree is told by its annotations and by what is left without them
- `traversals_agree`: all of this together
-/

namespace BranchIR

variable {α β γ δ σ τ : Type}

namespace Exp

/-! ## Children -/

section Children

variable {m : Type → Type} [Monad m] [LawfulMonad m] (visit : α → m β)

/-- Parameters are visited one after the other, before what comes next. -/
private theorem mapParamsM_bind (ps : List (Param α)) (next : m δ) :
    (mapParamsM visit ps >>= fun _ => next) =
      ((ps.mapM fun p => visit p.ann) >>= fun _ => next) := by
  induction ps with
  | nil => simp [mapParamsM]
  | cons p ps ih => simp [mapParamsM, ih]

/-- Expressions of a list are visited one after the other. -/
private theorem mapAllM_eq (es : List (Exp α)) : mapAllM visit es = es.mapM (mapAnnM visit) := by
  induction es with
  | nil => simp [mapAllM]
  | cons e es ih => simp [mapAllM, ih]

/-- The bodies of arms are visited one after the other. -/
private theorem bodies_mapArmsM (arms : List (Arm (Exp α))) :
    List.map (·.body) <$> mapArmsM visit arms = arms.mapM fun arm => mapAnnM visit arm.body := by
  induction arms with
  | nil => simp [mapArmsM]
  | cons arm arms ih => simp [mapArmsM, ← ih]

/-- A function is visited itself, then its parameters, then its body. -/
private theorem bodies_mapFuncsM (fs : List (Func α (Exp α))) :
    List.map (·.body) <$> mapFuncsM visit fs = fs.mapM fun g => (do
      let _ ← visit g.ann
      let _ ← g.params.mapM fun p => visit p.ann
      mapAnnM visit g.body) := by
  induction fs with
  | nil => simp [mapFuncsM]
  | cons g fs ih => simp [mapFuncsM, ← ih, mapParamsM_bind]

/-- The computed offsets of a path are visited one after the other. -/
private theorem offsets_mapPathM (path : List (Step (Exp α))) :
    offsets <$> mapPathM visit path = (offsets path).mapM (mapAnnM visit) := by
  induction path with
  | nil => simp [mapPathM]
  | cons step path ih => cases step <;> simp [mapPathM, ← ih]

attribute [local simp] mapAnnM parts Role.anns ann Exp.children Function.comp_def in
/-- The parts of a tree are visited one after the other: first the root, then each part, after the
    annotations that stand beside it. They become the parts of the tree that is made. -/
theorem children_mapAnnM (e : Exp α) :
    children <$> e.mapAnnM visit = (do
      let _ ← visit e.ann
      e.parts.mapM fun part => do
        let _ ← part.1.anns.mapM visit
        mapAnnM visit part.2) := by
  cases e with
  | var a id | int a value width => simp
  | ascribe a inner ty | coerce a inner ty => simp
  | letIn a name ty value body => simp
  | prim a op es | tuple a es | vector a es => simp [mapAllM_eq]
  | call a callee args => simp [mapAllM_eq]
  | caseOf a scrutinee arms => simp [← bodies_mapArmsM]
  | recIn a fs body => simp [← bodies_mapFuncsM]
  | gep a base path | load a base path => simp [← offsets_mapPathM]
  | store a dest path value body => simp [← offsets_mapPathM]
  | update a base path value => simp [← offsets_mapPathM]

end Children

end Exp

/-! ## A tree is told by its annotations -/

/-- The annotations that a role carries are changed with it. -/
private theorem Role.anns_map (f : α → β) (role : Role α) :
    (role.map f).anns = role.anns.map f := by
  cases role <;> simp [map, anns, Func.map, Param.map]

/-- A function is told by what stands beside its body, and by the body. -/
private theorem Func.map_eq_of_anns {f g : α → β} {b b' : Exp α → γ} {func : Func α (Exp α)}
    (h : ∀ a ∈ (Role.body func).anns, f a = g a) (hbody : b func.body = b' func.body) :
    func.map f b = func.map g b' := by
  obtain ⟨hann, hparams⟩ := List.forall_mem_cons.1 h
  have hps : func.params.map (Param.map f) = func.params.map (Param.map g) :=
    List.map_congr_left fun p hp => by
      rw [Param.map, hparams p.ann (List.mem_map_of_mem hp), Param.map]
  rw [map, map, hann, hps, hbody]

namespace Exp

/-- The annotations of a changed tree are the changed annotations, in the same order. -/
@[simp] theorem anns_mapAnn (f : α → β) (e : Exp α) : (e.mapAnn f).anns = e.anns.map f := by
  induction e using induct with
  | step e ih =>
    have hparts : ∀ p ∈ e.parts, (p.1.map f).anns ++ (p.2.mapAnn f).anns =
        (p.1.anns ++ p.2.anns).map f := fun p hp => by
      rw [Role.anns_map, ih p.2 (mem_children_of_mem_parts hp), List.map_append]
    rw [anns_eq, anns_eq e, parts_mapAnn, ann_mapAnn, List.map_cons, List.map_flatMap,
      List.flatMap_map, List.flatMap_congr hparts]

/-- What a function gives for other values than the annotations makes no difference. -/
theorem mapAnn_congr {f g : α → β} {e : Exp α} (h : ∀ a ∈ e.anns, f a = g a) :
    e.mapAnn f = e.mapAnn g := by
  rw [anns_eq_listed] at h
  -- a list of expressions, from what holds of the expressions in it
  have hall {es : List (Exp α)}
      (ih : ∀ e ∈ es, (∀ a ∈ e.listed, f a = g a) → e.mapAnn f = e.mapAnn g)
      (h : ∀ a ∈ es.flatMap listed, f a = g a) : ∀ e ∈ es, e.mapAnn f = e.mapAnn g :=
    fun e he => ih e he (List.forall_mem_flatMap.1 h e he)
  induction e with
  | var a id | int a value width => simp [h a (by simp)]
  | ascribe a inner ty ih | coerce a inner ty ih =>
    simp only [listed_ascribe, listed_coerce, List.forall_mem_cons] at h
    simp [h.1, ih h.2]
  | prim a op es ih | tuple a es ih | vector a es ih =>
    simp only [listed_prim, listed_tuple, listed_vector, List.forall_mem_cons] at h
    have hes := List.map_congr_left (hall ih h.2)
    simp only [mapAnn_prim, mapAnn_tuple, mapAnn_vector, h.1, hes]
  | letIn a name ty value body hvalue hbody =>
    simp only [listed_letIn, List.forall_mem_cons, List.forall_mem_append] at h
    obtain ⟨ha, hv, hb⟩ := h
    simp [ha, hvalue hv, hbody hb]
  | call a callee args hcallee hargs =>
    simp only [listed_call, List.forall_mem_cons, List.forall_mem_append] at h
    obtain ⟨ha, hc, hrest⟩ := h
    rw [mapAnn_call, mapAnn_call, ha, hcallee hc, List.map_congr_left (hall hargs hrest)]
  | caseOf a scrutinee arms hscrutinee harms =>
    simp only [listed_caseOf, List.forall_mem_cons, List.forall_mem_append,
      List.forall_mem_flatMap] at h
    obtain ⟨ha, hs, hrest⟩ := h
    rw [mapAnn_caseOf, mapAnn_caseOf, ha, hscrutinee hs,
      Arm.map_congr fun arm harm => harms arm harm (hrest arm harm)]
  | recIn a fs body hfs hbody =>
    simp only [listed_recIn, List.forall_mem_cons, List.forall_mem_append,
      List.forall_mem_flatMap] at h
    -- a function is listed with its own annotation and those of its parameters, in front of its
    -- body
    obtain ⟨ha, hrest, hb⟩ := h
    have hfuncs : fs.map (Func.map f (mapAnn f)) = fs.map (Func.map g (mapAnn g)) :=
      List.map_congr_left fun func hfunc =>
        Func.map_eq_of_anns (hrest func hfunc).1 (hfs func hfunc (hrest func hfunc).2)
    rw [mapAnn_recIn, mapAnn_recIn, ha, hfuncs, hbody hb]
  | gep a base path hbase hpath | load a base path hbase hpath =>
    simp only [listed_gep, listed_load, List.forall_mem_cons, List.forall_mem_append] at h
    obtain ⟨ha, hb, hrest⟩ := h
    have hsteps := Step.map_congr (hall hpath hrest)
    simp only [mapAnn_gep, mapAnn_load, ha, hbase hb, hsteps]
  | store a dest path value body hdest hpath hvalue hbody =>
    simp only [listed_store, List.forall_mem_cons, List.forall_mem_append] at h
    obtain ⟨ha, hd, hrest, hv, hb⟩ := h
    rw [mapAnn_store, mapAnn_store, ha, hdest hd, Step.map_congr (hall hpath hrest), hvalue hv,
      hbody hb]
  | update a base path value hbase hpath hvalue =>
    simp only [listed_update, List.forall_mem_cons, List.forall_mem_append] at h
    obtain ⟨ha, hb, hrest, hv⟩ := h
    rw [mapAnn_update, mapAnn_update, ha, hbase hb, Step.map_congr (hall hpath hrest), hvalue hv]

/-- A tree is told by its annotations, in order, and by what is left without them. -/
theorem eq_of_anns {e e' : Exp α} (hbare : e.mapAnn noAnn = e'.mapAnn noAnn)
    (hanns : e.anns = e'.anns) : e = e' := by
  -- both are images of one tree, which carries the annotations of both
  obtain ⟨p, rfl, rfl⟩ := exists_pair e e' hbare
  rw [anns_mapAnn, anns_mapAnn] at hanns
  exact mapAnn_congr (List.map_inj_left.1 hanns)

/-! ## Visitors -/

/-- A visitor that uses no state replaces the annotations by their values. -/
private theorem mapAnnM_pure (f : α → β) (e : Exp α) (s : σ) :
    (e.mapAnnM fun a => (pure (f a) : StateM σ β)).run s = (e.mapAnn f, s) := by
  obtain ⟨hrun, hbare⟩ := mapAnnM_run (fun a => (pure (f a) : StateM σ β)) e s
  rw [List.mapM_pure] at hrun
  obtain ⟨hanns, hstate⟩ := Prod.mk.inj hrun
  refine Prod.ext (eq_of_anns ?_ ?_) hstate.symm
  · rw [hbare, mapAnn_mapAnn]
    rfl
  · rw [anns_mapAnn]
    exact hanns.symm

/-- One visitor and then another, each with a state of its own. -/
def andThen (f : α → StateM σ β) (g : β → StateM τ γ) (a : α) : StateM (σ × τ) γ := do
  let (s, t) ← get
  let (b, s) := (f a).run s
  let (c, t) := (g b).run t
  set (s, t)
  return c

/-- Two passes over a list leave the same results and states as one pass with both visitors. -/
private theorem mapM_andThen (f : α → StateM σ β) (g : β → StateM τ γ) (as : List α) (s : σ)
    (t : τ) :
    (as.mapM (andThen f g)).run (s, t) =
      (((((as.mapM f).run s).1.mapM g).run t).1,
        ((as.mapM f).run s).2, ((((as.mapM f).run s).1.mapM g).run t).2) := by
  induction as generalizing s t with
  | nil => rfl
  | cons a as ih =>
    -- at the first annotation each visitor takes its own state on
    have hfirst : (andThen f g a).run (s, t) =
        (((g ((f a).run s).1).run t).1, ((f a).run s).2, ((g ((f a).run s).1).run t).2) := rfl
    rw [run_mapM_cons, hfirst, ih, run_mapM_cons, run_mapM_cons]

/-- One visitor and then another make the tree that the second makes of what the first has made. -/
private theorem mapAnnM_andThen (f : α → StateM σ β) (g : β → StateM τ γ) (e : Exp α) (s : σ)
    (t : τ) :
    (e.mapAnnM (andThen f g)).run (s, t) =
      (((((e.mapAnnM f).run s).1.mapAnnM g).run t).1,
        ((e.mapAnnM f).run s).2, ((((e.mapAnnM f).run s).1.mapAnnM g).run t).2) := by
  obtain ⟨hboth, hbare⟩ := mapAnnM_run (andThen f g) e (s, t)
  obtain ⟨hfirst, hbare₁⟩ := mapAnnM_run f e s
  obtain ⟨hsecond, hbare₂⟩ := mapAnnM_run g ((e.mapAnnM f).run s).1 t
  rw [mapM_andThen, hfirst, hsecond] at hboth
  obtain ⟨hanns, hstates⟩ := Prod.mk.inj hboth
  exact Prod.ext (eq_of_anns (hbare.trans (hbare₁.symm.trans hbare₂.symm)) hanns.symm) hstates.symm

/-- What a visitor makes of a tree is made of the same tree, so no binder changes. -/
private theorem binders_mapAnnM (f : α → StateM σ β) (e : Exp α) (s : σ) :
    ((e.mapAnnM f).run s).1.binders = e.binders := by
  rw [← binders_mapAnn noAnn, (mapAnnM_run f e s).2, binders_mapAnn]

/-- A visitor changes no text. -/
private theorem text_mapAnnM (f : α → StateM σ β) (e : Exp α) (s : σ) :
    ((e.mapAnnM f).run s).1.text = e.text := by
  rw [← text_mapAnn noAnn, (mapAnnM_run f e s).2, text_mapAnn]

/-! ## All nodes -/

/-- What stands beside the parts is what the functions declare, in order. -/
private theorem flatMap_parts_anns (e : Exp α) :
    (e.parts.flatMap fun p => p.1.anns) = e.funcs.flatMap fun f => (Role.body f).anns := by
  cases e <;> simp [parts, funcs, Role.anns, List.flatMap_map]

/-- The annotations that are visited are those of the nodes and of what functions declare. -/
private theorem anns_perm_preorder (e : Exp α) : e.anns.Perm
    (e.preorder.flatMap fun n => n.ann :: n.funcs.flatMap fun f => (Role.body f).anns) := by
  induction e using induct with
  | step e ih =>
    have hbelow := List.Perm.flatMap_left e.children ih
    rw [← List.flatMap_assoc] at hbelow
    have hparts : (e.parts.flatMap fun p => p.2.anns) = e.children.flatMap anns := by
      rw [← parts_snd, List.flatMap_map]
    rw [anns_eq, preorder_eq, List.flatMap_cons, List.cons_append]
    refine .cons _ ((List.flatMap_append_perm ..).symm.trans ?_)
    rw [flatMap_parts_anns, hparts]
    exact hbelow.append_left _

/-! ## All traversals -/

/-- What ties the traversals of a tree to one another. -/
structure TraversalsAgree (e : Exp α) : Prop where
  /-- A visitor sees the annotations in order, and what it gives stands in the same order. -/
  visits : ∀ {β σ : Type} (f : α → StateM σ β) (s : σ),
    (e.anns.mapM f).run s = (((e.mapAnnM f).run s).1.anns, ((e.mapAnnM f).run s).2)
  /-- The order is that of the root and then the parts, each right after what stands beside it. -/
  order : e.anns = e.ann :: e.parts.flatMap fun p => p.1.anns ++ p.2.anns
  /-- The parts are the children, in order. -/
  parts : e.parts.map Prod.snd = e.children
  /-- A function that stands beside a part stands beside its own body. -/
  beside : ∀ {f : Func α (Exp α)} {part : Exp α}, (Role.body f, part) ∈ e.parts →
    f ∈ e.funcs ∧ part = f.body
  /-- All annotations are visited: those of the nodes, and of what functions declare. -/
  covers : e.anns.Perm
    (e.preorder.flatMap fun n => n.ann :: n.funcs.flatMap fun f => f.ann :: f.params.map (·.ann))
  /-- The parts are visited one after the other, and become the children of the new tree. -/
  below : ∀ {β σ : Type} (f : α → StateM σ β), children <$> e.mapAnnM f = (do
    let _ ← f e.ann
    e.parts.mapM fun part => do
      let _ ← part.1.anns.mapM f
      part.2.mapAnnM f)
  /-- A visitor that keeps no state replaces the annotations by their values. -/
  stateless : ∀ {β σ : Type} (f : α → β) (s : σ),
    (e.mapAnnM fun a => (pure (f a) : StateM σ β)).run s = (e.mapAnn f, s)
  children : ∀ {β : Type} (f : α → β), (e.mapAnn f).children = e.children.map (mapAnn f)
  identity : e.mapAnn id = e
  twice : ∀ {β γ : Type} (f : α → β) (g : β → γ), (e.mapAnn f).mapAnn g = e.mapAnn (g ∘ f)
  /-- One visitor and then another on the tree are the two in turn on each annotation. -/
  inTurn : ∀ {β γ σ τ : Type} (f : α → StateM σ β) (g : β → StateM τ γ) (s : σ) (t : τ),
    let made := (e.mapAnnM f).run s
    let remade := (made.1.mapAnnM g).run t
    (e.mapAnnM (andThen f g)).run (s, t) = (remade.1, made.2, remade.2)
  binders : ∀ {β σ : Type} (f : α → StateM σ β) (s : σ),
    ((e.mapAnnM f).run s).1.binders = e.binders
  text : ∀ {β σ : Type} (f : α → StateM σ β) (s : σ), ((e.mapAnnM f).run s).1.text = e.text
  /-- The nodes in preorder are the expressions at all places of the tree, each place once. -/
  nodes : ∃ routed : List (List Slot × Exp α), routed.map Prod.snd = e.preorder ∧
    (routed.map Prod.fst).Nodup ∧ ∀ route x, (route, x) ∈ routed ↔ e.reach? route = some x

/-- Visits, children, binders, text and preorder tell of one tree. -/
theorem traversals_agree (e : Exp α) : TraversalsAgree e where
  visits f s := (mapAnnM_run f e s).1
  order := anns_eq e
  parts := parts_snd e
  beside := body_mem_parts
  covers := anns_perm_preorder e
  below f := children_mapAnnM f e
  stateless f s := mapAnnM_pure f e s
  children f := children_mapAnn f e
  identity := mapAnn_id e
  twice f g := mapAnn_mapAnn g f e
  inTurn f g s t := mapAnnM_andThen f g e s t
  binders f s := binders_mapAnnM f e s
  text f s := text_mapAnnM f e s
  nodes := ⟨e.routed, map_snd_routed e, nodup_routed e, fun _ _ => mem_routed⟩

end Exp

end BranchIR
