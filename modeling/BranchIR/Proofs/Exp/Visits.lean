import BranchIR.Proofs.Exp.Alike
import BranchIR.Proofs.Exp.Place

/-!
# The order of visits

Passing the annotations of a tree through a visitor that keeps a state visits a node first and then
its parts in source order. What stands beside a part is visited right before it: the annotation of
a function and those of its parameters before its body. What the visitor gives is put in the place
of what it was given.
-/

namespace BranchIR

variable {α β γ δ σ : Type}

/-- The annotations that are visited for a part besides those in it. -/
def Role.anns : Role α → List α
  | .body f => f.ann :: f.params.map (·.ann)
  | _ => []

namespace Exp

/-! ## The order of the parts -/

/-- The annotations in the order of the parts, without any visits. -/
def listed (e : Exp α) : List α :=
  e.fold fun node below =>
    node.ann :: (node.parts.zip below).flatMap fun (part, inner) => part.1.anns ++ inner

/-- The annotations of a tree are that of its root, and then those of the roles and the parts. -/
private theorem listed_eq (e : Exp α) :
    e.listed = e.ann :: e.parts.flatMap fun p => p.1.anns ++ p.2.listed := by
  have hfold := fold_labelled parts_snd (fun node parts => node.ann ::
    parts.flatMap fun (part, inner) => part.1.anns ++ inner) e
  rwa [List.flatMap_map] at hfold

section Equations

attribute [local simp] parts Role.anns List.flatMap_map

variable (a : α)

@[simp] theorem listed_var (id : VarId) : (var a id).listed = [a] :=
  (listed_eq _).trans (by simp [ann])

@[simp] theorem listed_int (value : Int) (width : Nat) : (int a value width).listed = [a] :=
  (listed_eq _).trans (by simp [ann])

@[simp] theorem listed_ascribe (inner : Exp α) (ty : Ty) :
    (ascribe a inner ty).listed = a :: inner.listed :=
  (listed_eq _).trans (by simp [ann])

@[simp] theorem listed_coerce (inner : Exp α) (ty : Ty) :
    (coerce a inner ty).listed = a :: inner.listed :=
  (listed_eq _).trans (by simp [ann])

@[simp] theorem listed_prim (op : PrimOp) (args : List (Exp α)) :
    (prim a op args).listed = a :: args.flatMap listed :=
  (listed_eq _).trans (by simp [ann])

@[simp] theorem listed_letIn (name : VarId) (ty : Ty) (value body : Exp α) :
    (letIn a name ty value body).listed = a :: (value.listed ++ body.listed) :=
  (listed_eq _).trans (by simp [ann])

@[simp] theorem listed_call (callee : Exp α) (args : List (Exp α)) :
    (call a callee args).listed = a :: (callee.listed ++ args.flatMap listed) :=
  (listed_eq _).trans (by simp [ann])

@[simp] theorem listed_caseOf (scrutinee : Exp α) (arms : List (Arm (Exp α))) :
    (caseOf a scrutinee arms).listed =
      a :: (scrutinee.listed ++ arms.flatMap fun arm => arm.body.listed) :=
  (listed_eq _).trans (by simp [ann])

@[simp] theorem listed_recIn (fs : List (Func α (Exp α))) (body : Exp α) :
    (recIn a fs body).listed =
      a :: ((fs.flatMap fun f => (Role.body f).anns ++ f.body.listed) ++ body.listed) :=
  (listed_eq _).trans (by simp [ann])

@[simp] theorem listed_tuple (elems : List (Exp α)) :
    (tuple a elems).listed = a :: elems.flatMap listed :=
  (listed_eq _).trans (by simp [ann])

@[simp] theorem listed_vector (elems : List (Exp α)) :
    (vector a elems).listed = a :: elems.flatMap listed :=
  (listed_eq _).trans (by simp [ann])

@[simp] theorem listed_gep (base : Exp α) (path : List (Step (Exp α))) :
    (gep a base path).listed = a :: (base.listed ++ (offsets path).flatMap listed) :=
  (listed_eq _).trans (by simp [ann])

@[simp] theorem listed_load (base : Exp α) (path : List (Step (Exp α))) :
    (load a base path).listed = a :: (base.listed ++ (offsets path).flatMap listed) :=
  (listed_eq _).trans (by simp [ann])

@[simp] theorem listed_store (dest : Exp α) (path : List (Step (Exp α))) (value body : Exp α) :
    (store a dest path value body).listed =
      a :: (dest.listed ++ ((offsets path).flatMap listed ++ (value.listed ++ body.listed))) :=
  (listed_eq _).trans (by simp [ann])

@[simp] theorem listed_update (base : Exp α) (path : List (Step (Exp α))) (value : Exp α) :
    (update a base path value).listed =
      a :: (base.listed ++ ((offsets path).flatMap listed ++ value.listed)) :=
  (listed_eq _).trans (by simp [ann])

end Equations

end Exp

/-! ## Visitors -/

/-- A visitor goes on in the state that the first visit leaves. -/
theorem run_mapM_cons (f : α → StateM σ β) (a : α) (as : List α) (s : σ) :
    ((a :: as).mapM f).run s =
      (((f a).run s).1 :: ((as.mapM f).run ((f a).run s).2).1,
        ((as.mapM f).run ((f a).run s).2).2) := by
  rw [List.mapM_cons]
  rfl

/-- The action passes the annotations through the visitor, in order. What the action gives and what
    the visits give stand in the relation. -/
private def Passes (f : α → StateM σ β) (p : StateM σ γ) (as : List α)
    (R : γ → List β → Prop) : Prop :=
  ∀ s, ((as.mapM f).run s).2 = (p.run s).2 ∧ R (p.run s).1 ((as.mapM f).run s).1

namespace Passes

variable {f : α → StateM σ β} {p : StateM σ γ} {as bs : List α} {R : γ → List β → Prop}

private theorem pure {c : γ} (h : R c []) : Passes f (pure c) [] R := fun _ => ⟨rfl, h⟩

/-- A visit passes one annotation. -/
private theorem visit (a : α) : Passes f (f a) [a] fun b visited => visited = [b] := by
  intro s
  rw [List.mapM_cons, List.mapM_nil]
  exact ⟨rfl, rfl⟩

/-- Runs one after the other pass the annotations of both. -/
private theorem bind {q : γ → StateM σ δ} {S : δ → List β → Prop} (hp : Passes f p as R)
    (hq : ∀ c first, R c first → Passes f (q c) bs fun d later => S d (first ++ later)) :
    Passes f (p >>= q) (as ++ bs) S := by
  intro s
  obtain ⟨hstate, hfirst⟩ := hp s
  obtain ⟨hstate', hlater⟩ := hq _ _ hfirst (p.run s).2
  -- the later annotations are visited in the state that the first ones leave
  have hvisits : ((as ++ bs).mapM f).run s =
      (((as.mapM f).run s).1 ++ ((bs.mapM f).run (p.run s).2).1,
        ((bs.mapM f).run (p.run s).2).2) := by
    rw [List.mapM_append, ← hstate]
    rfl
  rw [hvisits]
  exact ⟨hstate', hlater⟩

/-- The last step of an action that builds something from what it has passed on. -/
private theorem map {S : δ → List β → Prop} {g : γ → δ} (hp : Passes f p as R)
    (h : ∀ c visited, R c visited → S (g c) visited) :
    Passes f (p >>= fun c => Pure.pure (g c)) as S := by
  have hlast (c : γ) (first : List β) (hc : R c first) :
      Passes f (Pure.pure (g c)) [] fun d later => S d (first ++ later) :=
    pure (by simpa using h c first hc)
  have hall := hp.bind hlast
  rwa [List.append_nil] at hall

private theorem of_eq (hp : Passes f p as R) (h : as = bs) : Passes f p bs R := h ▸ hp

end Passes

namespace Exp

variable {f : α → StateM σ β}

/-- The action gives the expression with the results of the visits for its annotations. -/
private def Relabels (f : α → StateM σ β) (e : Exp α) : Prop :=
  Passes f (e.mapAnnM f) e.listed fun t visited =>
    t.listed = visited ∧ t.mapAnn noAnn = e.mapAnn noAnn

/-! ## Containers -/

/-- Parameters pass their annotations in order and keep the rest. -/
private theorem passes_params (f : α → StateM σ β) (ps : List (Param α)) :
    Passes f (mapParamsM f ps) (ps.map (·.ann)) fun qs visited =>
      qs.map (·.ann) = visited ∧ qs.map (Param.map noAnn) = ps.map (Param.map noAnn) := by
  induction ps with
  | nil => exact .pure ⟨rfl, rfl⟩
  | cons p ps ih =>
    refine (Passes.visit p.ann).bind fun b first hb => ih.map fun qs later hqs => ?_
    simp [hb, hqs, Param.map, noAnn]

/-- Expressions of a list pass their annotations in order and keep the rest. -/
private theorem passes_all {es : List (Exp α)} (h : ∀ e ∈ es, Relabels f e) :
    Passes f (mapAllM f es) (es.flatMap listed) fun ts visited =>
      ts.flatMap listed = visited ∧ ts.map (mapAnn noAnn) = es.map (mapAnn noAnn) := by
  induction es with
  | nil => exact .pure ⟨rfl, rfl⟩
  | cons e es ih =>
    obtain ⟨he, hes⟩ := List.forall_mem_cons.1 h
    refine he.bind fun t first ht => (ih hes).map fun ts later hts => ?_
    simp [ht, hts]

/-- Arms pass the annotations of their bodies in order and keep the rest. -/
private theorem passes_arms {arms : List (Arm (Exp α))} (h : ∀ arm ∈ arms, Relabels f arm.body) :
    Passes f (mapArmsM f arms) (arms.flatMap fun arm => arm.body.listed) fun ts visited =>
      (ts.flatMap fun arm => arm.body.listed) = visited ∧
        ts.map (Arm.map (mapAnn noAnn)) = arms.map (Arm.map (mapAnn noAnn)) := by
  induction arms with
  | nil => exact .pure ⟨rfl, rfl⟩
  | cons arm arms ih =>
    obtain ⟨harm, harms⟩ := List.forall_mem_cons.1 h
    refine harm.bind fun t first ht => (ih harms).map fun ts later hts => ?_
    simp [ht, hts, Arm.map]

/-- Functions pass their own annotations, those of their parameters and those of their bodies, in
    order. -/
private theorem passes_funcs {fs : List (Func α (Exp α))} (h : ∀ g ∈ fs, Relabels f g.body) :
    Passes f (mapFuncsM f fs) (fs.flatMap fun g => (Role.body g).anns ++ g.body.listed)
      fun ts visited =>
        (ts.flatMap fun g => (Role.body g).anns ++ g.body.listed) = visited ∧
          ts.map (Func.map noAnn (mapAnn noAnn)) = fs.map (Func.map noAnn (mapAnn noAnn)) := by
  induction fs with
  | nil => exact .pure ⟨rfl, rfl⟩
  | cons g fs ih =>
    obtain ⟨hg, hfs⟩ := List.forall_mem_cons.1 h
    rw [List.flatMap_cons, Role.anns, List.append_assoc, List.cons_append]
    refine (Passes.visit g.ann).bind fun b _ hb => (passes_params f g.params).bind fun ps _ hps =>
      hg.bind fun t _ ht => (ih hfs).map fun ts _ hts => ?_
    obtain ⟨rfl, hrest⟩ := hts
    simp [hb, hps, ht, hrest, Role.anns, Func.map, noAnn]

/-- Paths pass the annotations of their computed offsets in order and keep the rest. -/
private theorem passes_path {path : List (Step (Exp α))} (h : ∀ e ∈ offsets path, Relabels f e) :
    Passes f (mapPathM f path) ((offsets path).flatMap listed) fun ts visited =>
      (offsets ts).flatMap listed = visited ∧
        ts.map (Step.map (mapAnn noAnn)) = path.map (Step.map (mapAnn noAnn)) := by
  induction path with
  | nil => exact .pure ⟨rfl, rfl⟩
  | cons step path ih =>
    rw [offsets_cons, List.forall_mem_append] at h
    cases step with
    | field | element => exact (ih h.2).map fun ts _ hts => by simp [hts, Step.map]
    | lane e | index e =>
      refine (h.1 e (by simp)).bind fun t _ ht => (ih h.2).map fun ts _ hts => ?_
      simp [ht, hts, Step.map]

/-! ## Forms -/

/-- In every expression the visitor sees the root, and then what is in the parts. -/
private theorem relabels (f : α → StateM σ β) (e : Exp α) : Relabels f e := by
  -- the parts are passed in the order in which their annotations are listed, and each gets its own
  -- back
  induction e with
  | var a id | int a value width =>
    exact (Passes.visit a).map fun b _ hb => by simp [hb, noAnn]
  | ascribe a inner ty ih | coerce a inner ty ih =>
    refine ((Passes.visit a).bind fun b _ hb => ih.map fun t _ ht => ?_).of_eq (by simp)
    simp [hb, ht, noAnn]
  | prim a op es ih | tuple a es ih | vector a es ih =>
    refine ((Passes.visit a).bind fun b _ hb => (passes_all ih).map fun ts _ hts => ?_).of_eq
      (by simp)
    simp [hb, hts, noAnn]
  | letIn a name ty value body hvalue hbody =>
    refine ((Passes.visit a).bind fun b _ hb => hvalue.bind fun t _ ht =>
      hbody.map fun u _ hu => ?_).of_eq (by simp)
    simp [hb, ht, hu, noAnn]
  | call a callee args hcallee hargs =>
    refine ((Passes.visit a).bind fun b _ hb => hcallee.bind fun t _ ht =>
      (passes_all hargs).map fun ts _ hts => ?_).of_eq (by simp)
    simp [hb, ht, hts, noAnn]
  | caseOf a scrutinee arms hscrutinee harms =>
    refine ((Passes.visit a).bind fun b _ hb => hscrutinee.bind fun t _ ht =>
      (passes_arms harms).map fun ts _ hts => ?_).of_eq (by simp)
    simp [hb, ht, hts, noAnn]
  | recIn a fs body hfs hbody =>
    refine ((Passes.visit a).bind fun b _ hb => (passes_funcs hfs).bind fun ts _ hts =>
      hbody.map fun t _ ht => ?_).of_eq (by simp)
    simp [hb, hts, ht, noAnn]
  | gep a base path hbase hpath | load a base path hbase hpath =>
    refine ((Passes.visit a).bind fun b _ hb => hbase.bind fun t _ ht =>
      (passes_path hpath).map fun ts _ hts => ?_).of_eq (by simp)
    simp [hb, ht, hts, noAnn]
  | store a dest path value body hdest hpath hvalue hbody =>
    refine ((Passes.visit a).bind fun b _ hb => hdest.bind fun t _ ht =>
      (passes_path hpath).bind fun ts _ hts => hvalue.bind fun u _ hu =>
        hbody.map fun v _ hv => ?_).of_eq (by simp)
    simp [hb, ht, hts, hu, hv, noAnn]
  | update a base path value hbase hpath hvalue =>
    refine ((Passes.visit a).bind fun b _ hb => hbase.bind fun t _ ht =>
      (passes_path hpath).bind fun ts _ hts => hvalue.map fun u _ hu => ?_).of_eq (by simp)
    simp [hb, ht, hts, hu, noAnn]

/-- A visitor that notes what it sees, the latest in front. -/
private theorem mapM_note (as found : List α) :
    ((as.mapM fun a => (modify (a :: ·) : StateM (List α) Unit)).run found).2 =
      as.reverse ++ found := by
  induction as generalizing found with
  | nil => rfl
  | cons a as ih =>
    rw [run_mapM_cons, List.reverse_cons, List.append_assoc]
    exact ih (a :: found)

/-- The visits go in the order of the parts. -/
theorem anns_eq_listed (e : Exp α) : e.anns = e.listed := by
  have hnoted := mapM_note e.listed []
  rw [(relabels _ e []).1, List.append_nil] at hnoted
  exact (congrArg List.reverse hnoted).trans (List.reverse_reverse _)

/-- The annotation of a node is visited first, then those of its parts in source order, each after
    what stands beside it. -/
theorem anns_eq (e : Exp α) : e.anns = e.ann :: e.parts.flatMap fun p => p.1.anns ++ p.2.anns := by
  simp only [anns_eq_listed]
  exact listed_eq e

/-- A visitor sees the annotations of a tree in order. What it gives stands, in the same order, in
    the tree that it makes, which is the tree it was given but for annotations. -/
theorem mapAnnM_run (f : α → StateM σ β) (e : Exp α) (s : σ) :
    (e.anns.mapM f).run s = (((e.mapAnnM f).run s).1.anns, ((e.mapAnnM f).run s).2) ∧
      ((e.mapAnnM f).run s).1.mapAnn noAnn = e.mapAnn noAnn := by
  obtain ⟨hstate, hlisted, hbare⟩ := relabels f e s
  rw [anns_eq_listed, anns_eq_listed]
  exact ⟨Prod.ext hlisted.symm hstate, hbare⟩

end Exp

end BranchIR
