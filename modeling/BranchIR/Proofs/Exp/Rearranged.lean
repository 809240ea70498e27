import BranchIR.Proofs.Exp.Binding
import Mathlib.Data.List.Perm.Basic

/-!
# Bundles in another order

Two trees are rearranged when they are the same but for the order of the functions in their
bundles. Corresponding nodes stand in corresponding parts, so what is used, bound and free in a tree
does not depend on the order.
-/

namespace BranchIR

open Exp

variable {α : Type}

/-- The trees are the same, with the same annotations, but for the order of the functions in
    bundles. Corresponding expressions of a list, and corresponding functions, are held in pairs. -/
inductive Rearranged : Exp α → Exp α → Prop
  | var {a id} : Rearranged (.var a id) (.var a id)
  | int {a value width} : Rearranged (.int a value width) (.int a value width)
  | ascribe {a e e' ty} (inner : Rearranged e e') :
      Rearranged (.ascribe a e ty) (.ascribe a e' ty)
  | coerce {a e e' ty} (inner : Rearranged e e') : Rearranged (.coerce a e ty) (.coerce a e' ty)
  | prim {a op} {args : List (Exp α × Exp α)} (operands : ∀ p ∈ args, Rearranged p.1 p.2) :
      Rearranged (.prim a op (args.map Prod.fst)) (.prim a op (args.map Prod.snd))
  | letIn {a name ty value value' body body'} (bound : Rearranged value value')
      (uses : Rearranged body body') :
      Rearranged (.letIn a name ty value body) (.letIn a name ty value' body')
  | call {a callee callee'} {args : List (Exp α × Exp α)} (function : Rearranged callee callee')
      (arguments : ∀ p ∈ args, Rearranged p.1 p.2) :
      Rearranged (.call a callee (args.map Prod.fst)) (.call a callee' (args.map Prod.snd))
  | caseOf {a scrutinee scrutinee'} {arms : List (Arm (Exp α × Exp α))}
      (switch : Rearranged scrutinee scrutinee')
      (bodies : ∀ arm ∈ arms, Rearranged arm.body.1 arm.body.2) :
      Rearranged (.caseOf a scrutinee (arms.map (Arm.map Prod.fst)))
        (.caseOf a scrutinee' (arms.map (Arm.map Prod.snd)))
  /-- The one form where an order may differ. -/
  | recIn {a body body'} {fs gs : List (Func α (Exp α × Exp α))} (order : fs.Perm gs)
      (bodies : ∀ f ∈ fs, Rearranged f.body.1 f.body.2) (uses : Rearranged body body') :
      Rearranged (.recIn a (fs.map (Func.map id Prod.fst)) body)
        (.recIn a (gs.map (Func.map id Prod.snd)) body')
  | tuple {a} {elems : List (Exp α × Exp α)} (parts : ∀ p ∈ elems, Rearranged p.1 p.2) :
      Rearranged (.tuple a (elems.map Prod.fst)) (.tuple a (elems.map Prod.snd))
  | vector {a} {elems : List (Exp α × Exp α)} (lanes : ∀ p ∈ elems, Rearranged p.1 p.2) :
      Rearranged (.vector a (elems.map Prod.fst)) (.vector a (elems.map Prod.snd))
  | gep {a base base'} {path : List (Step (Exp α × Exp α))} (pointer : Rearranged base base')
      (offsets : ∀ p ∈ path.filterMap Step.offset?, Rearranged p.1 p.2) :
      Rearranged (.gep a base (path.map (Step.map Prod.fst)))
        (.gep a base' (path.map (Step.map Prod.snd)))
  | load {a base base'} {path : List (Step (Exp α × Exp α))} (pointer : Rearranged base base')
      (offsets : ∀ p ∈ path.filterMap Step.offset?, Rearranged p.1 p.2) :
      Rearranged (.load a base (path.map (Step.map Prod.fst)))
        (.load a base' (path.map (Step.map Prod.snd)))
  | store {a dest dest' value value' body body'} {path : List (Step (Exp α × Exp α))}
      (pointer : Rearranged dest dest')
      (offsets : ∀ p ∈ path.filterMap Step.offset?, Rearranged p.1 p.2)
      (written : Rearranged value value') (next : Rearranged body body') :
      Rearranged (.store a dest (path.map (Step.map Prod.fst)) value body)
        (.store a dest' (path.map (Step.map Prod.snd)) value' body')
  | update {a base base' value value'} {path : List (Step (Exp α × Exp α))}
      (aggregate : Rearranged base base')
      (offsets : ∀ p ∈ path.filterMap Step.offset?, Rearranged p.1 p.2)
      (written : Rearranged value value') :
      Rearranged (.update a base (path.map (Step.map Prod.fst)) value)
        (.update a base' (path.map (Step.map Prod.snd)) value')

/-- What a function says but for its body. -/
def Func.head {ε : Type} (f : Func α ε) : Func α Unit := f.map id fun _ => ()

/-- The roles are the same, but for the bodies of the functions they name. -/
inductive RoleAlike : Role α → Role α → Prop
  | refl {role : Role α} : RoleAlike role role
  | body {f f' : Func α (Exp α)} (heads : f.head = f'.head) : RoleAlike (.body f) (.body f')

/-- Functions that agree but for their bodies have one name. -/
theorem Func.name_eq_of_head {ε : Type} {f f' : Func α ε} (h : f.head = f'.head) :
    f.name = f'.name :=
  congrArg (fun g => g.name) h

/-- Functions that agree but for their bodies have the same parameters. -/
theorem Func.params_eq_of_head {ε : Type} {f f' : Func α ε} (h : f.head = f'.head) :
    f.params.map (·.name) = f'.params.map (·.name) := by
  have hparams := congrArg (fun g => g.params.map (·.name)) h
  simpa only [head, Func.paramNames_map] using hparams

/-- Corresponding nodes are passed, in corresponding roles. -/
abbrev TrailAlike (trail trail' : Trail α) : Prop :=
  List.Forall₂ (fun step step' => Rearranged step.1 step'.1 ∧ RoleAlike step.2 step'.2)
    trail trail'

namespace Rearranged

variable {e e' : Exp α}

/-! ## Symmetry -/

/-- Every expression is paired with itself. -/
theorem refl (e : Exp α) : Rearranged e e := by
  -- an expression is paired with itself
  have hall {es : List (Exp α)} (h : ∀ e ∈ es, Rearranged e e) :
      ∀ p ∈ es.map fun e => (e, e), Rearranged p.1 p.2 := List.forall_mem_map.2 h
  have hpath {path : List (Step (Exp α))} (h : ∀ e ∈ offsets path, Rearranged e e) :
      ∀ p ∈ (path.map (Step.map fun e => (e, e))).filterMap Step.offset?, Rearranged p.1 p.2 := by
    rw [Step.offsets_map]
    exact hall h
  have hsteps (path : List (Step (Exp α))) : path.map (Step.map fun e => e) = path := by
    refine (List.map_congr_left fun step _ => ?_).trans (List.map_id path)
    cases step <;> rfl
  induction e with
  | var => exact .var
  | int => exact .int
  | ascribe _ _ _ ih => exact .ascribe ih
  | coerce _ _ _ ih => exact .coerce ih
  | prim a op args ih => simpa [Function.comp_def] using @prim _ a op _ (hall ih)
  | letIn _ _ _ _ _ hvalue hbody => exact .letIn hvalue hbody
  | call a _ args hcallee hargs =>
    simpa [Function.comp_def] using @call _ a _ _ _ hcallee (hall hargs)
  | caseOf a _ arms hscrutinee harms =>
    have h := @caseOf _ a _ _ (arms.map (Arm.map fun e => (e, e))) hscrutinee
      (List.forall_mem_map.2 harms)
    simpa [Function.comp_def, Arm.map] using h
  | recIn a fs _ hfs hbody =>
    -- the functions stay in the order that they have
    have h := @recIn _ a _ _ (fs.map (Func.map id fun e => (e, e))) _ (.refl _)
      (List.forall_mem_map.2 hfs) hbody
    simpa [Function.comp_def, Func.map, Param.map] using h
  | tuple a elems ih => simpa [Function.comp_def] using @tuple _ a _ (hall ih)
  | vector a elems ih => simpa [Function.comp_def] using @vector _ a _ (hall ih)
  | gep a _ path hbase hoffsets =>
    simpa [Function.comp_def, hsteps] using @gep _ a _ _ _ hbase (hpath hoffsets)
  | load a _ path hbase hoffsets =>
    simpa [Function.comp_def, hsteps] using @load _ a _ _ _ hbase (hpath hoffsets)
  | store a _ path _ _ hdest hoffsets hvalue hbody =>
    simpa [Function.comp_def, hsteps] using
      @store _ a _ _ _ _ _ _ _ hdest (hpath hoffsets) hvalue hbody
  | update a _ path _ hbase hoffsets hvalue =>
    simpa [Function.comp_def, hsteps] using @update _ a _ _ _ _ _ hbase (hpath hoffsets) hvalue

/-- A bundle with its functions in another order. -/
theorem of_perm {a : α} {fs gs : List (Func α (Exp α))} {body : Exp α} (order : fs.Perm gs) :
    Rearranged (.recIn a fs body) (.recIn a gs body) := by
  have hpairs : ∀ f ∈ fs.map (Func.map id fun e => (e, e)), Rearranged f.body.1 f.body.2 :=
    List.forall_mem_map.2 fun f _ => refl f.body
  have h := @recIn _ a _ _ _ _ (order.map (Func.map id fun e => (e, e))) hpairs (refl body)
  simpa [Function.comp_def, Func.map, Param.map] using h

/-- The pairs are swapped. -/
theorem symm (h : Rearranged e e') : Rearranged e' e := by
  -- pairs are swapped, and what holds of the pairs is carried over to the swapped ones
  have hpath {path : List (Step (Exp α × Exp α))}
      (h : ∀ p ∈ path.filterMap Step.offset?, Rearranged p.2 p.1) :
      ∀ p ∈ (path.map (Step.map Prod.swap)).filterMap Step.offset?, Rearranged p.1 p.2 := by
    rw [Step.offsets_map]
    exact List.forall_mem_map.2 h
  have hswap (f : Exp α × Exp α → Exp α) (fs : List (Func α (Exp α × Exp α))) :
      (fs.map (Func.map id Prod.swap)).map (Func.map id f) =
        fs.map (Func.map id (f ∘ Prod.swap)) := by
    rw [List.map_map]
    exact List.map_congr_left fun g _ => Func.map_map ..
  induction h with
  | var => exact .var
  | int => exact .int
  | ascribe _ ih => exact .ascribe ih
  | coerce _ ih => exact .coerce ih
  | @prim a op args _ ih =>
    simpa [Function.comp_def] using @prim _ a op (args.map Prod.swap) (List.forall_mem_map.2 ih)
  | letIn _ _ hvalue hbody => exact .letIn hvalue hbody
  | @call a _ _ args _ _ hcallee hargs =>
    simpa [Function.comp_def] using
      @call _ a _ _ (args.map Prod.swap) hcallee (List.forall_mem_map.2 hargs)
  | @caseOf a _ _ arms _ _ hscrutinee harms =>
    simpa [Function.comp_def] using
      @caseOf _ a _ _ (arms.map (Arm.map Prod.swap)) hscrutinee (List.forall_mem_map.2 harms)
  | @recIn a _ _ fs gs order _ _ hfs hbody =>
    -- the other order, taken back
    have hgs : ∀ g ∈ gs.map (Func.map id Prod.swap), Rearranged g.body.1 g.body.2 :=
      List.forall_mem_map.2 fun g hg => hfs g (order.mem_iff.2 hg)
    have h := @recIn _ a _ _ _ _ (order.symm.map _) hgs hbody
    rwa [hswap, hswap] at h
  | @tuple a elems _ ih =>
    simpa [Function.comp_def] using @tuple _ a (elems.map Prod.swap) (List.forall_mem_map.2 ih)
  | @vector a elems _ ih =>
    simpa [Function.comp_def] using @vector _ a (elems.map Prod.swap) (List.forall_mem_map.2 ih)
  | @gep a _ _ path _ _ hbase hoffsets =>
    simpa [Function.comp_def] using @gep _ a _ _ _ hbase (hpath hoffsets)
  | @load a _ _ path _ _ hbase hoffsets =>
    simpa [Function.comp_def] using @load _ a _ _ _ hbase (hpath hoffsets)
  | @store a _ _ _ _ _ _ path _ _ _ _ hdest hoffsets hvalue hbody =>
    simpa [Function.comp_def] using
      @store _ a _ _ _ _ _ _ _ hdest (hpath hoffsets) hvalue hbody
  | @update a _ _ _ _ path _ _ _ hbase hoffsets hvalue =>
    simpa [Function.comp_def] using @update _ a _ _ _ _ _ hbase (hpath hoffsets) hvalue

/-! ## Corresponding nodes -/

/-- Corresponding nodes have the same annotation. -/
theorem ann_eq (h : Rearranged e e') : e.ann = e'.ann := by
  cases h <;> rfl

/-- Corresponding nodes are the same variable, if they are variables. -/
private theorem var?_eq (h : Rearranged e e') : e.var? = e'.var? := by
  cases h <;> rfl

/-- Corresponding nodes bind the same, in an order that may differ. -/
theorem binders_perm (h : Rearranged e e') : e.binders.Perm e'.binders := by
  cases h with
  | recIn order bodies uses =>
    have hnames := order.map (·.name)
    have hparams := order.flatMap_right fun f => f.params.map (·.name)
    simpa [binders, List.flatMap_map, Function.comp_def] using hnames.append hparams
  | _ => exact .refl _

/-- The offsets of one side of a path of pairs. -/
theorem offsets_pairs {δ : Type} (f : δ → Exp α) (path : List (Step δ)) :
    offsets (path.map (Step.map f)) = (path.filterMap Step.offset?).map f :=
  Step.offsets_map f path

/-- Both expressions of a pair, as parts in the role. -/
def both (role : Role α) (p : Exp α × Exp α) : (Role α × Exp α) × (Role α × Exp α) :=
  ((role, p.1), (role, p.2))

/-- Corresponding expressions in one role are corresponding parts. -/
private theorem forall_mem_both {es : List (Exp α × Exp α)} (role : Role α)
    (h : ∀ p ∈ es, Rearranged p.1 p.2) :
    ∀ p ∈ es.map (both role), RoleAlike p.1.1 p.2.1 ∧ Rearranged p.1.2 p.2.2 :=
  List.forall_mem_map.2 fun p hp => ⟨.refl, h p hp⟩

attribute [local simp] Exp.parts offsets_pairs both Function.comp_def Arm.map in
/-- The parts of corresponding nodes correspond, in an order that may differ. -/
theorem parts (h : Rearranged e e') :
    ∃ ps : List ((Role α × Exp α) × (Role α × Exp α)),
      ps.map Prod.fst = e.parts ∧ (ps.map Prod.snd).Perm e'.parts ∧
        ∀ p ∈ ps, RoleAlike p.1.1 p.2.1 ∧ Rearranged p.1.2 p.2.2 := by
  have hone {role : Role α} {e e' : Exp α} (h : Rearranged e e') :
      RoleAlike (both role (e, e')).1.1 (both role (e, e')).2.1 ∧
        Rearranged (both role (e, e')).1.2 (both role (e, e')).2.2 := ⟨.refl, h⟩
  -- all forms but a bundle keep the order of their parts
  cases h with
  | var | int => exact ⟨[], rfl, .nil, List.forall_mem_nil _⟩
  | @ascribe _ e e' _ inner =>
    exact ⟨[both .same (e, e')], rfl, .refl _, List.forall_mem_singleton.2 (hone inner)⟩
  | @coerce _ e e' _ inner =>
    exact ⟨[both .operand (e, e')], rfl, .refl _, List.forall_mem_singleton.2 (hone inner)⟩
  | @prim _ _ es hes | @tuple _ es hes | @vector _ es hes =>
    exact ⟨es.map (both .operand), by simp, .of_eq (by simp),
      forall_mem_both _ hes⟩
  | @letIn _ _ _ value value' body body' hvalue hbody =>
    exact ⟨[both .operand (value, value'), both .under (body, body')], rfl, .refl _,
      List.forall_mem_cons.2 ⟨hone hvalue, List.forall_mem_singleton.2 (hone hbody)⟩⟩
  | @call _ callee callee' args hcallee hargs =>
    exact ⟨both .callee (callee, callee') :: args.map (both .operand), by simp,
      .of_eq (by simp), List.forall_mem_cons.2 ⟨hone hcallee, forall_mem_both _ hargs⟩⟩
  | @caseOf _ scrutinee scrutinee' arms hscrutinee harms =>
    exact ⟨both .operand (scrutinee, scrutinee') :: (arms.map (·.body)).map (both .same),
      by simp, .of_eq (by simp), List.forall_mem_cons.2
        ⟨hone hscrutinee, forall_mem_both _ (List.forall_mem_map.2 harms)⟩⟩
  | @recIn _ body body' fs gs order hfs hbody =>
    -- bodies go where their functions go, with the same head
    let pair (f : Func α (Exp α × Exp α)) : (Role α × Exp α) × (Role α × Exp α) :=
      ((.body (f.map id Prod.fst), f.body.1), (.body (f.map id Prod.snd), f.body.2))
    refine ⟨fs.map pair ++ [both .after (body, body')], by simp [pair], ?_, ?_⟩
    · simpa [pair] using (order.map (Prod.snd ∘ pair)).append_right [(.after, body')]
    · refine List.forall_mem_append.2 ⟨List.forall_mem_map.2 fun f hf => ⟨.body ?_, hfs f hf⟩,
        List.forall_mem_singleton.2 (hone hbody)⟩
      simp [Func.head]
  | @gep _ base base' path hbase hpath | @load _ base base' path hbase hpath =>
    exact ⟨both .operand (base, base') :: (path.filterMap Step.offset?).map (both .operand),
      by simp, .of_eq (by simp), List.forall_mem_cons.2 ⟨hone hbase, forall_mem_both _ hpath⟩⟩
  | @store _ dest dest' value value' body body' path hdest hpath hvalue hbody =>
    refine ⟨both .operand (dest, dest') :: ((path.filterMap Step.offset?).map (both .operand) ++
      [both .operand (value, value'), both .same (body, body')]), by simp, .of_eq (by simp), ?_⟩
    exact List.forall_mem_cons.2 ⟨hone hdest, List.forall_mem_append.2 ⟨forall_mem_both _ hpath,
      List.forall_mem_cons.2 ⟨hone hvalue, List.forall_mem_singleton.2 (hone hbody)⟩⟩⟩
  | @update _ base base' value value' path hbase hpath hvalue =>
    refine ⟨both .operand (base, base') :: ((path.filterMap Step.offset?).map (both .operand) ++
      [both .operand (value, value')]), by simp, .of_eq (by simp), ?_⟩
    exact List.forall_mem_cons.2 ⟨hone hbase, List.forall_mem_append.2 ⟨forall_mem_both _ hpath,
      List.forall_mem_singleton.2 (hone hvalue)⟩⟩

/-- A part has a corresponding part, in a corresponding role. -/
theorem part {role : Role α} {p : Exp α} (h : Rearranged e e') (hp : (role, p) ∈ e.parts) :
    ∃ role' p', (role', p') ∈ e'.parts ∧ RoleAlike role role' ∧ Rearranged p p' := by
  obtain ⟨ps, hparts, horder, halike⟩ := h.parts
  rw [← hparts, List.mem_map] at hp
  obtain ⟨⟨_, role', p'⟩, hp, rfl⟩ := hp
  exact ⟨role', p', horder.subset (List.mem_map_of_mem hp), halike _ hp⟩

/-- Corresponding functions say the same but for their bodies, which correspond. -/
theorem func {f : Func α (Exp α)} (h : Rearranged e e') (hf : f ∈ e.funcs) :
    ∃ f' ∈ e'.funcs, f.head = f'.head ∧ Rearranged f.body f'.body := by
  cases h with
  | recIn order bodies uses =>
    obtain ⟨g, hg, rfl⟩ := List.mem_map.1 hf
    refine ⟨_, List.mem_map_of_mem (order.subset hg), ?_, bodies g hg⟩
    simp [Func.head, Function.comp_def]
  | _ => simp [funcs] at hf

/-- Corresponding bundles have the same names, in an order that may differ. -/
theorem names_perm (h : Rearranged e e') :
    (e.funcs.map (·.name)).Perm (e'.funcs.map (·.name)) := by
  cases h with
  | recIn order bodies uses =>
    simpa [funcs, Function.comp_def] using order.map (·.name)
  | _ => exact .refl _

/-! ## What is used, bound and free -/

/-- Rearranged trees bind the same, in an order that may differ. -/
theorem bound_perm (h : Rearranged e e') : e.bound.Perm e'.bound := by
  induction e using Exp.induct generalizing e' with
  | step e ih =>
    obtain ⟨ps, hparts, horder, halike⟩ := h.parts
    have hbelow : (ps.flatMap fun p => p.1.2.bound).Perm (ps.flatMap fun p => p.2.2.bound) := by
      refine List.Perm.flatMap_left _ fun p hp => ih p.1.2 ?_ (halike p hp).2
      exact mem_children_of_mem_parts (hparts ▸ List.mem_map_of_mem hp)
    rw [bound_eq, bound_eq, ← parts_snd, ← parts_snd, ← hparts]
    refine h.binders_perm.append (.trans ?_ ((horder.map Prod.snd).flatMap_right _))
    simpa [List.flatMap_map] using hbelow

/-- A place of one tree has a corresponding place of the other, with corresponding nodes on the
    way. -/
theorem leads {x : Exp α} {trail : Trail α} (h : Rearranged e e') (hl : Leads e trail x) :
    ∃ trail' x', Leads e' trail' x' ∧ Rearranged x x' ∧ TrailAlike trail trail' := by
  induction hl generalizing e' with
  | here => exact ⟨[], e', .here, h, .nil⟩
  | down hp _ ih =>
    obtain ⟨role', p', hp', hrole, hpart⟩ := h.part hp
    obtain ⟨trail', x', hl', hx, htrail⟩ := ih hpart
    exact ⟨_, x', .down hp' hl', hx, .cons ⟨h, hrole⟩ htrail⟩

/-- What is used in a tree is used in a rearranged one. -/
theorem mem_uses {x : VarId} (h : Rearranged e e') (hx : x ∈ e.uses) : x ∈ e'.uses := by
  obtain ⟨node, hnode, hvar⟩ := Exp.mem_uses.1 hx
  obtain ⟨trail, hl⟩ := mem_preorder_iff_leads.1 hnode
  obtain ⟨trail', node', hl', halike, -⟩ := h.leads hl
  exact Exp.mem_uses.2 ⟨node', hl'.mem_preorder, halike.var?_eq ▸ hvar⟩

/-- The same is free in rearranged trees, since sets forget the order. -/
theorem freeVars_eq (h : Rearranged e e') : e.freeVars = e'.freeVars := by
  refine VarSet.ext fun x => ?_
  rw [mem_freeVars, mem_freeVars, h.bound_perm.mem_iff]
  exact and_congr_left' ⟨h.mem_uses, h.symm.mem_uses⟩

end Rearranged

end BranchIR
