import BranchIR.Proofs.Exp.Visits
import BranchIR.Proofs.Ty.Numbers
import BranchIR.Proofs.Typing.Rules
import BranchIR.Proofs.Typing.Subtrees

/-!
# The sizes in recorded types

The checker makes types out of the types that are written in an expression, the widths of its
literals, and the numbers of elements of its vectors. If all of these are in range, then so are the
numbers in every type that it records.
-/

namespace BranchIR

open Exp

variable {α β : Type} {bound : Nat}

/-! ## Sizes in an expression -/

namespace Exp

/-- The numbers in the root from which types are made are in range. -/
def RootSized (bound : Nat) : Exp α → Prop
  | .int _ _ width => (Ty.int width).Sized bound
  | .ascribe _ _ ty | .coerce _ _ ty | .letIn _ _ ty _ _ => ty.Sized bound
  | .recIn _ fs _ => ∀ f ∈ fs, f.ty.Sized bound
  | .vector _ elems => elems.length ≤ bound
  | .var .. | .prim .. | .call .. | .caseOf .. | .tuple .. | .gep .. | .load .. | .store ..
  | .update .. => True

/-- The numbers in the expression from which types are made are in range. -/
def Sized (bound : Nat) (e : Exp α) : Prop := ∀ node ∈ e.preorder, node.RootSized bound

/-- The numbers at the root are bounded. -/
private theorem Sized.root {e : Exp α} (h : e.Sized bound) : e.RootSized bound :=
  h e (mem_preorder_self e)

/-- The numbers in a direct subexpression are bounded. -/
private theorem Sized.child {e child : Exp α} (h : e.Sized bound) (hc : child ∈ e.children) :
    child.Sized bound :=
  fun node hnode => h node (mem_preorder_of_child hc hnode)

private theorem rootSized_mapAnn (f : α → β) (e : Exp α) :
    (e.mapAnn f).RootSized bound ↔ e.RootSized bound := by
  cases e <;> simp [RootSized]

@[simp] theorem sized_mapAnn (f : α → β) (e : Exp α) :
    (e.mapAnn f).Sized bound ↔ e.Sized bound := by
  simp only [Sized, preorder_mapAnn, List.forall_mem_map, rootSized_mapAnn]

end Exp

private theorem Func.params_sized {ε : Type} {f : Func α ε} (h : f.ty.Sized bound) :
    ∀ p ∈ f.params, p.ty.Sized bound :=
  List.forall_mem_map.1 (Ty.sized_fn.1 h).1

/-! ## Sizes in a context -/

/-- The numbers in the types of the identities in scope are in range. -/
def TyContext.Sized (bound : Nat) (Γ : TyContext) : Prop := ∀ id T, Γ id = some T → T.Sized bound

namespace TyContext.Sized

variable {Γ : TyContext}

/-- A context stays bounded when a bounded type is bound. -/
private theorem bind (h : Γ.Sized bound) {ty : Ty} (hty : ty.Sized bound) (id : VarId) :
    (Γ.bind id ty).Sized bound := by
  intro x T hx
  rw [TyContext.bind] at hx
  split at hx
  · cases hx
    exact hty
  · exact h x T hx

/-- A context stays bounded when bounded types are bound. -/
private theorem bindAll (h : Γ.Sized bound) {bindings : List (VarId × Ty)}
    (hall : ∀ b ∈ bindings, b.2.Sized bound) : (Γ.bindAll bindings).Sized bound := by
  induction bindings generalizing Γ with
  | nil => exact h
  | cons b bs ih =>
    obtain ⟨hb, hbs⟩ := List.forall_mem_cons.1 hall
    exact ih (h.bind hb b.1) hbs

/-- A context stays bounded when functions with bounded types are bound. -/
private theorem bundle (h : Γ.Sized bound) {ε : Type} {fs : List (Func Span ε)}
    (hfs : ∀ f ∈ fs, f.ty.Sized bound) : (Γ.bundle fs).Sized bound :=
  h.bindAll (List.forall_mem_map.2 hfs)

end TyContext.Sized

theorem Env.empty_sized (tail : Bool) : (Env.empty tail).types.Sized bound := by
  intro id T h
  cases h

/-! ## Types by the rules -/

/-- The parts of a value have no numbers in their types but those in the type of the whole. -/
private theorem PartPath.sized {Γ : TyContext} {T U : Ty} {path : List (Step (Exp Span))}
    (h : PartPath Γ T path U) (hT : T.Sized bound) : U.Sized bound := by
  induction path generalizing T with
  | nil =>
    cases h
    exact hT
  | cons step path ih =>
    cases h with
    | field hfield hrest => exact ih hrest (Ty.sized_tuple.1 hT _ (List.mem_of_getElem? hfield))
    | element _ hrest => exact ih hrest (Ty.sized_array.1 hT).2
    | lane _ hrest => exact ih hrest (Ty.sized_vector.1 hT).2

/-- A path from a bounded type leads to a bounded type. -/
private theorem PointerPath.sized {Γ : TyContext} {target T : Ty} {path : List (Step (Exp Span))}
    (h : PointerPath Γ target path T) (htarget : target.Sized bound) : T.Sized bound := by
  cases h with
  | here => exact htarget
  | index _ hrest => exact hrest.sized htarget

/-- The numbers in the type of an expression are in range, if those in the expression and in the
    types of what is in scope are. -/
theorem HasType.sized {e : Exp Span} {Γ : TyContext} {T : Ty} (h : HasType Γ e T)
    (hΓ : Γ.Sized bound) (he : e.Sized bound) : T.Sized bound := by
  -- the rule of the form says from which part or written type the type comes
  induction e generalizing Γ T with
  | var s id => cases h with | var hbound => exact hΓ id T hbound
  | int s value width => cases h with | int => exact he.root
  | ascribe s inner ty ih => cases h with | ascribe => exact he.root
  | coerce s inner ty ih => cases h with | coerce => exact he.root
  | prim s op args ih =>
    cases h with
    | prim hargs _ htypes =>
      -- all operands have the type of the whole, and there is at least one
      obtain ⟨arg, harg⟩ := List.exists_mem_of_ne_nil args hargs
      exact ih arg harg (htypes arg harg) hΓ (he.child harg)
  | letIn s name ty value body _ ihbody =>
    cases h with
    | letIn _ huses => exact ihbody huses (hΓ.bind he.root name) (he.child (by simp [children]))
  | call s callee args ihcallee _ =>
    cases h with
    | call hfn =>
      -- the result stands in the type of the callee
      exact (Ty.sized_fn.1 (ihcallee hfn hΓ (he.child (by simp [children])))).2
  | caseOf s scrutinee arms _ iharms =>
    cases h with
    | caseOf _ hne _ _ hbodies =>
      obtain ⟨arm, harm⟩ := List.exists_mem_of_ne_nil arms hne
      have hchild : arm.body ∈ (Exp.caseOf s scrutinee arms).children :=
        List.mem_cons_of_mem _ (List.mem_map_of_mem harm)
      exact iharms arm harm (hbodies arm harm) hΓ (he.child hchild)
  | recIn s fs body _ ihbody =>
    cases h with
    | recIn _ huses => exact ihbody huses (hΓ.bundle he.root) (he.child (by simp [children]))
  | tuple s elems ih =>
    cases h with
    | @tuple _ _ _ fields hlen hparts =>
      rw [Ty.sized_tuple]
      intro field hfield
      -- as many elements as fields, so the field is the type of one of them
      have hfields : (elems.zip fields).map Prod.snd = fields :=
        List.map_snd_zip (Nat.le_of_eq hlen.symm)
      rw [← hfields, List.mem_map] at hfield
      obtain ⟨p, hp, rfl⟩ := hfield
      have helem : p.1 ∈ elems := (List.of_mem_zip hp).1
      exact ih p.1 helem (hparts p hp) hΓ (he.child helem)
  | vector s elems ih =>
    cases h with
    | vector hne hlanes =>
      obtain ⟨elem, helem⟩ := List.exists_mem_of_ne_nil elems hne
      -- the length is the number of the elements, which the bound on the root covers
      exact Ty.sized_vector.2 ⟨he.root, ih elem helem (hlanes elem helem) hΓ (he.child helem)⟩
  | gep s base path ihbase _ =>
    cases h with
    | gep hbase hpath =>
      have htarget := ihbase hbase hΓ (he.child (by simp [children]))
      exact Ty.sized_ptr.2 (hpath.sized (Ty.sized_ptr.1 htarget))
  | load s base path ihbase _ =>
    cases h with
    | load hbase hpath =>
      have htarget := ihbase hbase hΓ (he.child (by simp [children]))
      exact hpath.sized (Ty.sized_ptr.1 htarget)
  | store s dest path value body _ _ _ ihbody =>
    cases h with
    | store _ _ _ hnext => exact ihbody hnext hΓ (he.child (by simp [children]))
  | update s base path value ihbase _ _ =>
    cases h with
    | update hbase => exact ihbase hbase hΓ (he.child (by simp [children]))

/-! ## Recorded types -/

namespace Typing

section Recorded

variable {env : Env} {t : Exp Checked}

/-- Checked functions are annotated with their types, and so are their parameters. -/
private theorem typedFuncs_anns {fs : List (Func Span (Exp Span))}
    {fs' : List (Func Checked (Exp Checked))}
    (h : typedFuncs env fs = .ok fs') :
    ∀ f ∈ fs', f.ann.ty = f.ty ∧ ∀ p ∈ f.params, p.ann.ty = p.ty := by
  induction fs generalizing fs' with
  | nil =>
    cases h
    simp
  | cons f fs ih =>
    obtain ⟨body, rest, -, hrest, rfl⟩ := typedFuncs_cons_eq_ok.1 h
    refine List.forall_mem_cons.2 ⟨⟨?_, List.forall_mem_map.2 fun p _ => rfl⟩, ih hrest⟩
    simp [Func.ty, typedParam, Function.comp_def]

/-- What is recorded at functions and parameters are their own types. -/
private theorem Reinfers.funcs (h : Reinfers env t) :
    ∀ f ∈ t.funcs, f.ann.ty = f.ty ∧ ∀ p ∈ f.params, p.ann.ty = p.ty := by
  cases t with
  | recIn a fs body =>
    rw [Reinfers, infer, mapAnn_recIn] at h
    obtain ⟨fs', body', hfs, -, -, htree⟩ := typed_recIn_eq_ok.1 h
    obtain ⟨-, rfl, -⟩ := Exp.recIn.inj htree
    exact typedFuncs_anns hfs
  | _ => simp [Exp.funcs]

/-- What stands beside a part is annotated with types of functions and parameters. -/
private theorem Reinfers.role_sized (h : Reinfers env t) (ht : t.RootSized bound)
    {p : Role Checked × Exp Checked} (hp : p ∈ t.parts) : ∀ a ∈ p.1.anns, a.ty.Sized bound := by
  obtain ⟨role, part⟩ := p
  cases role with
  | body f =>
    obtain ⟨hf, -⟩ := body_mem_parts hp
    obtain ⟨hty, hparams⟩ := h.funcs f hf
    have hsized : f.ty.Sized bound := by
      cases t with
      | recIn a fs body => exact ht f hf
      | _ => cases hf
    refine List.forall_mem_cons.2 ⟨hty ▸ hsized, List.forall_mem_map.2 fun p hp => ?_⟩
    exact hparams p hp ▸ f.params_sized hsized p hp
  | _ => exact List.forall_mem_nil _

/-- The bindings that an expression makes for its parts have the types written in it. -/
private theorem sized_inside (henv : env.types.Sized bound) (ht : t.RootSized bound)
    {p : Role Checked × Exp Checked} (hp : p ∈ t.parts) :
    (env.inside t p.1).types.Sized bound := by
  obtain ⟨role, part⟩ := p
  rw [Env.inside, Env.types_withTail, Env.types_declareAll]
  refine henv.bindAll ?_
  cases t with
  | letIn a name ty value body =>
    cases role with
    | under => exact List.forall_mem_singleton.2 ht
    | _ => exact List.forall_mem_nil _
  | recIn a fs body =>
    have hnames : ∀ b ∈ fs.map fun f => (f.name, f.ty), b.2.Sized bound :=
      List.forall_mem_map.2 ht
    cases role with
    | body f =>
      obtain ⟨hf, -⟩ := body_mem_parts hp
      exact List.forall_mem_append.2 ⟨hnames, List.forall_mem_map.2 (f.params_sized (ht f hf))⟩
    | after => exact hnames
    | _ => exact List.forall_mem_nil _
  | _ => exact List.forall_mem_nil _

/-- The numbers in all types that are recorded in a checked tree are in range, if those in the
    tree itself and in the types of what is in scope are. -/
theorem Reinfers.sized (h : Reinfers env t) (henv : env.types.Sized bound) (ht : t.Sized bound) :
    ∀ a ∈ t.anns, a.ty.Sized bound := by
  induction t using Exp.induct generalizing env with
  | step t ih =>
    have hroot : t.ty.Sized bound := by
      obtain ⟨htype, -⟩ := (typed_iff_hasType _ env none t.ty).1 ⟨t, h, rfl⟩
      exact htype.sized henv ((sized_mapAnn _ t).2 ht)
    rw [anns_eq]
    refine List.forall_mem_cons.2 ⟨hroot, fun a ha => ?_⟩
    obtain ⟨p, hp, ha⟩ := List.mem_flatMap.1 ha
    have hchild := mem_children_of_mem_parts hp
    rcases List.mem_append.1 ha with ha | ha
    · exact h.role_sized ht.root hp a ha
    · exact ih p.2 hchild (h.part hp) (sized_inside henv ht.root hp) (ht.child hchild) a ha

end Recorded

end Typing

end BranchIR
