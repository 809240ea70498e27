import BranchIR.Proofs.FrontEnd
import BranchIR.Proofs.Typing.Subtrees

/-!
# The paths of checked programs

A path is checked step by step from a type, and nowhere does the checker ask whether a path begins
as it should. That it does follows from the types: a path from a pointer has nothing to step to but
the pointer's target, and there only a first step goes. From then on, and in an update from the
first step on, a path stays inside of a value, where each step picks a part that is there.
-/

namespace BranchIR

variable {ε : Type}

/-! ## Steps inside of a value -/

/-- The type of the part that a step picks from a value of a type: a field, an element or a lane.
    A step to the target of a pointer leaves the value. -/
def Ty.part? : Ty → Step ε → Option Ty
  | .tuple fields, .field n => fields[n]?
  | .array length element, .element n => if n < length then some element else none
  | .vector _ lane, .lane _ => some (.prim lane)
  | _, _ => none

/-- The type of the part that steps pick one after the other. -/
def Ty.along? (ty : Ty) (path : List (Step ε)) : Option Ty := path.foldlM Ty.part? ty

/-- The step can be made inside of a value of the type: a field of a tuple with more fields than
    its number, an element of an array that is longer than its number, or a lane of a vector. An
    offset that is computed is an integer. -/
def Step.FitsIn (ty : Ty) : Step (Exp Checked) → Prop
  | .field n => ∃ fields, ty = .tuple fields ∧ n < fields.length
  | .element n => ∃ length element, ty = .array length element ∧ n < length
  | .lane offset => (∃ length lane, ty = .vector length lane) ∧ ∃ width, offset.ty = .int width
  | .index _ => False

/-- The path leads from a value of the one type to a part of the other type, by steps that can be
    made where they are made. -/
structure StaysInside (start : Ty) (path : List (Step (Exp Checked))) (last : Ty) : Prop where
  /-- No step goes through a pointer. -/
  direct : ∀ offset, Step.index offset ∉ path
  /-- Each step fits the type that the steps before it have led to. -/
  fits : ∀ before step later, path = before ++ step :: later →
    ∃ ty, start.along? before = some ty ∧ step.FitsIn ty
  /-- This is the type that all of them lead to. -/
  leads : start.along? path = some last

/-- The empty path stays where it is. -/
theorem StaysInside.nil (ty : Ty) : StaysInside ty [] ty where
  direct := by simp
  fits := by simp
  leads := rfl

/-- Before the steps of a path, one more can be made that leads to where they start. -/
theorem StaysInside.cons {ty next last : Ty} {step : Step (Exp Checked)}
    {path : List (Step (Exp Checked))} (hpart : ty.part? step = some next) (hfits : step.FitsIn ty)
    (h : StaysInside next path last) : StaysInside ty (step :: path) last := by
  have halong (path : List (Step (Exp Checked))) : ty.along? (step :: path) = next.along? path := by
    rw [Ty.along?, List.foldlM_cons, hpart]
    rfl
  refine ⟨fun offset hmem => ?_, fun before made later heq => ?_, ?_⟩
  · obtain rfl | hmem := List.mem_cons.1 hmem
    · exact hfits
    · exact h.direct offset hmem
  · cases before with
    | nil =>
      obtain ⟨rfl, -⟩ := List.cons.inj heq
      exact ⟨ty, rfl, hfits⟩
    | cons first before =>
      obtain ⟨rfl, hrest⟩ := List.cons.inj heq
      rw [halong]
      exact h.fits before made later hrest
  · rw [halong]
    exact h.leads

/-- The path leads from the target of a pointer, after a first step to it, or it has no steps and
    leads to the target. -/
inductive StartsAt (target : Ty) : List (Step (Exp Checked)) → Ty → Prop
  | here : StartsAt target [] target
  | index {offset width path last} (integer : offset.ty = .int width)
      (rest : StaysInside target path last) : StartsAt target (.index offset :: path) last

/-- How an expression goes along its path, if it has one, and what its type has to do with the type
    at the end of the path. -/
def Exp.Accesses : Exp Checked → Prop
  | .gep a base path => ∃ target last, base.ty = .ptr target ∧ StartsAt target path last ∧
      a.ty = .ptr last
  | .load a base path => ∃ target last, base.ty = .ptr target ∧ StartsAt target path last ∧
      a.ty = last
  | .store _ dest path value _ => ∃ target last, dest.ty = .ptr target ∧
      StartsAt target path last ∧ value.ty = last
  | .update a base path value => (∀ target, base.ty ≠ .ptr target) ∧
      ∃ last, StaysInside base.ty path last ∧ value.ty = last ∧ a.ty = base.ty
  | _ => True

namespace Typing

variable {env : Env} {owner : Position} {path : List (Step (Exp Span))}
  {path' : List (Step (Exp Checked))} {ty last : Ty}

/-! ## Checked paths -/

/-- A path that is checked after its first step, or has no step through a pointer, stays inside of
    a value. -/
theorem typedPath_staysInside {first : Bool}
    (hdirect : first = false ∨ ∀ e, Step.index e ∉ path)
    (h : typedPath env first ty owner path = .ok (last, path')) : StaysInside ty path' last := by
  induction path generalizing first ty path' with
  | nil =>
    obtain ⟨rfl, rfl⟩ := typedPath_nil_eq_ok.1 h
    exact .nil last
  | cons step path ih =>
    cases step with
    | field n =>
      obtain ⟨fields, next, rest, rfl, hfield, hrest, rfl⟩ := typedPath_field_eq_ok.1 h
      obtain ⟨hlt, -⟩ := List.getElem?_eq_some_iff.1 hfield
      exact .cons hfield ⟨fields, rfl, hlt⟩ (ih (.inl rfl) hrest)
    | element n =>
      obtain ⟨length, next, rest, rfl, hlt, hrest, rfl⟩ := typedPath_element_eq_ok.1 h
      exact .cons (if_pos hlt) ⟨length, next, rfl, hlt⟩ (ih (.inl rfl) hrest)
    | lane e =>
      obtain ⟨length, lane, offset, width, rest, rfl, -, hwidth, hrest, rfl⟩ :=
        typedPath_lane_eq_ok.1 h
      exact .cons rfl ⟨⟨length, lane, rfl⟩, width, hwidth⟩ (ih (.inl rfl) hrest)
    | index e =>
      obtain ⟨_, _, _, _, hfirst, -⟩ := typedPath_index_eq_ok.1 h
      obtain hlater | hnone := hdirect
      · exact absurd (hfirst.symm.trans hlater) (by decide)
      · exact absurd (List.mem_cons_self ..) (hnone e)

/-- A path from a pointer starts with a step to its target, unless it has no steps: no other step
    applies to a pointer. -/
theorem Addresses.starts {s : Span} {base : Exp Span} {base' : Exp Checked}
    (h : Addresses env s base path base' last path') :
    ∃ target, base'.ty = .ptr target ∧ StartsAt target path' last := by
  obtain ⟨target, -, htarget, hpath⟩ := h
  refine ⟨target, htarget, ?_⟩
  rw [htarget] at hpath
  cases path with
  | nil =>
    obtain ⟨rfl, rfl⟩ := typedPath_nil_eq_ok.1 hpath
    exact .here
  | cons step path =>
    cases step with
    | field n =>
      obtain ⟨_, _, _, heq, -⟩ := typedPath_field_eq_ok.1 hpath
      -- a pointer has no fields, and no elements or lanes either
      cases heq
    | element n =>
      obtain ⟨_, _, _, heq, -⟩ := typedPath_element_eq_ok.1 hpath
      cases heq
    | lane e =>
      obtain ⟨_, _, _, _, _, heq, -⟩ := typedPath_lane_eq_ok.1 hpath
      cases heq
    | index e =>
      obtain ⟨_, offset, width, rest, -, heq, -, hwidth, hrest, rfl⟩ :=
        typedPath_index_eq_ok.1 hpath
      cases heq
      exact .index hwidth (typedPath_staysInside (.inl rfl) hrest)

/-! ## Checked trees -/

/-- A checked expression has the type that was wanted. -/
private theorem ty_eq_of_typed_some {want : Ty} {e : Exp Span} {t : Exp Checked}
    (h : typed env (some want) e = .ok t) : t.ty = want :=
  (admits_some.1 ((typed_iff_infer e env _ t).1 h).2).symm

/-- The root of a checked tree goes along its path as it should. -/
private theorem Reinfers.accesses {t : Exp Checked} (h : Reinfers env t) : t.Accesses := by
  -- checking the form again gives the form, so inversion tells of its own parts
  rw [Reinfers, infer] at h
  cases t with
  | gep a base path =>
    rw [Exp.mapAnn_gep] at h
    obtain ⟨_, ty, _, haddr, -, heq⟩ := typed_gep_eq_ok.1 h
    obtain ⟨ha, rfl, rfl⟩ := Exp.gep.inj heq
    obtain ⟨target, htarget, hstarts⟩ := haddr.starts
    exact ⟨target, ty, htarget, hstarts, congrArg Checked.ty ha⟩
  | load a base path =>
    rw [Exp.mapAnn_load] at h
    obtain ⟨_, ty, _, haddr, -, heq⟩ := typed_load_eq_ok.1 h
    obtain ⟨ha, rfl, rfl⟩ := Exp.load.inj heq
    obtain ⟨target, htarget, hstarts⟩ := haddr.starts
    exact ⟨target, ty, htarget, hstarts, congrArg Checked.ty ha⟩
  | store a dest path value body =>
    rw [Exp.mapAnn_store] at h
    obtain ⟨_, ty, _, _, _, haddr, hvalue, -, -, heq⟩ := typed_store_eq_ok.1 h
    obtain ⟨-, rfl, rfl, rfl, rfl⟩ := Exp.store.inj heq
    obtain ⟨target, htarget, hstarts⟩ := haddr.starts
    exact ⟨target, ty, htarget, hstarts, ty_eq_of_typed_some hvalue⟩
  | update a base path value =>
    rw [Exp.mapAnn_update] at h
    obtain ⟨_, ty, _, _, -, hpointee, hdirect, hpath, hvalue, -, heq⟩ := typed_update_eq_ok.1 h
    obtain ⟨ha, rfl, rfl, rfl⟩ := Exp.update.inj heq
    -- the base of an update is refused where it is a pointer
    have hnone : ∀ target, base.ty ≠ .ptr target := by
      intro target htarget
      rw [pointee?_eq_some.2 htarget] at hpointee
      cases hpointee
    have hty : a.ty = base.ty := by
      rw [ha]
      rfl
    exact ⟨hnone, ty, typedPath_staysInside (.inr hdirect) hpath, ty_eq_of_typed_some hvalue, hty⟩
  | _ => trivial

/-- Every expression with a path in a checked tree goes along it as it should. The base of a gep, a
    load or a store is a pointer, and its path, if it has steps, starts with one to the target and
    has no other such step; the base of an update is no pointer, and its path has no such step.
    All other steps fit the types they are applied at, and all offsets are integers. The type at
    the end of the path is that of a load, the target of the type of a gep, and the type of what a
    store or an update puts there; an update has the type of its base. -/
theorem infer_accesses {e : Exp Span} {t : Exp Checked} (h : infer env e = .ok t) :
    ∀ node ∈ t.preorder, node.Accesses := by
  intro node hnode
  obtain ⟨trail, hl⟩ := Exp.mem_preorder_iff_leads.1 hnode
  exact ((reinfers_of_typed h).leads hl).accesses

/-- A store over a tuple, an array and a vector. -/
private def deepStore : String :=
  "let p: &{i8, [4 x <2 x i32>]} = 0i64 as &{i8, [4 x <2 x i32>]} in
    store p @1i64 .1 [3] <0i1> = 5i32 in 0i8"

/-- The number of steps and the types of the ends, if this is a store. -/
private def storeEnds? : Exp Checked → Option (Ty × Nat × Ty)
  | .store _ dest path value _ => some (dest.ty, path.length, value.ty)
  | _ => none

/-- The path of the store leads from the target of the pointer to the integers in the vector, over
    all four steps. -/
theorem infer_accesses_deepStore :
    ∃ t a dest path value body, checkSource deepStore "shell" = .ok t ∧
      .store a dest path value body ∈ t.preorder ∧ path.length = 4 ∧
      dest.ty = .ptr (.tuple [.int 8, .array 4 (.vector 2 (.int 32))]) ∧ value.ty = .int 32 ∧
      StartsAt (.tuple [.int 8, .array 4 (.vector 2 (.int 32))]) path (.int 32) := by
  have hrun : (checkSource deepStore "shell").toOption.bind (·.preorder.findSome? storeEnds?) =
      some (.ptr (.tuple [.int 8, .array 4 (.vector 2 (.int 32))]), 4, .int 32) := by
    decide +kernel
  obtain ⟨t, ht, hfound⟩ := Option.bind_eq_some_iff.1 hrun
  obtain ⟨node, hnode, hends⟩ := List.exists_of_findSome?_eq_some hfound
  have hsource := toOption_eq_some.1 ht
  obtain ⟨_, -, hcheck⟩ := checkSource_eq_ok.1 hsource
  have haccesses := infer_accesses hcheck node hnode
  cases node with
  | store a dest path value body =>
    obtain ⟨target, last, htarget, hstarts, rfl⟩ := haccesses
    simp only [storeEnds?, Option.some.injEq, Prod.mk.injEq] at hends
    obtain ⟨hdest, hlength, hvalue⟩ := hends
    obtain rfl := PrimTy.ptr.inj (Ty.prim.inj (htarget.symm.trans hdest))
    exact ⟨t, a, dest, path, value, body, hsource, hnode, hlength, hdest, hvalue, hvalue ▸ hstarts⟩
  | _ => cases hends

end Typing

end BranchIR
