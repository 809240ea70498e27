import Mathlib.Data.List.Basic
import BranchIR.Proofs.Typing.Faults
import BranchIR.Proofs.Typing.Subtrees

/-!
# Free variables, scope by scope

`Exp.freeVars` takes what an expression uses and drops what is bound anywhere in it. The plain
way follows the scopes: the name of a let is dropped from what is free in its body, the names of a
bundle from what is free in its parts, and the parameters of a function from what is free in its
own body. In a checked tree that binds no identity twice the two find the same, at every node.
-/

namespace BranchIR

variable {α : Type}

namespace Exp

mutual

/-- The variables that are free in an expression, found scope by scope. -/
def scopedFree : Exp α → VarSet
  | .var _ id => .ofList [id]
  | .int .. => .empty
  | .ascribe _ inner _ | .coerce _ inner _ => scopedFree inner
  | .prim _ _ es | .tuple _ es | .vector _ es => scopedFreeAll es
  -- the name is in scope of the body only
  | .letIn _ name _ value body => (scopedFree value).union ((scopedFree body).filter (· ≠ name))
  | .call _ callee args => (scopedFree callee).union (scopedFreeAll args)
  | .caseOf _ scrutinee arms => (scopedFree scrutinee).union (scopedFreeArms arms)
  -- the names are in scope of all bodies and of what comes after
  | .recIn _ fs body =>
    ((scopedFreeFuncs fs).union (scopedFree body)).filter (· ∉ fs.map (·.name))
  | .gep _ base path | .load _ base path => (scopedFree base).union (scopedFreePath path)
  | .store _ dest path value body =>
    ((scopedFree dest).union (scopedFreePath path)).union
      ((scopedFree value).union (scopedFree body))
  | .update _ base path value =>
    ((scopedFree base).union (scopedFreePath path)).union (scopedFree value)

/-- The variables that are free in some expression of a list. -/
def scopedFreeAll : List (Exp α) → VarSet
  | [] => .empty
  | e :: es => (scopedFree e).union (scopedFreeAll es)

/-- The variables that are free in some arm. -/
def scopedFreeArms : List (Arm (Exp α)) → VarSet
  | [] => .empty
  | ⟨_, body⟩ :: arms => (scopedFree body).union (scopedFreeArms arms)

/-- The variables that are free in some function, whose parameters are in scope of its own body
    only. -/
def scopedFreeFuncs : List (Func α (Exp α)) → VarSet
  | [] => .empty
  | ⟨_, _, params, _, body⟩ :: fs =>
    ((scopedFree body).filter (· ∉ params.map (·.name))).union (scopedFreeFuncs fs)

/-- The variables that are free in some offset of a path. -/
def scopedFreePath : List (Step (Exp α)) → VarSet
  | [] => .empty
  | .field _ :: path | .element _ :: path => scopedFreePath path
  | .lane e :: path | .index e :: path => (scopedFree e).union (scopedFreePath path)

end

end Exp

open Exp

/-! ## What is free -/

/-- A variable is free in an expression if it is the expression, or is free in a part and not bound
    on the way there. -/
private theorem free_iff {x : VarId} {e : Exp α} :
    Free x e ↔ e.var? = some x ∨ ∃ p ∈ e.parts, x ∉ e.binds p.1 ∧ Free x p.2 := by
  constructor
  · intro h
    cases h with
    | var => exact .inl rfl
    | part hp hx hfree => exact .inr ⟨_, hp, hx, hfree⟩
  · rintro (hvar | ⟨p, hp, hx, hfree⟩)
    · cases e with
      | var a id =>
        cases hvar
        exact .var
      | _ => cases hvar
    · exact .part hp hx hfree

/-- Where an expression binds nothing, what is free in its parts is free in it. -/
private theorem free_iff_of_binds {x : VarId} {e : Exp α} (hvar : e.var? = none)
    (hbinds : ∀ role, e.binds role = []) : Free x e ↔ ∃ child ∈ e.children, Free x child := by
  rw [free_iff, hvar]
  constructor
  · rintro (hx | ⟨p, hp, -, hfree⟩)
    · cases hx
    · exact ⟨p.2, mem_children_of_mem_parts hp, hfree⟩
  · rintro ⟨child, hc, hfree⟩
    rw [← parts_snd, List.mem_map] at hc
    obtain ⟨p, hp, rfl⟩ := hc
    exact .inr ⟨p, hp, by simp [hbinds], hfree⟩

section Containers

variable {x : VarId}

/-- The computed set of a list has what is free in some expression of it. -/
private theorem mem_scopedFreeAll {es : List (Exp α)}
    (h : ∀ e ∈ es, (x ∈ e.scopedFree ↔ Free x e)) :
    x ∈ scopedFreeAll es ↔ ∃ e ∈ es, Free x e := by
  induction es with
  | nil => simp [scopedFreeAll]
  | cons e es ih =>
    obtain ⟨he, hes⟩ := List.forall_mem_cons.1 h
    rw [scopedFreeAll, VarSet.mem_union, he, ih hes, List.exists_mem_cons_iff]

/-- The computed set of arms has what is free in some body. -/
private theorem mem_scopedFreeArms {arms : List (Arm (Exp α))}
    (h : ∀ arm ∈ arms, (x ∈ arm.body.scopedFree ↔ Free x arm.body)) :
    x ∈ scopedFreeArms arms ↔ ∃ arm ∈ arms, Free x arm.body := by
  induction arms with
  | nil => simp [scopedFreeArms]
  | cons arm arms ih =>
    obtain ⟨harm, harms⟩ := List.forall_mem_cons.1 h
    rw [scopedFreeArms, VarSet.mem_union, harm, ih harms, List.exists_mem_cons_iff]

/-- The computed set of functions has what is free in some body and no parameter there. -/
private theorem mem_scopedFreeFuncs {fs : List (Func α (Exp α))}
    (h : ∀ f ∈ fs, (x ∈ f.body.scopedFree ↔ Free x f.body)) :
    x ∈ scopedFreeFuncs fs ↔ ∃ f ∈ fs, x ∉ f.params.map (·.name) ∧ Free x f.body := by
  induction fs with
  | nil => simp [scopedFreeFuncs]
  | cons f fs ih =>
    obtain ⟨hf, hfs⟩ := List.forall_mem_cons.1 h
    rw [scopedFreeFuncs, VarSet.mem_union, VarSet.mem_filter, hf, ih hfs,
      List.exists_mem_cons_iff, decide_eq_true_iff, and_comm]

/-- The computed set of a path has what is free in some offset. -/
private theorem mem_scopedFreePath {path : List (Step (Exp α))}
    (h : ∀ e ∈ offsets path, (x ∈ e.scopedFree ↔ Free x e)) :
    x ∈ scopedFreePath path ↔ ∃ e ∈ offsets path, Free x e := by
  induction path with
  | nil => simp [scopedFreePath]
  | cons step path ih =>
    rw [offsets_cons, List.forall_mem_append] at h
    cases step with
    | field | element => simpa [scopedFreePath] using ih h.2
    | lane e | index e =>
      have he : x ∈ e.scopedFree ↔ Free x e := h.1 e (by simp)
      rw [scopedFreePath, VarSet.mem_union, he, ih h.2]
      simp

end Containers

/-- Following the scopes finds what is free. -/
theorem mem_scopedFree {x : VarId} {e : Exp α} : x ∈ e.scopedFree ↔ Free x e := by
  induction e with
  | var a id =>
    rw [free_iff]
    simp [scopedFree, var?, parts, eq_comm]
  | int a value width =>
    rw [free_iff]
    simp [scopedFree, var?, parts]
  -- where nothing is bound, what is free in a part is free in the whole
  | ascribe a inner ty ih | coerce a inner ty ih =>
    rw [free_iff_of_binds rfl fun _ => rfl, scopedFree, ih]
    simp [children]
  | prim a op es ih | tuple a es ih | vector a es ih =>
    rw [free_iff_of_binds rfl fun _ => rfl, scopedFree, mem_scopedFreeAll ih]
    rfl
  | letIn a name ty value body hvalue hbody =>
    rw [free_iff]
    -- the name is bound in the body and not in the value
    simp [scopedFree, var?, parts, binds, own, funcs, hvalue, hbody, and_comm]
  | call a callee args hcallee hargs =>
    rw [free_iff_of_binds rfl fun _ => rfl, scopedFree, VarSet.mem_union, hcallee,
      mem_scopedFreeAll hargs]
    simp [children]
  | caseOf a scrutinee arms hscrutinee harms =>
    rw [free_iff_of_binds rfl fun _ => rfl, scopedFree, VarSet.mem_union, hscrutinee,
      mem_scopedFreeArms harms]
    simp [children]
  | recIn a fs body hfs hbody =>
    rw [free_iff, scopedFree, VarSet.mem_filter, VarSet.mem_union, mem_scopedFreeFuncs hfs, hbody,
      decide_eq_true_iff]
    have hafter : x ∉ (recIn a fs body).binds .after ↔ x ∉ fs.map (·.name) := by
      simp [binds, own, funcs]
    have hfunc (f : Func α (Exp α)) : x ∉ (recIn a fs body).binds (.body f) ↔
        x ∉ f.params.map (·.name) ∧ x ∉ fs.map (·.name) := by
      rw [binds, List.mem_append, not_or]
      rfl
    -- no part can use a name of the bundle
    by_cases hx : x ∈ fs.map (·.name)
    · simp [var?, parts, hafter, hfunc, hx]
    · simp [var?, parts, hafter, hfunc, hx]
  | gep a base path hbase hpath | load a base path hbase hpath =>
    rw [free_iff_of_binds rfl fun _ => rfl, scopedFree, VarSet.mem_union, hbase,
      mem_scopedFreePath hpath]
    simp [children]
  | store a dest path value body hdest hpath hvalue hbody =>
    rw [free_iff_of_binds rfl fun _ => rfl, scopedFree, VarSet.mem_union, VarSet.mem_union,
      VarSet.mem_union, hdest, mem_scopedFreePath hpath, hvalue, hbody]
    simp [children, or_and_right, exists_or, or_assoc]
  | update a base path value hbase hpath hvalue =>
    rw [free_iff_of_binds rfl fun _ => rfl, scopedFree, VarSet.mem_union, VarSet.mem_union, hbase,
      mem_scopedFreePath hpath, hvalue]
    simp [children, or_and_right, exists_or, or_assoc]

/-! ## Checked trees -/

namespace Typing

variable {env : Env} {e : Exp Span} {t : Exp Checked} {x : VarId}

/-- What the environment of a part has been given is bound for the part. -/
private theorem mem_binds_of_mem_bindings {e : Exp α} {role : Role α}
    (h : x ∈ (e.bindings role).map Prod.fst) : x ∈ e.binds role := by
  cases e with
  | letIn a name ty value body =>
    cases role with
    | under => simpa [bindings, binds, own, funcs] using h
    | _ => simp [bindings] at h
  | recIn a fs body =>
    cases role with
    | body f =>
      have hnames : x ∈ (fs.map (·.name)) ∨ x ∈ f.params.map (·.name) := by
        simpa [bindings] using h
      exact List.mem_append.2 hnames.symm
    | after => simpa [bindings, binds, own, funcs] using h
    | _ => simp [bindings] at h
  | _ => simp [bindings] at h

/-- What is free in a checked tree is in the environment. -/
theorem Reinfers.find?_ne_none (h : Reinfers env t) (hfree : Free x t) : env.find? x ≠ none := by
  induction hfree generalizing env with
  | var =>
    obtain ⟨binding, hfind, -⟩ := typed_var_eq_ok.1 h
    simp [hfind]
  | @part t part role hp hx _ ih =>
    intro hnone
    -- the environment of the part has nothing more than what is bound for the part
    have hpart := ih (h.part hp)
    have hbindings : x ∉ (t.bindings role).map Prod.fst :=
      fun hmem => hx (mem_binds_of_mem_bindings hmem)
    exact hpart (find?_declareAll_eq_none.2 ⟨hbindings, hnone⟩)

/-- A checked program that binds no identity twice is well-bound. -/
theorem wellBound_of_checkProgram (h : checkProgram e = .ok t) (hdistinct : e.bound.Nodup) :
    WellBound [] t where
  closed x hfree := absurd rfl ((reinfers_of_typed h).find?_ne_none hfree)
  distinct := by
    rw [← typed_erases _ _ _ _ h, bound_mapAnn] at hdistinct
    exact hdistinct
  fresh _ hx := absurd hx List.not_mem_nil

end Typing

/-- In a checked tree that binds no identity twice, what a subexpression uses and does not bind is
    what following its scopes finds. -/
theorem freeVars_eq_scopedFree {e : Exp Span} {t : Exp Checked}
    (h : Typing.checkProgram e = .ok t) (hdistinct : e.bound.Nodup) :
    ∀ node ∈ t.preorder, node.freeVars = node.scopedFree := by
  intro node hnode
  obtain ⟨scope, -, hbound⟩ := (Typing.wellBound_of_checkProgram h hdistinct).node hnode
  refine VarSet.ext fun x => ?_
  rw [mem_freeVars_iff_free hbound, mem_scopedFree]

/-- A function that uses a let around it, its parameter, and a let in its body. -/
private def capturing : Exp Span :=
  let s : Span := ⟨0, 0, "tree"⟩
  let sum := Exp.prim s .add [.var s 5, .var s 3]
  let func : Func Span (Exp Span) :=
    ⟨s, 7, [⟨s, 2, .int 32⟩], .int 32, .letIn s 3 (.int 32) (.var s 2) sum⟩
  .letIn s 5 (.int 32) (.int s 1 32) (.recIn s [func] (.call s (.var s 7) [.var s 5]))

/-- The body of the function comes fourth, and the let around the function and the parameter are
    free in it. -/
theorem freeVars_eq_scopedFree_body :
    ∃ t, Typing.checkProgram capturing = .ok t ∧ capturing.bound.Nodup ∧
      t.preorder.map (·.freeVars.ids) =
        [[], [], [5], [2, 5], [2], [3, 5], [5], [3], [5, 7], [7], [5]] ∧
      ∀ node ∈ t.preorder, node.freeVars = node.scopedFree := by
  have hdistinct : capturing.bound.Nodup := by decide
  -- the free variables are found by checking the tree
  have hrun : (Typing.checkProgram capturing).toOption.map
      (fun t => t.preorder.map (·.freeVars.ids)) =
        some [[], [], [5], [2, 5], [2], [3, 5], [5], [3], [5, 7], [7], [5]] := by
    decide +kernel
  obtain ⟨t, hcheck, hfree⟩ := Option.map_eq_some_iff.1 hrun
  rw [toOption_eq_some] at hcheck
  exact ⟨t, hcheck, hdistinct, hfree, freeVars_eq_scopedFree hcheck hdistinct⟩

end BranchIR
