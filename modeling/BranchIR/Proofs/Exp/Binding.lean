import BranchIR.Capture.FreeVars
import BranchIR.Proofs.Exp.MapAnn
import BranchIR.Proofs.Exp.Place

/-!
# Binding

What is free in an expression is told by scopes: a let puts its name in scope of its body
only, a bundle puts its names in scope of all its parts, and each function its parameters in
scope of its own body. `Exp.freeVars` takes a shortcut and knows no scopes. It is right where
no identity is bound twice and none that is in scope is bound again: `WellBound`.
-/

namespace BranchIR

variable {α β : Type}

namespace Exp

/-! ## What is in scope of a part -/

/-- The identities that an expression binds for one part alone: the name of a let for its
    body, the parameters of a function for the function's body. -/
def own : Exp α → Role α → List VarId
  | letIn _ name _ _ _, .under => [name]
  | recIn .., .body f => f.params.map (·.name)
  | _, _ => []

/-- The identities that an expression puts in scope of a part. The names of a bundle are in
    scope of all its parts. -/
def binds (e : Exp α) (role : Role α) : List VarId := e.own role ++ e.funcs.map (·.name)

/-- What a node binds for one of its parts is among what it binds. -/
theorem mem_binders_of_mem_binds {e part : Exp α} {role : Role α} {x : VarId}
    (hp : (role, part) ∈ e.parts) (hx : x ∈ e.binds role) : x ∈ e.binders := by
  rw [binds, List.mem_append] at hx
  cases e with
  | letIn a name ty value body =>
    simp only [parts, List.mem_cons, Prod.mk.injEq, List.not_mem_nil, or_false] at hp
    obtain ⟨rfl, -⟩ | ⟨rfl, -⟩ := hp
    · -- nothing is bound for the value
      simp [own, funcs] at hx
    · simpa [own, funcs, binders] using hx
  | recIn a fs body =>
    simp only [binders, List.mem_append, List.mem_flatMap]
    obtain hx | hx := hx
    · -- bound for one part alone, which is then the body of a function
      simp only [parts, List.mem_append, List.mem_map, List.mem_singleton, Prod.mk.injEq] at hp
      obtain ⟨f, hf, rfl, -⟩ | ⟨rfl, -⟩ := hp
      · exact .inr ⟨f, hf, hx⟩
      · simp [own] at hx
    · exact .inl hx
  | _ => simp [own, funcs] at hx

/-- A part in the role of a body is the body of a function of the bundle. -/
theorem body_mem_parts {e part : Exp α} {f : Func α (Exp α)} (h : (Role.body f, part) ∈ e.parts) :
    f ∈ e.funcs ∧ part = f.body := by
  cases e with
  | recIn a fs body =>
    simp only [parts, List.mem_append, List.mem_map, Prod.mk.injEq, List.mem_singleton] at h
    obtain ⟨g, hg, hgf, rfl⟩ | ⟨hgf, -⟩ := h
    · cases hgf
      exact ⟨hg, rfl⟩
    · cases hgf
  | _ => simp [parts] at h

/-! ## What is bound -/

/-- What is bound in a tree is what its root binds, and what is bound in its parts. -/
theorem bound_eq (e : Exp α) : e.bound = e.binders ++ e.children.flatMap bound := by
  rw [bound, preorder_eq, List.flatMap_cons, List.flatMap_assoc]
  rfl

/-- What is bound is bound by a node. -/
theorem mem_bound {e : Exp α} {x : VarId} : x ∈ e.bound ↔ ∃ node ∈ e.preorder, x ∈ node.binders :=
  List.mem_flatMap

/-- What is bound in a part comes in the order in which the whole has it. -/
theorem bound_sublist_of_mem_children {e child : Exp α} (hc : child ∈ e.children) :
    (child.bound).Sublist (e.children.flatMap bound) :=
  List.flatMap_def ▸ List.sublist_flatten_of_mem (List.mem_map_of_mem hc)

/-- What is bound in a part is bound in the whole. -/
private theorem mem_bound_of_part {e part : Exp α} {role : Role α} {x : VarId}
    (hp : (role, part) ∈ e.parts) (hx : x ∈ part.bound) : x ∈ e.bound := by
  rw [bound_eq, List.mem_append]
  exact .inr ((bound_sublist_of_mem_children (mem_children_of_mem_parts hp)).subset hx)

/-- Where no identity is bound twice, one node binds it. -/
theorem eq_of_mem_binders {e node node' : Exp α} {x : VarId} (h : e.bound.Nodup)
    (hnode : node ∈ e.preorder) (hnode' : node' ∈ e.preorder) (hx : x ∈ node.binders)
    (hx' : x ∈ node'.binders) : node = node' := by
  rw [bound] at h
  generalize e.preorder = nodes at h hnode hnode'
  induction nodes with
  | nil => simp at hnode
  | cons first rest ih =>
    rw [List.flatMap_cons, List.nodup_append] at h
    obtain ⟨-, hrest, hdisjoint⟩ := h
    -- what a later node binds, the first one does not
    have hlater {n : Exp α} (hn : n ∈ rest) (hxn : x ∈ n.binders) : x ∉ first.binders :=
      fun hx => hdisjoint x hx x (List.mem_flatMap.2 ⟨n, hn, hxn⟩) rfl
    cases hnode with
    | head =>
      cases hnode' with
      | head => rfl
      | tail _ hn' => exact absurd hx (hlater hn' hx')
    | tail _ hn =>
      cases hnode' with
      | head => exact absurd hx' (hlater hn hx)
      | tail _ hn' => exact ih hrest hn hn'

/-- What is used is used by a variable. -/
theorem mem_uses {e : Exp α} {x : VarId} : x ∈ e.uses ↔ ∃ node ∈ e.preorder, node.var? = some x :=
  List.mem_filterMap

/-- What is used in a part is used in the whole. -/
private theorem mem_uses_of_part {e part : Exp α} {role : Role α} {x : VarId}
    (hp : (role, part) ∈ e.parts) (hx : x ∈ part.uses) : x ∈ e.uses := by
  obtain ⟨node, hnode, hvar⟩ := mem_uses.1 hx
  exact mem_uses.2 ⟨node, mem_preorder_of_child (mem_children_of_mem_parts hp) hnode, hvar⟩

end Exp

open Exp

/-! ## Free variables by scopes -/

/-- The variable occurs in the expression where no scope around it binds it. -/
inductive Free (x : VarId) : Exp α → Prop
  | var {a : α} : Free x (.var a x)
  | part {e part : Exp α} {role : Role α} (hp : (role, part) ∈ e.parts)
      (hx : x ∉ e.binds role) (free : Free x part) : Free x e

/-- What is free in an expression is used in it. -/
private theorem Free.mem_uses {x : VarId} {e : Exp α} (h : Free x e) : x ∈ e.uses := by
  induction h with
  | var => exact Exp.mem_uses.2 ⟨_, mem_preorder_self _, rfl⟩
  | part hp _ _ ih => exact mem_uses_of_part hp ih

/-- A variable that is used is free or bound. -/
private theorem free_or_mem_bound {x : VarId} {e : Exp α} (h : x ∈ e.uses) :
    Free x e ∨ x ∈ e.bound := by
  induction e using Exp.induct with
  | step e ih =>
    obtain ⟨node, hnode, hvar⟩ := Exp.mem_uses.1 h
    rcases mem_preorder_iff.1 hnode with rfl | ⟨child, hc, hnode⟩
    · -- used by the expression itself, which is then the variable
      cases node with
      | var a id =>
        cases hvar
        exact .inl .var
      | _ => simp [var?] at hvar
    · have hused : x ∈ child.uses := Exp.mem_uses.2 ⟨node, hnode, hvar⟩
      rw [← parts_snd, List.mem_map] at hc
      obtain ⟨⟨role, part⟩, hp, rfl⟩ := hc
      -- free in a part, the variable is free in the whole unless it is bound for that part
      rcases ih part (mem_children_of_mem_parts hp) hused with hfree | hbound
      · by_cases hx : x ∈ e.binds role
        · have hbinder := mem_binders_of_mem_binds hp hx
          exact .inr (mem_bound.2 ⟨e, mem_preorder_self e, hbinder⟩)
        · exact .inl (.part hp hx hfree)
      · exact .inr (mem_bound_of_part hp hbound)

/-! ## Well-bound expressions -/

/-- What is free is in scope, no identity is bound twice, and none in scope is bound again. -/
structure WellBound (scope : List VarId) (e : Exp α) : Prop where
  closed : ∀ x, Free x e → x ∈ scope
  distinct : e.bound.Nodup
  fresh : ∀ x ∈ scope, x ∉ e.bound

namespace WellBound

variable {scope : List VarId} {e : Exp α}

/-- A part is well-bound in the scope that the expression makes for it. -/
theorem part {role : Role α} {p : Exp α} (h : WellBound scope e) (hp : (role, p) ∈ e.parts) :
    WellBound (e.binds role ++ scope) p := by
  have hsub := bound_sublist_of_mem_children (mem_children_of_mem_parts hp)
  have hdistinct := h.distinct
  rw [bound_eq, List.nodup_append] at hdistinct
  obtain ⟨-, hbelow, hdisjoint⟩ := hdistinct
  refine ⟨?_, hbelow.sublist hsub, ?_⟩
  · -- free in the part: bound for it just now, or free in the whole
    intro x hfree
    by_cases hx : x ∈ e.binds role
    · exact List.mem_append_left _ hx
    · exact List.mem_append_right _ (h.closed x (.part hp hx hfree))
  · -- in scope of the part: bound here, so not below, or in scope of the whole
    intro x hx hbound
    rcases List.mem_append.1 hx with hx | hx
    · exact hdisjoint x (mem_binders_of_mem_binds hp hx) x (hsub.subset hbound) rfl
    · exact h.fresh x hx (mem_bound_of_part hp hbound)

end WellBound

/-- The identities that are in scope at the end of a trail. -/
def Trail.scope (trail : Trail α) (scope : List VarId) : List VarId :=
  trail.foldl (fun scope step => step.1.binds step.2 ++ scope) scope

@[simp] theorem Trail.scope_nil (scope : List VarId) : Trail.scope ([] : Trail α) scope = scope :=
  rfl

@[simp] theorem Trail.scope_cons (e : Exp α) (role : Role α) (trail : Trail α)
    (scope : List VarId) :
    Trail.scope ((e, role) :: trail) scope = Trail.scope trail (e.binds role ++ scope) := rfl

/-- What was in scope at the beginning stays in scope on the way down. -/
private theorem Trail.subset_scope (trail : Trail α) (scope : List VarId) :
    scope ⊆ trail.scope scope := by
  induction trail generalizing scope with
  | nil => exact List.Subset.refl _
  | cons step trail ih =>
    exact List.Subset.trans (List.subset_append_right _ _) (ih (step.1.binds step.2 ++ scope))

/-- What a trail leads to is well-bound in the scope at the end of the trail. -/
theorem WellBound.leads {scope : List VarId} {e x : Exp α} {trail : Trail α}
    (h : WellBound scope e) (hl : Leads e trail x) : WellBound (trail.scope scope) x := by
  induction hl generalizing scope with
  | here => exact h
  | down hp _ ih => exact ih (h.part hp)

/-- Every node of a well-bound tree is well-bound in some scope. -/
theorem WellBound.node {scope : List VarId} {e node : Exp α} (h : WellBound scope e)
    (hn : node ∈ e.preorder) : ∃ scope', scope ⊆ scope' ∧ WellBound scope' node := by
  obtain ⟨trail, hl⟩ := Exp.mem_preorder_iff_leads.1 hn
  exact ⟨_, trail.subset_scope scope, h.leads hl⟩

/-- What is in scope at a place was there at the beginning or was bound on the way. -/
theorem Trail.mem_scope {trail : Trail α} {scope : List VarId} {x : VarId}
    (h : x ∈ trail.scope scope) : x ∈ scope ∨ ∃ step ∈ trail, x ∈ step.1.binds step.2 := by
  induction trail generalizing scope with
  | nil => exact .inl h
  | cons step trail ih =>
    rw [Trail.scope_cons] at h
    rcases ih h with h | ⟨step', hstep', hx⟩
    · rcases List.mem_append.1 h with h | h
      · exact .inr ⟨step, List.mem_cons_self .., h⟩
      · exact .inl h
    · exact .inr ⟨step', List.mem_cons_of_mem _ hstep', hx⟩

/-- The way to an occurrence of a variable goes through the node that binds it. -/
theorem WellBound.leads_through {e node : Exp α} {trail : Trail α} {a : α} {x : VarId}
    (h : WellBound [] e) (hnode : node ∈ e.preorder) (hx : x ∈ node.binders)
    (hl : Leads e trail (.var a x)) :
    ∃ above role below, trail = above ++ (node, role) :: below := by
  -- at the end of the trail the variable is free, so a node on the way has bound it
  have hscope := (h.leads hl).closed x .var
  rcases Trail.mem_scope hscope with hin | ⟨step, hstep, hin⟩
  · simp at hin
  · obtain ⟨binder, role⟩ := step
    obtain ⟨above, below, rfl⟩ := List.append_of_mem hstep
    obtain ⟨habove, hbelow⟩ := hl.split
    cases hbelow with
    | down hp rest =>
      -- and no other node than the given one binds it
      have hbinder := mem_binders_of_mem_binds hp hin
      obtain rfl := eq_of_mem_binders h.distinct hnode habove.mem_preorder hx hbinder
      exact ⟨above, role, below, rfl⟩

/-- A variable that is in scope of an expression is free in it where it occurs. -/
theorem WellBound.free_of_leads {scope : List VarId} {e : Exp α} {trail : Trail α} {a : α}
    {x : VarId} (h : WellBound scope e) (hx : x ∈ scope) (hl : Leads e trail (.var a x)) :
    Free x e := by
  have hused : x ∈ e.uses := Exp.mem_uses.2 ⟨_, hl.mem_preorder, rfl⟩
  exact (free_or_mem_bound hused).resolve_right (h.fresh x hx)

/-- In a well-bound expression the variables used and not bound are those that are free. -/
theorem mem_freeVars_iff_free {scope : List VarId} {e : Exp α} (h : WellBound scope e)
    {x : VarId} : x ∈ e.freeVars ↔ Free x e := by
  rw [mem_freeVars]
  constructor
  · intro hx
    exact (free_or_mem_bound hx.1).resolve_right hx.2
  · intro hfree
    exact ⟨hfree.mem_uses, h.fresh x (h.closed x hfree)⟩

/-! ## Other annotations -/

/-- The same role in a tree with other annotations. -/
def Role.map (f : α → β) : Role α → Role β
  | .operand => .operand
  | .callee => .callee
  | .same => .same
  | .under => .under
  | .body func => .body (func.map f (mapAnn f))
  | .after => .after

namespace Exp

/-- The parts of a tree with changed annotations are the changed parts, in changed roles. -/
theorem parts_mapAnn (f : α → β) (e : Exp α) :
    (e.mapAnn f).parts = e.parts.map fun p => (p.1.map f, p.2.mapAnn f) := by
  cases e <;> simp [parts, Role.map, Arm.map, Function.comp_def]

/-- What a node binds for one part alone does not depend on annotations. -/
theorem own_mapAnn (f : α → β) (e : Exp α) (role : Role α) :
    (e.mapAnn f).own (role.map f) = e.own role := by
  cases e <;> cases role <;> simp [own, Role.map]

@[simp] theorem bound_mapAnn (f : α → β) (e : Exp α) : (e.mapAnn f).bound = e.bound := by
  simp [bound, List.flatMap_map]

end Exp

end BranchIR
