import BranchIR.Exp.Fold

/-!
# Induction over expressions

Expressions hold their parts in lists, arms, functions and paths. `Exp.induct` hides these
containers: a property of all direct subexpressions has to give the property of the
expression. A proof by it names one hypothesis for all containers, and the lemmas about a
container take that hypothesis as they need it.

## Key results

- `Exp.induct`: induction over direct subexpressions
- `fold_labelled`: folds that go through the parts with labels
- `mem_preorder_self`, `mem_preorder_of_child`, `preorder_trans`: the nodes of a tree
-/

namespace BranchIR

@[simp] theorem Step.offset?_field {ε : Type} (n : Nat) : (field n : Step ε).offset? = none := rfl

@[simp] theorem Step.offset?_element {ε : Type} (n : Nat) :
    (element n : Step ε).offset? = none := rfl

@[simp] theorem Step.offset?_lane {ε : Type} (e : ε) : (lane e).offset? = some e := rfl

@[simp] theorem Step.offset?_index {ε : Type} (e : ε) : (index e).offset? = some e := rfl

namespace Exp

variable {α : Type}

mutual

/-- What passes from all direct subexpressions to the expression holds of every expression. -/
theorem induct {motive : Exp α → Prop}
    (step : ∀ e : Exp α, (∀ child ∈ e.children, motive child) → motive e) :
    (e : Exp α) → motive e
  | .var .. => step _ (by simp [children])
  | .int .. => step _ (by simp [children])
  | .ascribe _ e _ => step _ (by simpa [children] using induct step e)
  | .coerce _ e _ => step _ (by simpa [children] using induct step e)
  | .prim _ _ es => step _ (inductAll step es)
  | .letIn _ _ _ value body => step _ (by
    simpa [children] using And.intro (induct step value) (induct step body))
  | .call _ callee args => step _ (by
    simpa [children] using And.intro (induct step callee) (inductAll step args))
  | .caseOf _ scrutinee arms => step _ (by
    simpa [children] using And.intro (induct step scrutinee) (inductArms step arms))
  | .recIn _ fs body => step _ (by
    simpa [children, or_imp, forall_and] using
      And.intro (inductFuncs step fs) (induct step body))
  | .tuple _ es => step _ (inductAll step es)
  | .vector _ es => step _ (inductAll step es)
  | .gep _ base path => step _ (by
    simpa [children] using And.intro (induct step base) (inductPath step path))
  | .load _ base path => step _ (by
    simpa [children] using And.intro (induct step base) (inductPath step path))
  | .store _ dest path value body => step _ (by
    have hrest := And.intro (induct step value) (induct step body)
    simpa [children, or_imp, forall_and] using
      And.intro (induct step dest) (And.intro (inductPath step path) hrest))
  | .update _ base path value => step _ (by
    have hrest := And.intro (inductPath step path) (induct step value)
    simpa [children, or_imp, forall_and] using And.intro (induct step base) hrest)

/-- Induction reaches the expressions of a list. -/
private theorem inductAll {motive : Exp α → Prop}
    (step : ∀ e : Exp α, (∀ child ∈ e.children, motive child) → motive e) :
    (es : List (Exp α)) → ∀ e ∈ es, motive e
  | [] => by simp
  | e :: es => by simpa using And.intro (induct step e) (inductAll step es)

/-- Induction reaches the bodies of arms. -/
private theorem inductArms {motive : Exp α → Prop}
    (step : ∀ e : Exp α, (∀ child ∈ e.children, motive child) → motive e) :
    (arms : List (Arm (Exp α))) → ∀ arm ∈ arms, motive arm.body
  | [] => by simp
  | ⟨_, body⟩ :: arms => by simpa using And.intro (induct step body) (inductArms step arms)

/-- Induction reaches the bodies of functions. -/
private theorem inductFuncs {motive : Exp α → Prop}
    (step : ∀ e : Exp α, (∀ child ∈ e.children, motive child) → motive e) :
    (fs : List (Func α (Exp α))) → ∀ f ∈ fs, motive f.body
  | [] => by simp
  | ⟨_, _, _, _, body⟩ :: fs => by
    simpa using And.intro (induct step body) (inductFuncs step fs)

/-- Induction reaches the computed offsets of a path. -/
private theorem inductPath {motive : Exp α → Prop}
    (step : ∀ e : Exp α, (∀ child ∈ e.children, motive child) → motive e) :
    (path : List (Step (Exp α))) → ∀ e ∈ offsets path, motive e
  | [] => by simp [offsets]
  | .field _ :: path => by simpa [offsets] using inductPath step path
  | .element _ :: path => by simpa [offsets] using inductPath step path
  | .lane e :: path => by
    simpa [offsets] using And.intro (induct step e) (inductPath step path)
  | .index e :: path => by
    simpa [offsets] using And.intro (induct step e) (inductPath step path)

end

/-- Induction with one case for each form, in which every container gives one hypothesis
    about all its expressions. -/
@[elab_as_elim, induction_eliminator]
theorem formInduct {motive : Exp α → Prop}
    (var : ∀ a id, motive (.var a id))
    (int : ∀ a value width, motive (.int a value width))
    (ascribe : ∀ a inner ty, motive inner → motive (.ascribe a inner ty))
    (coerce : ∀ a inner ty, motive inner → motive (.coerce a inner ty))
    (prim : ∀ a op args, (∀ e ∈ args, motive e) → motive (.prim a op args))
    (letIn : ∀ a name ty value body, motive value → motive body →
      motive (.letIn a name ty value body))
    (call : ∀ a callee args, motive callee → (∀ e ∈ args, motive e) →
      motive (.call a callee args))
    (caseOf : ∀ a scrutinee arms, motive scrutinee → (∀ arm ∈ arms, motive arm.body) →
      motive (.caseOf a scrutinee arms))
    (recIn : ∀ a fs body, (∀ f ∈ fs, motive f.body) → motive body → motive (.recIn a fs body))
    (tuple : ∀ a elems, (∀ e ∈ elems, motive e) → motive (.tuple a elems))
    (vector : ∀ a elems, (∀ e ∈ elems, motive e) → motive (.vector a elems))
    (gep : ∀ a base path, motive base → (∀ e ∈ offsets path, motive e) →
      motive (.gep a base path))
    (load : ∀ a base path, motive base → (∀ e ∈ offsets path, motive e) →
      motive (.load a base path))
    (store : ∀ a dest path value body, motive dest → (∀ e ∈ offsets path, motive e) →
      motive value → motive body → motive (.store a dest path value body))
    (update : ∀ a base path value, motive base → (∀ e ∈ offsets path, motive e) →
      motive value → motive (.update a base path value)) :
    (e : Exp α) → motive e := by
  -- one case for each constructor, from induction over the children
  apply induct
  intro e ih
  -- `ih` speaks of all children in one list: it is cut along the containers of each form
  cases e with
  | var a id => exact var a id
  | int a value width => exact int a value width
  | ascribe a inner ty => exact ascribe a inner ty (ih _ (by simp [children]))
  | coerce a inner ty => exact coerce a inner ty (ih _ (by simp [children]))
  | prim a op args => exact prim a op args ih
  | letIn a name ty value body =>
    exact letIn a name ty value body (ih _ (by simp [children])) (ih _ (by simp [children]))
  | call a callee args =>
    obtain ⟨hcallee, hargs⟩ := List.forall_mem_cons.1 ih
    exact call a callee args hcallee hargs
  | caseOf a scrutinee arms =>
    obtain ⟨hscrutinee, harms⟩ := List.forall_mem_cons.1 ih
    exact caseOf a scrutinee arms hscrutinee fun arm ha => harms _ (List.mem_map_of_mem ha)
  | recIn a fs body =>
    obtain ⟨hfs, hbody⟩ := List.forall_mem_append.1 ih
    exact recIn a fs body (fun f hf => hfs _ (List.mem_map_of_mem hf)) (hbody _ (by simp))
  | tuple a elems => exact tuple a elems ih
  | vector a elems => exact vector a elems ih
  | gep a base path =>
    obtain ⟨hbase, hpath⟩ := List.forall_mem_cons.1 ih
    exact gep a base path hbase hpath
  | load a base path =>
    obtain ⟨hbase, hpath⟩ := List.forall_mem_cons.1 ih
    exact load a base path hbase hpath
  | store a dest path value body =>
    obtain ⟨hdest, hrest⟩ := List.forall_mem_cons.1 ih
    obtain ⟨hpath, hrest⟩ := List.forall_mem_append.1 hrest
    exact store a dest path value body hdest hpath (hrest _ (by simp)) (hrest _ (by simp))
  | update a base path value =>
    obtain ⟨hbase, hrest⟩ := List.forall_mem_cons.1 ih
    obtain ⟨hpath, hrest⟩ := List.forall_mem_append.1 hrest
    exact update a base path value hbase hpath (hrest _ (by simp))

/-! ## Offsets of a path -/

@[simp] theorem offsets_nil : offsets ([] : List (Step (Exp α))) = [] := rfl

/-- The offsets of a path are those of its first step, one or none, and those of the rest. -/
@[simp] theorem offsets_cons (step : Step (Exp α)) (path : List (Step (Exp α))) :
    offsets (step :: path) = step.offset?.toList ++ offsets path := by
  cases step <;> rfl

/-! ## Folds over parts with labels -/

/-- A fold that goes through the parts with labels has for each part its label and its value. -/
theorem fold_labelled {ι β : Type} {label : Exp α → List (ι × Exp α)}
    (h : ∀ e, (label e).map Prod.snd = e.children)
    (g : Exp α → List ((ι × Exp α) × β) → β) (e : Exp α) :
    (e.fold fun node below => g node ((label node).zip below)) = g e ((label e).map fun p =>
      (p, p.2.fold fun node below => g node ((label node).zip below))) := by
  rw [fold_eq, ← h e, List.map_map]
  congr 1
  simpa using List.zip_map' (f := id) (l := label e)
    (g := (fold fun node below => g node ((label node).zip below)) ∘ Prod.snd)

/-! ## The nodes of a tree -/

/-- A node of a tree is its root or a node of one of its parts. -/
theorem mem_preorder_iff {x e : Exp α} :
    x ∈ e.preorder ↔ x = e ∨ ∃ child ∈ e.children, x ∈ child.preorder := by
  rw [preorder_eq]
  simp

@[simp] theorem mem_preorder_self (e : Exp α) : e ∈ e.preorder :=
  mem_preorder_iff.2 (.inl rfl)

/-- The nodes of a part are nodes of the whole. -/
theorem mem_preorder_of_child {x child e : Exp α} (hc : child ∈ e.children)
    (hx : x ∈ child.preorder) : x ∈ e.preorder :=
  mem_preorder_iff.2 (.inr ⟨child, hc, hx⟩)

/-- A node of a subtree is a node of the tree. -/
theorem preorder_trans {x y e : Exp α} (hx : x ∈ y.preorder) (hy : y ∈ e.preorder) :
    x ∈ e.preorder := by
  induction e using induct with
  | step e ih =>
    rcases mem_preorder_iff.1 hy with rfl | ⟨child, hc, hy⟩
    · exact hx
    · exact mem_preorder_of_child hc (ih child hc hy)

end Exp

end BranchIR
