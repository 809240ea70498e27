import BranchIR.Proofs.Exp.Induction

/-!
# Places in a tree

A part of an expression stands in a role: its value is used by the expression, or it is the
value of the expression, or it is the body of a function. A place is told by the trail that
leads to it from the root: the nodes passed, each with the role of the part where the trail
goes on.
-/

namespace BranchIR

/-- What a part is to the expression it stands in. -/
inductive Role (α : Type) where
  /-- Its value is used by the expression. -/
  | operand
  /-- It is what a call calls. -/
  | callee
  /-- Its value is that of the expression, with the same names in scope. -/
  | same
  /-- Its value is that of a let, with the let's name in scope. -/
  | under
  /-- It is the body of a function of a bundle. -/
  | body (f : Func α (Exp α))
  /-- Its value is that of a bundle, with the names of the functions in scope. -/
  | after

namespace Exp

variable {α : Type}

/-- The direct subexpressions in source order, each with its role. -/
def parts : Exp α → List (Role α × Exp α)
  | var .. | int .. => []
  | ascribe _ e _ => [(.same, e)]
  | coerce _ e _ => [(.operand, e)]
  | prim _ _ es | tuple _ es | vector _ es => es.map fun e => (.operand, e)
  | letIn _ _ _ value body => [(.operand, value), (.under, body)]
  | call _ callee args => (.callee, callee) :: args.map fun e => (.operand, e)
  | caseOf _ scrutinee arms =>
    (.operand, scrutinee) :: arms.map fun arm => (.same, arm.body)
  | recIn _ fs body => (fs.map fun f => (.body f, f.body)) ++ [(.after, body)]
  | gep _ base path | load _ base path =>
    (.operand, base) :: (offsets path).map fun e => (.operand, e)
  | store _ dest path value body =>
    (.operand, dest) ::
      (((offsets path).map fun e => (.operand, e)) ++ [(.operand, value), (.same, body)])
  | update _ base path value =>
    (.operand, base) :: (((offsets path).map fun e => (.operand, e)) ++ [(.operand, value)])

/-- The parts are the direct subexpressions. -/
theorem parts_snd (e : Exp α) : e.parts.map Prod.snd = e.children := by
  cases e <;> simp [parts, children, Function.comp_def]

/-- Parts are children, whatever their roles. -/
theorem mem_children_of_mem_parts {e : Exp α} {p : Role α × Exp α} (h : p ∈ e.parts) :
    p.2 ∈ e.children :=
  parts_snd e ▸ List.mem_map_of_mem h

end Exp

/-- The nodes passed on the way to a place, from the root on, each with the role of the part
    where the way goes on. -/
abbrev Trail (α : Type) := List (Exp α × Role α)

/-- The trail leads from the root of an expression to a subexpression. -/
inductive Leads {α : Type} : Exp α → Trail α → Exp α → Prop
  | here {e} : Leads e [] e
  | down {e role part trail x} (hp : (role, part) ∈ e.parts) (rest : Leads part trail x) :
      Leads e ((e, role) :: trail) x

namespace Leads

variable {α : Type} {e x y : Exp α} {trail later : Trail α}

/-- Trails are put together. -/
theorem append (h : Leads e trail x) (h' : Leads x later y) : Leads e (trail ++ later) y := by
  induction h with
  | here => exact h'
  | down hp _ ih =>
    -- the step down stays in front
    exact .down hp (ih h')

/-- A trail through a node leads to the node, and from there on. -/
theorem split {node : Exp α} {role : Role α} (h : Leads e (trail ++ (node, role) :: later) x) :
    Leads e trail node ∧ Leads node ((node, role) :: later) x := by
  induction trail generalizing e with
  | nil =>
    cases h with
    | down hp rest => exact ⟨.here, .down hp rest⟩
  | cons step trail ih =>
    -- the first step is not at the node yet
    cases h with
    | down hp rest =>
      obtain ⟨hnode, hlater⟩ := ih rest
      exact ⟨.down hp hnode, hlater⟩

/-- A place that is reached from the root is among the nodes. -/
theorem mem_preorder (h : Leads e trail x) : x ∈ e.preorder := by
  induction h with
  | here => exact Exp.mem_preorder_self _
  | down hp _ ih => exact Exp.mem_preorder_of_child (Exp.mem_children_of_mem_parts hp) ih

/-- In preorder, the nodes passed on the way come before the place. -/
theorem exists_preorder_eq (h : Leads e trail x) :
    ∃ before after, e.preorder = before ++ x :: after ∧ ∀ step ∈ trail, step.1 ∈ before := by
  induction h with
  | here => exact ⟨[], _, Exp.preorder_eq _, by simp⟩
  | @down e role part trail x hp _ ih =>
    obtain ⟨before, after, hpart, hpassed⟩ := ih
    -- before the nodes of the part there are the root and the nodes of the children to its left
    obtain ⟨left, right, hchildren⟩ := List.append_of_mem (Exp.mem_children_of_mem_parts hp)
    refine ⟨e :: (left.flatMap Exp.preorder ++ before), after ++ right.flatMap Exp.preorder, ?_,
      List.forall_mem_cons.2 ⟨List.mem_cons_self .., fun step hstep => ?_⟩⟩
    · rw [Exp.preorder_eq, hchildren, List.flatMap_append, List.flatMap_cons, hpart]
      simp
    · exact List.mem_cons_of_mem _ (List.mem_append_right _ (hpassed step hstep))

/-- The nodes passed on the way are nodes of the tree. -/
theorem mem_preorder_of_mem (h : Leads e trail x) {node : Exp α} {role : Role α}
    (hn : (node, role) ∈ trail) : node ∈ e.preorder := by
  obtain ⟨above, below, rfl⟩ := List.append_of_mem hn
  exact h.split.1.mem_preorder

end Leads

/-- The nodes of a tree are what trails lead to. -/
theorem Exp.mem_preorder_iff_leads {α : Type} {e x : Exp α} :
    x ∈ e.preorder ↔ ∃ trail, Leads e trail x := by
  constructor
  · intro h
    induction e using induct with
    | step e ih =>
      rcases mem_preorder_iff.1 h with rfl | ⟨child, hc, hx⟩
      · exact ⟨[], .here⟩
      · -- the child stands in some role, and a trail goes on from there
        rw [← parts_snd, List.mem_map] at hc
        obtain ⟨⟨role, part⟩, hp, rfl⟩ := hc
        obtain ⟨trail, htrail⟩ := ih part (mem_children_of_mem_parts hp) hx
        exact ⟨_, .down hp htrail⟩
  · intro ⟨trail, h⟩
    exact h.mem_preorder

/-! ## All places -/

namespace Exp

variable {α : Type} {e x : Exp α} {trail : Trail α}

/-- All places of a tree in preorder: the trail that leads there, and what stands there. -/
def places (e : Exp α) : List (Trail α × Exp α) :=
  e.fold fun node below =>
    ([], node) :: (node.parts.zip below).flatMap fun (part, inner) =>
      inner.map fun place => ((node, part.1) :: place.1, place.2)

/-- First comes the root, then the places in its parts. -/
theorem places_eq (e : Exp α) :
    e.places = ([], e) :: e.parts.flatMap fun part =>
      part.2.places.map fun place => ((e, part.1) :: place.1, place.2) := by
  have hfold := fold_labelled parts_snd (fun node parts => ([], node) ::
    parts.flatMap fun (part, inner) =>
      inner.map fun place => ((node, part.1) :: place.1, place.2)) e
  rwa [List.flatMap_map] at hfold

/-- The nodes at the places of a tree are its nodes, in order. -/
theorem map_snd_places (e : Exp α) : e.places.map Prod.snd = e.preorder := by
  induction e using induct with
  | step e ih =>
    have hparts : ∀ p ∈ e.parts, p.2.places.map Prod.snd = p.2.preorder :=
      fun p hp => ih p.2 (mem_children_of_mem_parts hp)
    rw [places_eq, preorder_eq, ← parts_snd, List.map_cons, List.map_flatMap, List.flatMap_map]
    simp only [List.map_map, Function.comp_def, List.flatMap_def]
    rw [List.map_congr_left hparts]

/-- What is looked for in a tree is found at the root, or in the first part that has it. -/
theorem findSome?_places {β : Type} (f : Trail α × Exp α → Option β) (e : Exp α) :
    e.places.findSome? f = (f ([], e)).or (e.parts.findSome? fun part =>
      part.2.places.findSome? fun place => f ((e, part.1) :: place.1, place.2)) := by
  have hbelow : (e.parts.flatMap fun part => part.2.places.map fun place =>
      ((e, part.1) :: place.1, place.2)).findSome? f =
        e.parts.findSome? fun part =>
          part.2.places.findSome? fun place => f ((e, part.1) :: place.1, place.2) := by
    rw [← List.head?_filterMap, List.filterMap_flatMap, List.head?_flatMap]
    simp only [List.head?_filterMap, List.findSome?_map]
    rfl
  rw [places_eq, List.findSome?_cons, hbelow]
  cases f ([], e) <;> rfl

/-- The places of a tree are told by the trails. -/
theorem mem_places_iff_leads : (trail, x) ∈ e.places ↔ Leads e trail x := by
  induction e using induct generalizing trail with
  | step e ih =>
    rw [places_eq, List.mem_cons, List.mem_flatMap]
    simp only [List.mem_map, Prod.mk.injEq, Prod.exists]
    constructor
    · rintro (⟨rfl, rfl⟩ | ⟨role, part, hp, trail, y, hy, rfl, rfl⟩)
      · exact .here
      · exact .down hp ((ih part (mem_children_of_mem_parts hp)).1 hy)
    · intro h
      cases h with
      | here => exact .inl ⟨rfl, rfl⟩
      | @down _ role part trail _ hp rest =>
        have hy := (ih part (mem_children_of_mem_parts hp)).2 rest
        exact .inr ⟨role, part, hp, trail, x, hy, rfl, rfl⟩

end Exp

end BranchIR
