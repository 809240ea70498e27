import Mathlib.Data.List.Nodup
import BranchIR.Proofs.Exp.Induction

/-!
# Routes to the expressions in a tree

Equal expressions may stand in one tree many times, so an expression in it is told by the way to
it: at each form, which of the form's own places the way goes through. The places of a form are
said form by form, apart from its list of children.
-/

namespace BranchIR

/-- Where a direct subexpression stands in a form. -/
inductive Slot where
  /-- What an ascription or a coercion is about. -/
  | inner
  /-- An operand of an operator, an argument, or an element, by number. -/
  | item (i : Nat)
  | callee
  | scrutinee
  /-- The body of an arm, by number. -/
  | arm (i : Nat)
  /-- The body of a function of a bundle, by number. -/
  | func (i : Nat)
  /-- What a path starts from. -/
  | base
  /-- The offset that a step of a path computes, by number among all steps. -/
  | step (i : Nat)
  /-- What a let binds, or what is written. -/
  | value
  /-- What comes after a let, a bundle or a store. -/
  | body
  deriving DecidableEq, Repr

namespace Exp

variable {α : Type}

/-- The direct subexpression that stands in a place of the form. -/
def at? : Exp α → Slot → Option (Exp α)
  | ascribe _ e _, .inner | coerce _ e _, .inner => some e
  | prim _ _ es, .item i | tuple _ es, .item i | vector _ es, .item i => es[i]?
  | letIn _ _ _ value _, .value => some value
  | letIn _ _ _ _ body, .body => some body
  | call _ callee _, .callee => some callee
  | call _ _ args, .item i => args[i]?
  | caseOf _ scrutinee _, .scrutinee => some scrutinee
  | caseOf _ _ arms, .arm i => arms[i]?.map (·.body)
  | recIn _ fs _, .func i => fs[i]?.map (·.body)
  | recIn _ _ body, .body => some body
  | gep _ base _, .base | load _ base _, .base | store _ base _ _ _, .base
  | update _ base _ _, .base => some base
  | gep _ _ path, .step i | load _ _ path, .step i | store _ _ path _ _, .step i
  | update _ _ path _, .step i => path[i]?.bind Step.offset?
  | store _ _ _ value _, .value | update _ _ _ value, .value => some value
  | store _ _ _ _ body, .body => some body
  | _, _ => none

/-- The subexpression that a route leads to. -/
def reach? : Exp α → List Slot → Option (Exp α)
  | e, [] => some e
  | e, slot :: route => (e.at? slot).bind fun part => part.reach? route

/-! ## The places of a form -/

/-- The items of a list, in places that are told by number. -/
def inSlots {ε : Type} (slot : Nat → Slot) (part : ε → Option (Exp α)) (items : List ε) :
    List (Slot × Exp α) :=
  items.zipIdx.filterMap fun (item, i) => (part item).map fun e => (slot i, e)

/-- The direct subexpressions in source order, each with its place. -/
def slotted : Exp α → List (Slot × Exp α)
  | var .. | int .. => []
  | ascribe _ e _ | coerce _ e _ => [(.inner, e)]
  | prim _ _ es | tuple _ es | vector _ es => inSlots .item some es
  | letIn _ _ _ value body => [(.value, value), (.body, body)]
  | call _ callee args => (.callee, callee) :: inSlots .item some args
  | caseOf _ scrutinee arms =>
    (.scrutinee, scrutinee) :: inSlots .arm (fun arm => some arm.body) arms
  | recIn _ fs body => inSlots .func (fun f => some f.body) fs ++ [(.body, body)]
  | gep _ base path | load _ base path => (.base, base) :: inSlots .step Step.offset? path
  | store _ base path value body =>
    (.base, base) :: (inSlots .step Step.offset? path ++ [(.value, value), (.body, body)])
  | update _ base path value =>
    (.base, base) :: (inSlots .step Step.offset? path ++ [(.value, value)])

section Places

variable {ε : Type} {slot : Nat → Slot} {part : ε → Option (Exp α)} {items : List ε}

/-- Without their slots, the parts in a list of slots are those that items have. -/
private theorem map_snd_inSlots :
    (inSlots slot part items).map Prod.snd = items.filterMap part := by
  have hitems : items.zipIdx.filterMap (part ∘ Prod.fst) = items.filterMap part := by
    rw [← List.filterMap_map, List.zipIdx_map_fst]
  rw [inSlots, List.map_filterMap, ← hitems]
  congr 1
  funext p
  simp [Option.map_map, Function.comp_def]

/-- A part is in a slot if the item there has it. -/
private theorem mem_inSlots {s : Slot} {e : Exp α} :
    (s, e) ∈ inSlots slot part items ↔ ∃ i, slot i = s ∧ items[i]?.bind part = some e := by
  simp only [inSlots, List.mem_filterMap, List.mem_zipIdx_iff_getElem?, Prod.exists,
    Option.map_eq_some_iff, Option.bind_eq_some_iff, Prod.mk.injEq]
  constructor
  · rintro ⟨item, i, hitem, e, he, rfl, rfl⟩
    exact ⟨i, rfl, item, hitem, he⟩
  · rintro ⟨i, rfl, item, hitem, he⟩
    exact ⟨item, i, hitem, e, he, rfl, rfl⟩

/-- No place of the kind is taken twice, and the other places of the form are of other kinds. -/
private theorem nodup_inSlots_append {others : List (Slot × Exp α)}
    (hslot : ∀ i j, slot i = slot j → i = j)
    (hothers : (others.map Prod.fst).Nodup) (hkind : ∀ i, slot i ∉ others.map Prod.fst) :
    ((inSlots slot part items ++ others).map Prod.fst).Nodup := by
  have hnumbers : (items.zipIdx.map Prod.snd).Nodup := by
    rw [List.zipIdx_map_snd]
    exact List.nodup_range'
  have hitems : ((inSlots slot part items).map Prod.fst).Nodup := by
    rw [List.Nodup, List.pairwise_map] at hnumbers
    rw [List.Nodup, List.pairwise_map, inSlots, List.pairwise_filterMap]
    refine hnumbers.imp fun {p q} hne a ha b hb hsame => hne ?_
    obtain ⟨_, -, rfl⟩ := Option.map_eq_some_iff.1 ha
    obtain ⟨_, -, rfl⟩ := Option.map_eq_some_iff.1 hb
    exact hslot _ _ hsame
  rw [List.map_append]
  refine hitems.append hothers fun s hs hs' => ?_
  obtain ⟨⟨s, e⟩, hp, rfl⟩ := List.mem_map.1 hs
  obtain ⟨i, rfl, -⟩ := mem_inSlots.1 hp
  exact hkind i hs'

/-- Different places of a list are different slots. -/
private theorem nodup_inSlots (hslot : ∀ i j, slot i = slot j → i = j) :
    ((inSlots slot part items).map Prod.fst).Nodup := by
  simpa using @nodup_inSlots_append _ _ slot part items [] hslot

end Places

/-- The children of a form stand in its places, in order. -/
theorem map_snd_slotted (e : Exp α) : e.slotted.map Prod.snd = e.children := by
  cases e <;> simp [slotted, children, map_snd_inSlots, offsets]

/-- What stands in a place of a form is among the children, with the place. -/
theorem mem_slotted {e part : Exp α} {s : Slot} : (s, part) ∈ e.slotted ↔ e.at? s = some part := by
  cases e <;> cases s <;>
    simp [slotted, at?, mem_inSlots, Option.bind_eq_some_iff, @eq_comm _ part]

/-- No place of a form is taken twice. -/
private theorem nodup_slotted (e : Exp α) : (e.slotted.map Prod.fst).Nodup := by
  cases e with
  | var | int | ascribe | coerce | letIn => simp [slotted]
  | prim | tuple | vector => exact nodup_inSlots fun _ _ => Slot.item.inj
  | call | caseOf | gep | load =>
    rw [slotted, List.map_cons, List.nodup_cons]
    exact ⟨by simp [mem_inSlots], nodup_inSlots (by simp)⟩
  | recIn => exact nodup_inSlots_append (by simp) (by simp) (by simp)
  | store | update =>
    rw [slotted, List.map_cons, List.nodup_cons]
    exact ⟨by simp [mem_inSlots], nodup_inSlots_append (by simp) (by simp) (by simp)⟩

/-! ## All routes -/

/-- All routes from the root in preorder of what they lead to, each with it. -/
def routed (e : Exp α) : List (List Slot × Exp α) :=
  e.fold fun node below =>
    ([], node) :: (node.slotted.zip below).flatMap fun (place, inner) =>
      inner.map fun route => (place.1 :: route.1, route.2)

/-- First comes the root, then what is reached through its places. -/
private theorem routed_eq (e : Exp α) :
    e.routed = ([], e) :: e.slotted.flatMap fun place =>
      place.2.routed.map fun route => (place.1 :: route.1, route.2) := by
  have hfold := fold_labelled map_snd_slotted (fun node parts => ([], node) ::
    parts.flatMap fun (place, inner) =>
      inner.map fun route => (place.1 :: route.1, route.2)) e
  rwa [List.flatMap_map] at hfold

/-- What is in a slot is a child. -/
private theorem mem_children_of_mem_slotted {e : Exp α} {p : Slot × Exp α} (h : p ∈ e.slotted) :
    p.2 ∈ e.children :=
  map_snd_slotted e ▸ List.mem_map_of_mem h

/-- The routes lead to the nodes of the tree, in preorder. -/
theorem map_snd_routed (e : Exp α) : e.routed.map Prod.snd = e.preorder := by
  induction e using induct with
  | step e ih =>
    have hparts : ∀ p ∈ e.slotted, p.2.routed.map Prod.snd = p.2.preorder :=
      fun p hp => ih p.2 (mem_children_of_mem_slotted hp)
    rw [routed_eq, preorder_eq, ← map_snd_slotted, List.map_cons, List.map_flatMap,
      List.flatMap_map]
    simp only [List.map_map, Function.comp_def, List.flatMap_def]
    rw [List.map_congr_left hparts]

/-- The routes are those that lead anywhere, each with what it leads to. -/
theorem mem_routed {e x : Exp α} {route : List Slot} :
    (route, x) ∈ e.routed ↔ e.reach? route = some x := by
  induction e using induct generalizing route with
  | step e ih =>
    rw [routed_eq, List.mem_cons, List.mem_flatMap]
    cases route with
    | nil => simp [reach?, eq_comm]
    | cons s route =>
      simp only [reach?, Option.bind_eq_some_iff, ← mem_slotted]
      constructor
      · rintro (h | ⟨⟨s', part⟩, hp, h⟩)
        · simp at h
        · obtain ⟨⟨route', x'⟩, hroute, heq⟩ := List.mem_map.1 h
          obtain ⟨⟨rfl, rfl⟩, rfl⟩ : (s' = s ∧ route' = route) ∧ x' = x := by simpa using heq
          exact ⟨part, hp, (ih part (mem_children_of_mem_slotted hp)).1 hroute⟩
      · rintro ⟨part, hp, hroute⟩
        have hmem := (ih part (mem_children_of_mem_slotted hp)).2 hroute
        exact .inr ⟨(s, part), hp, List.mem_map.2 ⟨(route, x), hmem, rfl⟩⟩

/-- No route is listed twice. -/
theorem nodup_routed (e : Exp α) : (e.routed.map Prod.fst).Nodup := by
  induction e using induct with
  | step e ih =>
    rw [routed_eq, List.map_cons, List.map_flatMap, List.nodup_cons, List.nodup_flatMap]
    refine ⟨by simp, fun p hp => ?_, ?_⟩
    · -- through one place
      have hpart := ih p.2 (mem_children_of_mem_slotted hp)
      simpa [Function.comp_def] using hpart.map (List.cons_injective (a := p.1))
    · -- through two places the routes differ in their first step
      have hplaces := nodup_slotted e
      rw [List.Nodup, List.pairwise_map] at hplaces
      refine hplaces.imp fun {p q} hne route hp hq => hne ?_
      simp only [List.map_map, List.mem_map, Function.comp_apply] at hp hq
      obtain ⟨r, -, rfl⟩ := hp
      obtain ⟨r', -, hsame⟩ := hq
      exact (List.cons.inj hsame).1.symm

end Exp

end BranchIR
