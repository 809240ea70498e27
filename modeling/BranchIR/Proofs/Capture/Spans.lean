import BranchIR.Capture.Facts
import BranchIR.Proofs.Exp.Binding
import BranchIR.Proofs.Typing.Spans

/-!
# The analysis does not depend on spans

The facts on a program are found from its names alone, and faults from names and tail flags.
Spans only say where a fault was found.
-/

namespace BranchIR

open Exp

variable {α β γ δ : Type}

namespace Exp

/-- Annotations play no part in what is used. -/
@[simp] theorem uses_mapAnn (f : α → β) (e : Exp α) : (e.mapAnn f).uses = e.uses := by
  have hvar : var? ∘ mapAnn f = (var? : Exp α → Option VarId) := funext (var?_mapAnn f)
  rw [uses, preorder_mapAnn, List.filterMap_map, hvar, uses]

@[simp] theorem freeVars_mapAnn (f : α → β) (e : Exp α) : (e.mapAnn f).freeVars = e.freeVars := by
  simp [freeVars]

/-- A fold of the image is the image of a fold, if that holds at every node. -/
private theorem fold_mapAnn {f : Exp α → List β → β} {g : Exp γ → List δ → δ} {a : α → γ}
    {image : β → δ}
    (h : ∀ e below, image (f e below) = g (e.mapAnn a) (below.map image)) (e : Exp α) :
    image (e.fold f) = (e.mapAnn a).fold g := by
  induction e using Exp.induct with
  | step e ih =>
    have hbelow : (e.children.map (fold f)).map image =
        (e.mapAnn a).children.map (fold g) := by
      rw [children_mapAnn, List.map_map, List.map_map]
      exact List.map_congr_left ih
    rw [fold_eq, h, hbelow]
    exact (fold_eq g _).symm

end Exp

namespace Capture

/-! ## Facts -/

/-- Annotations play no part in the members of a bundle. -/
private theorem members_map (routines : List VarId) (f : α → β) (fs : List (Func α (Exp α))) :
    members routines (fs.map (Func.map f (mapAnn f))) = members routines fs := by
  simp only [members, List.map_map, Function.comp_def, Func.paramNames_map, Func.body_map,
    Func.name_map, freeVars_mapAnn]

/-- Annotations play no part in the facts on a bundle. -/
private theorem classify_map (routines : List VarId) (f : α → β) (fs : List (Func α (Exp α))) :
    classify routines (fs.map (Func.map f (mapAnn f))) = classify routines fs := by
  rw [classify, classify, solved, solved, members_map, List.length_map]

/-- Annotations play no part in the facts on several bundles. -/
private theorem classifyAll_map (routines : List VarId) (f : α → β) (es : List (Exp α)) :
    classifyAll routines (es.map (mapAnn f)) = classifyAll routines es := by
  induction es generalizing routines with
  | nil => rfl
  | cons e es ih => rw [List.map_cons, classifyAll, classifyAll, funcs_mapAnn, classify_map, ih]

/-- Facts do not depend on annotations. -/
theorem factsOf_mapAnn (f : α → β) (e : Exp α) : factsOf (e.mapAnn f) = factsOf e := by
  rw [factsOf, factsOf, preorder_mapAnn, classifyAll_map]

/-! ## Faults -/

/-- The cause of the first fault in an expression, from the causes below. -/
def causeAt? (targets : List VarId) (e : Exp (Ty × Bool)) (below : List (Option Cause)) :
    Option Cause :=
  match e with
  | .var _ x => if x ∈ targets then some (.escapingTarget x) else none
  | .call a (.var _ x) _ =>
    if x ∈ targets then
      if a.2 then below.tail.findSome? id else some (.nonTailCall x)
    else below.findSome? id
  | _ => below.findSome? id

/-- The cause of the first fault is the first of the causes. -/
private theorem cause_firstFault? (faults : List (Option Error)) :
    (firstFault? faults).map Error.cause = (faults.map (Option.map Error.cause)).findSome? id := by
  induction faults with
  | nil => rfl
  | cons fault faults ih =>
    cases fault with
    | none => exact ih
    | some error => rfl

/-- A fault is told, but for its place, by names and tail flags. -/
private theorem cause_fault? (targets : List VarId) (e : Exp Checked) :
    (fault? targets e).map Error.cause =
      (e.mapAnn Checked.typing).fold (causeAt? targets) := by
  refine fold_mapAnn (fun e below => ?_) e
  cases e with
  | var a x =>
    rw [mapAnn_var, faultAt?, causeAt?]
    split <;> rfl
  | call a callee args =>
    cases callee with
    | var a' x =>
      rw [mapAnn_call, mapAnn_var, faultAt?, causeAt?, Checked.typing]
      split
      · cases a.tail with
        | true =>
          -- the first fault below is the callee's own
          have htail := cause_firstFault? below.tail
          rwa [List.map_tail] at htail
        | false => rfl
      · exact cause_firstFault? below
    | _ => exact cause_firstFault? below
  | _ => exact cause_firstFault? below

/-- Checked trees that differ in spans only have the same facts, or are refused for the same
    cause. -/
theorem analyze_agrees {t u : Exp Checked} (h : SameTyping t u) :
    Agrees Eq (analyze t) (analyze u) := by
  have hfacts : factsOf t = factsOf u := by
    rw [← factsOf_mapAnn Checked.typing t, h, factsOf_mapAnn]
  have hcause := cause_fault? (factsOf u).targets t
  rw [h, ← cause_fault?] at hcause
  unfold analyze
  rw [hfacts]
  dsimp only
  generalize fault? (factsOf u).targets t = fault at hcause
  generalize fault? (factsOf u).targets u = fault' at hcause
  cases fault with
  | none =>
    obtain rfl := Option.map_eq_none_iff.1 hcause.symm
    exact .ok rfl
  | some error =>
    obtain ⟨error', rfl, heq⟩ := Option.map_eq_some_iff.1 hcause.symm
    exact .error heq.symm

end Capture

end BranchIR
