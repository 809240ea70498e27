import BranchIR.Proofs.Exp.MapAnn
import BranchIR.Proofs.Typing.Inversion

/-!
# What checking keeps of a tree

Checking a tree rebuilds it with new annotations. Nothing but the annotations changes.
-/

namespace BranchIR

open Exp

namespace Typing

/-- Whatever comes of checking the expression is the expression with more annotations. -/
def Erases (e : Exp Span) : Prop :=
  ∀ env want t, typed env want e = .ok t → t.mapAnn Checked.span = e

section Erases

variable {env : Env}

/-- Checking a list only adds annotations if checking its items does. -/
private theorem typedAll_erases {es : List (Exp Span)} (h : ∀ e ∈ es, Erases e)
    {wants : List (Option Ty)} {ts : List (Exp Checked)} (ht : typedAll env wants es = .ok ts) :
    ts.map (mapAnn Checked.span) = es := by
  induction es generalizing wants ts with
  | nil =>
    cases ht
    rfl
  | cons e es ih =>
    obtain ⟨he, hes⟩ := List.forall_mem_cons.1 h
    obtain ⟨first, rest, hfirst, hrest, rfl⟩ := typedAll_cons_eq_ok.1 ht
    rw [List.map_cons, he _ _ _ hfirst, ih hes hrest]

/-- Checking arms only adds annotations: patterns are kept. -/
private theorem typedArms_erases {arms : List (Arm (Exp Span))} (h : ∀ arm ∈ arms, Erases arm.body)
    {width : Nat} {seen : List Int} {want ty : Option Ty} {arms' : List (Arm (Exp Checked))}
    (ht : typedArms env width seen want arms = .ok (ty, arms')) :
    arms'.map (Arm.map (mapAnn Checked.span)) = arms := by
  induction arms generalizing seen want arms' with
  | nil =>
    cases ht
    rfl
  | cons arm arms ih =>
    obtain ⟨harm, harms⟩ := List.forall_mem_cons.1 h
    obtain ⟨seen', first, rest, -, hfirst, hrest, rfl⟩ := typedArms_cons_eq_ok.1 ht
    rw [List.map_cons, ih harms hrest, Arm.map, harm _ _ _ hfirst]

/-- Checking functions only adds annotations: names, parameters and results are kept. -/
theorem typedFuncs_erases {fs : List (Func Span (Exp Span))} (h : ∀ f ∈ fs, Erases f.body)
    {fs' : List (Func Checked (Exp Checked))} (ht : typedFuncs env fs = .ok fs') :
    fs'.map (Func.map Checked.span (mapAnn Checked.span)) = fs := by
  -- parameters are annotated without being checked
  have hparams (ps : List (Param Span)) :
      (ps.map typedParam).map (Param.map Checked.span) = ps := by
    simp [typedParam, Param.map, Function.comp_def]
  induction fs generalizing fs' with
  | nil =>
    cases ht
    rfl
  | cons f fs ih =>
    obtain ⟨hf, hfs⟩ := List.forall_mem_cons.1 h
    obtain ⟨body, rest, hbody, hrest, rfl⟩ := typedFuncs_cons_eq_ok.1 ht
    rw [List.map_cons, ih hfs hrest, Func.map, hparams, hf _ _ _ hbody]

/-- Checking a path only adds annotations: steps are kept, and so is their order. -/
private theorem typedPath_erases {path : List (Step (Exp Span))} (h : ∀ e ∈ offsets path, Erases e)
    {first : Bool} {ty last : Ty} {owner : Position} {path' : List (Step (Exp Checked))}
    (ht : typedPath env first ty owner path = .ok (last, path')) :
    path'.map (Step.map (mapAnn Checked.span)) = path := by
  induction path generalizing first ty path' with
  | nil =>
    obtain ⟨-, rfl⟩ := typedPath_nil_eq_ok.1 ht
    rfl
  | cons step path ih =>
    rw [offsets_cons, List.forall_mem_append] at h
    obtain ⟨hstep, hpath⟩ := h
    cases step with
    | field n =>
      obtain ⟨_, _, rest, -, -, hrest, rfl⟩ := typedPath_field_eq_ok.1 ht
      rw [List.map_cons, ih hpath hrest, Step.map]
    | element n =>
      obtain ⟨_, _, rest, -, -, hrest, rfl⟩ := typedPath_element_eq_ok.1 ht
      rw [List.map_cons, ih hpath hrest, Step.map]
    | lane e =>
      obtain ⟨_, _, offset, _, rest, -, hoffset, -, hrest, rfl⟩ := typedPath_lane_eq_ok.1 ht
      rw [List.map_cons, ih hpath hrest, Step.map, hstep e (by simp) _ _ _ hoffset]
    | index e =>
      obtain ⟨_, offset, _, rest, -, -, hoffset, -, hrest, rfl⟩ := typedPath_index_eq_ok.1 ht
      rw [List.map_cons, ih hpath hrest, Step.map, hstep e (by simp) _ _ _ hoffset]

end Erases

/-- Without types and flags, a checked tree is the tree that was checked. -/
theorem typed_erases (e : Exp Span) : Erases e := by
  -- in each case inversion names what came of the parts, and the map goes through to them
  induction e with
  | var s id =>
    intro env want t ht
    obtain ⟨binding, -, -, rfl⟩ := typed_var_eq_ok.1 ht
    rfl
  | int s value width =>
    intro env want t ht
    obtain ⟨-, rfl⟩ := typed_int_eq_ok.1 ht
    rfl
  | ascribe s e ty ih =>
    intro env want t ht
    obtain ⟨inner, hinner, -, rfl⟩ := typed_ascribe_eq_ok.1 ht
    rw [mapAnn_ascribe, ih _ _ _ hinner, note]
  | coerce s e ty ih =>
    intro env want t ht
    obtain ⟨inner, hinner, -, rfl⟩ := typed_coerce_eq_ok.1 ht
    rw [mapAnn_coerce, ih _ _ _ hinner, note]
  | prim s op args ih =>
    intro env want t ht
    obtain ⟨arg, args', first, rest, rfl, hfirst, -, hrest, -, rfl⟩ := typed_prim_eq_ok.1 ht
    obtain ⟨harg, hargs⟩ := List.forall_mem_cons.1 ih
    -- the first argument was checked by itself and the others against its type
    rw [mapAnn_prim, List.map_cons, harg _ _ _ hfirst, typedAll_erases hargs hrest, note]
  | letIn s name ty value body hvalue hbody =>
    intro env want t ht
    obtain ⟨value', body', hvalue', hbody', -, rfl⟩ := typed_letIn_eq_ok.1 ht
    rw [mapAnn_letIn, hvalue _ _ _ hvalue', hbody _ _ _ hbody', note]
  | call s callee args hcallee hargs =>
    intro env want t ht
    obtain ⟨callee', _, _, args', hcallee', -, -, hargs', -, rfl⟩ := typed_call_eq_ok.1 ht
    rw [mapAnn_call, hcallee _ _ _ hcallee', typedAll_erases hargs hargs', note]
  | caseOf s scrutinee arms hscrutinee harms =>
    intro env want t ht
    obtain ⟨scrutinee', _, ty, arms', hscrutinee', -, -, harms', rfl⟩ := typed_caseOf_eq_ok.1 ht
    -- what the arms want of each other is not in the tree
    rw [mapAnn_caseOf, hscrutinee _ _ _ hscrutinee', typedArms_erases harms harms', note]
  | recIn s fs body hfs hbody =>
    intro env want t ht
    obtain ⟨fs', body', hfs', hbody', -, rfl⟩ := typed_recIn_eq_ok.1 ht
    rw [mapAnn_recIn, typedFuncs_erases hfs hfs', hbody _ _ _ hbody', note]
  | tuple s elems ih =>
    intro env want t ht
    obtain ⟨elems', helems', -, rfl⟩ := typed_tuple_eq_ok.1 ht
    rw [mapAnn_tuple, typedAll_erases ih helems', note]
  | vector s elems ih =>
    intro env want t ht
    -- so it is with the first element
    obtain ⟨elem, elems', first, lane, rest, rfl, hfirst, -, hrest, -, rfl⟩ :=
      typed_vector_eq_ok.1 ht
    obtain ⟨helem, helems⟩ := List.forall_mem_cons.1 ih
    rw [mapAnn_vector, List.map_cons, helem _ _ _ hfirst, typedAll_erases helems hrest, note]
  | gep s base path hbase hpath =>
    intro env want t ht
    -- of an address only the base and the path are kept, not the type behind it
    obtain ⟨base', ty, path', ⟨_, hbase', -, hpath'⟩, -, rfl⟩ := typed_gep_eq_ok.1 ht
    rw [mapAnn_gep, hbase _ _ _ hbase', typedPath_erases hpath hpath', note]
  | load s base path hbase hpath =>
    intro env want t ht
    obtain ⟨base', ty, path', ⟨_, hbase', -, hpath'⟩, -, rfl⟩ := typed_load_eq_ok.1 ht
    rw [mapAnn_load, hbase _ _ _ hbase', typedPath_erases hpath hpath', note]
  | store s dest path value body hdest hpath hvalue hbody =>
    intro env want t ht
    obtain ⟨dest', ty, path', value', body', ⟨_, hdest', -, hpath'⟩, hvalue', hbody', -, rfl⟩ :=
      typed_store_eq_ok.1 ht
    rw [mapAnn_store, hdest _ _ _ hdest', typedPath_erases hpath hpath', hvalue _ _ _ hvalue',
      hbody _ _ _ hbody', note]
  | update s base path value hbase hpath hvalue =>
    intro env want t ht
    obtain ⟨base', ty, path', value', hbase', -, -, hpath', hvalue', -, rfl⟩ :=
      typed_update_eq_ok.1 ht
    rw [mapAnn_update, hbase _ _ _ hbase', typedPath_erases hpath hpath', hvalue _ _ _ hvalue',
      note]

end Typing

end BranchIR
