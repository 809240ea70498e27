import BranchIR.Proofs.Exp.Binding
import BranchIR.Proofs.Typing.Elaboration
import BranchIR.Proofs.Typing.Modes

/-!
# What checking does to the parts

Checking an expression checks its parts, each in an environment that the role of the part tells:
what the expression binds for the part is added, and the part is in tail position where its role
says so. What comes of a part is what computing its type in that environment gives, whatever mode
it was checked in. So a checked tree describes itself: every node is what checking gives for what
stands there, in the environment of its place.
-/

namespace BranchIR

open Exp

/-! ## The environment of a part -/

/-- Whether a part is a tail, for its role and whether the whole is one. -/
def Role.tail {α : Type} (role : Role α) (whole : Bool) : Bool :=
  match role with
  | .operand | .callee => false
  | .same | .under | .after => whole
  | .body _ => true

/-- The bindings that an expression makes for a part. Later ones hide earlier ones, so a parameter
    hides a function of the bundle. -/
def Exp.bindings {α : Type} : Exp α → Role α → List (VarId × Ty)
  | .letIn _ name ty _ _, .under => [(name, ty)]
  | .recIn _ fs _, .body f =>
    fs.map (fun g => (g.name, g.ty)) ++ f.params.map fun p => (p.name, p.ty)
  | .recIn _ fs _, .after => fs.map fun g => (g.name, g.ty)
  | _, _ => []

/-- The bindings made on the way to a place, outer ones first. -/
def Trail.bindings {α : Type} (trail : Trail α) : List (VarId × Ty) :=
  trail.flatMap fun step => step.1.bindings step.2

/-- The environment of a part, for the environment of the whole. -/
def Env.inside {α : Type} (env : Env) (e : Exp α) (role : Role α) : Env :=
  (env.declareAll (e.bindings role)).withTail (role.tail env.tail)

namespace Typing

/-- The tree is what computing the type of what it was checked from gives. -/
def Reinfers (env : Env) (t : Exp Checked) : Prop := infer env (t.mapAnn Checked.span) = .ok t

section Parts

variable {env : Env} {want : Option Ty} {e : Exp Span} {t : Exp Checked}

/-- Whatever was wanted, computing the type gives the same tree. -/
theorem reinfers_of_typed (h : typed env want e = .ok t) : Reinfers env t := by
  rw [Reinfers, infer, typed_erases _ _ _ _ h]
  exact ((typed_iff_infer e env want t).1 h).1

/-! ### Containers -/

/-- Every item of a checked list is what checking it again gives. -/
private theorem typedAll_reinfers {es : List (Exp Span)} {wants : List (Option Ty)}
    {ts : List (Exp Checked)} (h : typedAll env wants es = .ok ts) : ∀ t ∈ ts, Reinfers env t := by
  induction es generalizing wants ts with
  | nil =>
    cases h
    simp
  | cons e es ih =>
    obtain ⟨first, rest, hfirst, hrest, rfl⟩ := typedAll_cons_eq_ok.1 h
    exact List.forall_mem_cons.2 ⟨reinfers_of_typed hfirst, ih hrest⟩

/-- Every body of checked arms is what checking it again gives. -/
private theorem typedArms_reinfers {arms : List (Arm (Exp Span))} {width : Nat} {seen : List Int}
    {ty : Option Ty} {arms' : List (Arm (Exp Checked))}
    (h : typedArms env width seen want arms = .ok (ty, arms')) :
    ∀ arm ∈ arms', Reinfers env arm.body := by
  induction arms generalizing seen want arms' with
  | nil =>
    cases h
    simp
  | cons arm arms ih =>
    obtain ⟨_, first, rest, -, hfirst, hrest, rfl⟩ := typedArms_cons_eq_ok.1 h
    exact List.forall_mem_cons.2 ⟨reinfers_of_typed hfirst, ih hrest⟩

/-- A body was checked with the parameters in scope that its function still has. -/
private theorem typedFuncs_reinfers {fs : List (Func Span (Exp Span))}
    {fs' : List (Func Checked (Exp Checked))} (h : typedFuncs env fs = .ok fs') :
    ∀ f ∈ fs',
      Reinfers ((env.declareAll (f.params.map fun p => (p.name, p.ty))).withTail true) f.body := by
  have hparams (ps : List (Param Span)) :
      (ps.map typedParam).map (fun p => (p.name, p.ty)) = ps.map fun p => (p.name, p.ty) := by
    simp [typedParam, Function.comp_def]
  induction fs generalizing fs' with
  | nil =>
    cases h
    simp
  | cons f fs ih =>
    obtain ⟨body, rest, hbody, hrest, rfl⟩ := typedFuncs_cons_eq_ok.1 h
    refine List.forall_mem_cons.2 ⟨?_, ih hrest⟩
    rw [hparams]
    exact reinfers_of_typed hbody

/-- Every offset of a checked path is what checking it again gives. -/
private theorem typedPath_reinfers {path : List (Step (Exp Span))} {first : Bool} {ty last : Ty}
    {owner : Position} {path' : List (Step (Exp Checked))}
    (h : typedPath env first ty owner path = .ok (last, path')) :
    ∀ t ∈ offsets path', Reinfers env t := by
  induction path generalizing first ty path' with
  | nil =>
    obtain ⟨-, rfl⟩ := typedPath_nil_eq_ok.1 h
    simp
  | cons step path ih =>
    cases step with
    | field n =>
      obtain ⟨_, _, rest, -, -, hrest, rfl⟩ := typedPath_field_eq_ok.1 h
      simpa using ih hrest
    | element n =>
      obtain ⟨_, _, rest, -, -, hrest, rfl⟩ := typedPath_element_eq_ok.1 h
      simpa using ih hrest
    | lane e =>
      obtain ⟨_, _, offset, _, rest, -, hoffset, -, hrest, rfl⟩ := typedPath_lane_eq_ok.1 h
      simpa using And.intro (reinfers_of_typed hoffset) (ih hrest)
    | index e =>
      obtain ⟨_, offset, _, rest, -, -, hoffset, -, hrest, rfl⟩ := typedPath_index_eq_ok.1 h
      simpa using And.intro (reinfers_of_typed hoffset) (ih hrest)

/-- A base that a path starts from, and the offsets of the path, are operands. -/
private theorem Addresses.reinfers {s : Span} {base : Exp Span} {path : List (Step (Exp Span))}
    {base' : Exp Checked} {ty : Ty} {path' : List (Step (Exp Checked))}
    (h : Addresses env s base path base' ty path') :
    Reinfers env.operand base' ∧ ∀ t ∈ offsets path', Reinfers env.operand t := by
  obtain ⟨_, hbase, -, hpath⟩ := h
  exact ⟨reinfers_of_typed hbase, typedPath_reinfers hpath⟩

/-! ### Forms -/

/-- Checking an expression puts the flag of the environment on the root, and each part is what
    checking it in its own environment gives. -/
theorem typed_parts (h : typed env want e = .ok t) :
    t.ann.tail = env.tail ∧ ∀ p ∈ t.parts, Reinfers (env.inside t p.1) p.2 := by
  -- inversion gives for each part the environment that it was checked in, which is the one inside
  -- the whole for its role
  cases e with
  | var s id =>
    obtain ⟨binding, -, -, rfl⟩ := typed_var_eq_ok.1 h
    exact ⟨rfl, by simp [parts]⟩
  | int s value width =>
    obtain ⟨-, rfl⟩ := typed_int_eq_ok.1 h
    exact ⟨rfl, by simp [parts]⟩
  | ascribe s e ty =>
    obtain ⟨inner, hinner, -, rfl⟩ := typed_ascribe_eq_ok.1 h
    exact ⟨rfl, List.forall_mem_singleton.2 (reinfers_of_typed hinner)⟩
  | coerce s e ty =>
    obtain ⟨inner, hinner, -, rfl⟩ := typed_coerce_eq_ok.1 h
    exact ⟨rfl, List.forall_mem_singleton.2 (reinfers_of_typed hinner)⟩
  | prim s op args =>
    obtain ⟨arg, args', first, rest, rfl, hfirst, -, hrest, -, rfl⟩ := typed_prim_eq_ok.1 h
    have hargs := List.forall_mem_cons.2 ⟨reinfers_of_typed hfirst, typedAll_reinfers hrest⟩
    exact ⟨rfl, List.forall_mem_map.2 hargs⟩
  | letIn s name ty value body =>
    obtain ⟨value', body', hvalue, hbody, -, rfl⟩ := typed_letIn_eq_ok.1 h
    refine ⟨rfl, List.forall_mem_cons.2 ⟨reinfers_of_typed hvalue, ?_⟩⟩
    exact List.forall_mem_singleton.2 (reinfers_of_typed hbody)
  | call s callee args =>
    obtain ⟨callee', _, _, args', hcallee, -, -, hargs, -, rfl⟩ := typed_call_eq_ok.1 h
    refine ⟨rfl, List.forall_mem_cons.2 ⟨reinfers_of_typed hcallee, ?_⟩⟩
    exact List.forall_mem_map.2 (typedAll_reinfers hargs)
  | caseOf s scrutinee arms =>
    obtain ⟨scrutinee', _, ty, arms', hscrutinee, -, -, harms, rfl⟩ := typed_caseOf_eq_ok.1 h
    refine ⟨rfl, List.forall_mem_cons.2 ⟨reinfers_of_typed hscrutinee, ?_⟩⟩
    exact List.forall_mem_map.2 (typedArms_reinfers harms)
  | recIn s fs body =>
    obtain ⟨fs', body', hfs, hbody, -, rfl⟩ := typed_recIn_eq_ok.1 h
    -- the functions still have the names and the types that they were declared with
    have hnames : fs.map (fun f => (f.name, f.ty)) = fs'.map fun f => (f.name, f.ty) := by
      have herase := typedFuncs_erases (fun f _ => typed_erases f.body) hfs
      rw [← herase, List.map_map]
      simp [Function.comp_def]
    rw [hnames] at hfs hbody
    refine ⟨rfl, List.forall_mem_append.2 ⟨List.forall_mem_map.2 fun f hf => ?_, ?_⟩⟩
    · have hbody := typedFuncs_reinfers hfs f hf
      -- a body is inside the bundle and inside its own parameters
      rw [← Env.declareAll_append] at hbody
      exact hbody
    · have hrest := reinfers_of_typed hbody
      -- the rest of a bundle has the flag of the whole, which no declaration changes
      rw [← Env.withTail_tail (Env.declareAll ..), Env.tail_declareAll] at hrest
      exact List.forall_mem_singleton.2 hrest
  | tuple s elems =>
    obtain ⟨elems', helems, -, rfl⟩ := typed_tuple_eq_ok.1 h
    exact ⟨rfl, List.forall_mem_map.2 (typedAll_reinfers helems)⟩
  | vector s elems =>
    obtain ⟨elem, elems', first, lane, rest, rfl, hfirst, -, hrest, -, rfl⟩ :=
      typed_vector_eq_ok.1 h
    have helems := List.forall_mem_cons.2 ⟨reinfers_of_typed hfirst, typedAll_reinfers hrest⟩
    exact ⟨rfl, List.forall_mem_map.2 helems⟩
  | gep s base path =>
    obtain ⟨base', ty, path', haddr, -, rfl⟩ := typed_gep_eq_ok.1 h
    obtain ⟨hbase, hpath⟩ := haddr.reinfers
    exact ⟨rfl, List.forall_mem_cons.2 ⟨hbase, List.forall_mem_map.2 hpath⟩⟩
  | load s base path =>
    obtain ⟨base', ty, path', haddr, -, rfl⟩ := typed_load_eq_ok.1 h
    obtain ⟨hbase, hpath⟩ := haddr.reinfers
    exact ⟨rfl, List.forall_mem_cons.2 ⟨hbase, List.forall_mem_map.2 hpath⟩⟩
  | store s dest path value body =>
    obtain ⟨dest', ty, path', value', body', haddr, hvalue, hbody, -, rfl⟩ :=
      typed_store_eq_ok.1 h
    obtain ⟨hdest, hpath⟩ := haddr.reinfers
    refine ⟨rfl, List.forall_mem_cons.2 ⟨hdest, List.forall_mem_append.2
      ⟨List.forall_mem_map.2 hpath, List.forall_mem_cons.2 ⟨reinfers_of_typed hvalue, ?_⟩⟩⟩⟩
    -- of the parts of a store the last alone keeps the place of the whole
    exact List.forall_mem_singleton.2 (reinfers_of_typed hbody)
  | update s base path value =>
    obtain ⟨base', ty, path', value', hbase, -, -, hpath, hvalue, -, rfl⟩ :=
      typed_update_eq_ok.1 h
    refine ⟨rfl, List.forall_mem_cons.2 ⟨reinfers_of_typed hbase, List.forall_mem_append.2
      ⟨List.forall_mem_map.2 (typedPath_reinfers hpath), ?_⟩⟩⟩
    exact List.forall_mem_singleton.2 (reinfers_of_typed hvalue)

/-! ### Steps and trails -/

/-- The recorded flag is that of the environment. -/
theorem Reinfers.tail_eq (h : Reinfers env t) : t.ann.tail = env.tail :=
  (typed_parts h).1

/-- A part is what checking it again inside the whole gives. -/
theorem Reinfers.part (h : Reinfers env t) {role : Role Checked} {p : Exp Checked}
    (hp : (role, p) ∈ t.parts) : Reinfers (env.inside t role) p :=
  (typed_parts h).2 _ hp

/-- What stands at the end of a trail is what checking gives in the environment of its place. -/
theorem Reinfers.leads (h : Reinfers env t) {trail : Trail Checked} {x : Exp Checked}
    (hl : Leads t trail x) :
    Reinfers ((env.declareAll trail.bindings).withTail x.ann.tail) x := by
  induction hl generalizing env with
  | here =>
    rw [h.tail_eq]
    exact h
  | @down t role part trail x hp rest ih =>
    -- only the bindings made on the way add up, the flag is that of the last step
    have hx := ih (h.part hp)
    rw [Env.inside, Env.declareAll_withTail, Env.withTail_withTail, ← Env.declareAll_append] at hx
    exact hx

end Parts

/-- A checked tree is the tree that was checked, with annotations. At every place of it stands what
    computing the type gives for what stands at the same place of the tree that was checked, with
    the bindings made on the way there and the tail flag that the place has. -/
theorem infer_elaborates {env : Env} {e : Exp Span} {t : Exp Checked} (h : infer env e = .ok t) :
    t.mapAnn Checked.span = e ∧
      ∀ (i : Nat) (trail : Trail Checked) (x : Exp Checked), t.places[i]? = some (trail, x) →
        ∃ part, e.preorder[i]? = some part ∧
          infer ((env.declareAll trail.bindings).withTail x.ann.tail) part = .ok x := by
  have herase := typed_erases _ _ _ _ h
  refine ⟨herase, fun i trail x hx => ⟨x.mapAnn Checked.span, ?_, ?_⟩⟩
  · -- the nodes of the two trees correspond in preorder
    rw [← herase, preorder_mapAnn, ← map_snd_places, List.getElem?_map, List.getElem?_map, hx]
    rfl
  · exact (reinfers_of_typed h).leads (mem_places_iff_leads.1 (List.mem_of_getElem? hx))

/-- An operand that calls a function of its own, whose body calls the function again. -/
private def selfCall : Exp Span :=
  let s : Span := ⟨0, 0, "tree"⟩
  let again := Exp.call s (.var s 0) [.var s 1]
  .prim s .add
    [.recIn s [⟨s, 0, [⟨s, 1, .int 32⟩], .int 32, again⟩] (.call s (.var s 0) [.int s 1 32]),
      .int s 2 32]

/-- The body of the function is a tail, and sees the function and its parameter. -/
theorem infer_elaborates_body :
    ∃ (t : Exp Checked) (trail : Trail Checked) (x : Exp Checked) (part : Exp Span),
      infer (.empty true) selfCall = .ok t ∧ t.mapAnn Checked.span = selfCall ∧
        t.places[2]? = some (trail, x) ∧ x.ann.tail = true ∧
        trail.bindings = [(0, .fn [.int 32] (.int 32)), (1, .int 32)] ∧
        selfCall.preorder[2]? = some part ∧
        infer (((Env.empty true).declareAll trail.bindings).withTail x.ann.tail) part = .ok x := by
  have hrun : (infer (.empty true) selfCall).toOption.any (fun t => t.places[2]?.any fun place =>
      place.2.ann.tail &&
        place.1.bindings == [(0, .fn [.int 32] (.int 32)), (1, .int 32)]) = true := by
    decide +kernel
  cases h : infer (.empty true) selfCall with
  | error e =>
    rw [h] at hrun
    cases hrun
  | ok t =>
    rw [h] at hrun
    simp only [Except.toOption, Option.any_some, Option.any_eq_true_iff_get, Bool.and_eq_true,
      beq_iff_eq] at hrun
    obtain ⟨hsome, htail, hbindings⟩ := hrun
    obtain ⟨⟨trail, x⟩, hx⟩ := Option.isSome_iff_exists.1 hsome
    obtain ⟨herase, hplaces⟩ := infer_elaborates h
    obtain ⟨part, hpart, hinfer⟩ := hplaces 2 trail x hx
    simp only [hx, Option.get_some] at htail hbindings
    exact ⟨t, trail, x, part, rfl, herase, hx, htail, hbindings, hpart, hinfer⟩

end Typing

end BranchIR
