import BranchIR.Proofs.Capture.Classification
import BranchIR.Proofs.FrontEnd

/-!
# Plain routines capture nothing

A plain routine can be run from anywhere because nothing that its body uses has to come from
around it: what is free in the body is one of the routine's own parameters, or again the name
of a plain routine. By induction along references, no chain of them leads from a plain routine
to a let's variable, to a parameter of another function or to a branch target.
-/

namespace BranchIR.Capture

open Exp

variable {α : Type}

/-- The function belongs to a bundle of the program. -/
def IsMember (t : Exp α) (f : Func α (Exp α)) : Prop := ∃ node ∈ t.preorder, f ∈ node.funcs

/-- The function belongs to a bundle of the program, and it needs nothing by the facts. -/
def IsRoutine (t : Exp α) (facts : Facts) (f : Func α (Exp α)) : Prop :=
  IsMember t f ∧ ∃ m, facts.find? f.name = some m ∧ m.needs = .empty

/-- The variable is the name of a plain routine. -/
def NamesRoutine (t : Exp α) (facts : Facts) (x : VarId) : Prop :=
  ∃ g, IsRoutine t facts g ∧ g.name = x

/-- The function depends on the variable: it is free in the body and no parameter, or some
    function that the body refers to depends on it. -/
inductive DependsOn (t : Exp α) : Func α (Exp α) → VarId → Prop
  | direct {f x} (hfree : Free x f.body) (hparam : x ∉ f.params.map (·.name)) : DependsOn t f x
  | through {f g x} (hg : IsMember t g) (hcall : Free g.name f.body) (hdep : DependsOn t g x) :
      DependsOn t f x

variable {t : Exp α} {f g : Func α (Exp α)} {x : VarId}

/-! ## What is free in the body of a routine -/

/-- A name with an entry in the facts is that of a function. -/
theorem exists_isMember {m : MemberFacts} (h : (factsOf t).find? x = some m) :
    ∃ g, IsMember t g ∧ g.name = x := by
  have hm := List.mem_of_find?_eq_some h
  have hname : m.name = x := by simpa using List.find?_some h
  have hx : x ∈ (factsOf t).members.map (·.name) := hname ▸ List.mem_map_of_mem hm
  rw [factsOf, map_name_classifyAll] at hx
  obtain ⟨node, hnode, hx⟩ := List.mem_flatMap.1 hx
  obtain ⟨g, hg, hgx⟩ := List.mem_map.1 hx
  exact ⟨g, ⟨node, hnode, hg⟩, hgx⟩

/-- What is free in the body of a plain routine is one of its parameters or the name of a plain
    routine. -/
theorem IsRoutine.free (hbound : WellBound [] t) (hf : IsRoutine t (factsOf t) f)
    (hfree : Free x f.body) : x ∈ f.params.map (·.name) ∨ NamesRoutine t (factsOf t) x := by
  obtain ⟨⟨node, hnode, hf⟩, m, hfind, hempty⟩ := hf
  obtain ⟨needs, hfacts⟩ := bundle_facts hbound.distinct hnode
  obtain ⟨scope, -, hwb⟩ := hbound.node hnode
  -- the facts on `f` are those that its own bundle makes
  have hentry := hfacts.entry f hf
  rw [hfind, Option.some.injEq] at hentry
  -- so none of its needs may be found below
  have hnone : ∀ y, y ∉ needs f.name := by
    intro y hy
    rw [hentry] at hempty
    simp [show needs f.name = .empty from hempty] at hy
  have hfv := (mem_freeVars_iff_free (wellBound_body hwb hf)).2 hfree
  by_cases hparam : x ∈ f.params.map (·.name)
  · exact .inl hparam
  · right
    by_cases hname : x ∈ node.funcs.map (·.name)
    · -- a function of the same bundle: its needs would be needs of `f`
      obtain ⟨g, hg, rfl⟩ := List.mem_map.1 hname
      have hg' : needs g.name = .empty := VarSet.ext fun y => by
        have hy : y ∉ needs g.name := fun hy => hnone y (hfacts.inherits hwb hf hg hfv hy)
        simp [hy]
      exact ⟨g, ⟨⟨node, hnode, hg⟩, _, hfacts.entry g hg, hg'⟩, rfl⟩
    · -- from around the bundle: known to be plain, or needed
      obtain hplain | hneeds := hfacts.direct f hf x hfv hparam hname
      · obtain ⟨g, hg, rfl⟩ := exists_isMember hplain
        exact ⟨g, ⟨hg, _, hplain, rfl⟩, rfl⟩
      · exact absurd hneeds (hnone x)

/-! ## What names of functions are not -/

/-- No parameter has the name of a function, where no identity is bound twice. -/
theorem IsMember.name_ne_param (hbound : t.bound.Nodup) (hg : IsMember t g)
    (hf : IsMember t f) : g.name ∉ f.params.map (·.name) := by
  intro hparam
  obtain ⟨node, hnode, hg⟩ := hg
  obtain ⟨node', hnode', hf⟩ := hf
  have hname : g.name ∈ node.funcs.map (·.name) := List.mem_map_of_mem hg
  -- one node binds both, as the name of a function and as a parameter
  obtain rfl := eq_of_mem_binders hbound hnode hnode' (mem_binders_of_mem_names hname)
    (mem_binders_of_mem_params hf hparam)
  have hbinders : node.binders.Nodup := by
    rw [bound] at hbound
    exact hbound.sublist (List.flatMap_def ▸ List.sublist_flatten_of_mem
      (List.mem_map_of_mem hnode))
  -- but the binders of a bundle are its names and then its parameters, none twice
  cases node with
  | recIn a fs body =>
    rw [binders, List.nodup_append] at hbinders
    exact hbinders.2.2 _ hname _ (List.mem_flatMap.2 ⟨f, hf, hparam⟩) rfl
  | _ => simp [funcs] at hf

/-- No let binds the name of a function, where no identity is bound twice. -/
private theorem IsMember.name_not_let (hbound : t.bound.Nodup) (hg : IsMember t g) (a : α) (ty : Ty)
    (value body : Exp α) : Exp.letIn a g.name ty value body ∉ t.preorder := by
  intro hlet
  obtain ⟨node, hnode, hg⟩ := hg
  have hbinder := mem_binders_of_mem_names (List.mem_map_of_mem (f := fun g => g.name) hg)
  -- the let would be the node of the bundle
  obtain rfl := eq_of_mem_binders hbound hnode hlet hbinder (by simp [binders])
  simp [funcs] at hg

/-- The name of a plain routine is not that of a branch target. -/
theorem NamesRoutine.not_mem_targets (hbound : t.bound.Nodup)
    (h : NamesRoutine t (factsOf t) x) : x ∉ (factsOf t).targets := by
  obtain ⟨g, ⟨-, m, hfind, hempty⟩, rfl⟩ := h
  rw [Facts.mem_targets]
  -- a name has one entry, which cannot both need something and nothing
  intro ⟨m', hm', hname, hneeds⟩
  rw [(Facts.find?_eq_some (nodup_names hbound)).2 ⟨hm', hname⟩, Option.some.injEq] at hfind
  exact hneeds (hfind ▸ hempty)

/-! ## What a routine depends on -/

/-- All that a plain routine depends on is the names of plain routines. -/
private theorem IsRoutine.dependsOn (hbound : WellBound [] t) (hf : IsRoutine t (factsOf t) f)
    (h : DependsOn t f x) : NamesRoutine t (factsOf t) x := by
  induction h with
  | direct hfree hparam => exact (hf.free hbound hfree).resolve_left hparam
  | @through f g x hg hcall _ ih =>
    -- the function called is no parameter, so it is a plain routine itself
    have hparam := hg.name_ne_param hbound.distinct hf.1
    obtain ⟨g', ⟨-, hplain⟩, hname⟩ := (hf.free hbound hcall).resolve_left hparam
    exact ih ⟨hg, hname ▸ hplain⟩

/-- In an accepted program, a plain routine depends on no let's variable, on no function's
    parameter and on no branch target, neither by its own body nor by those it refers to: what
    is free in its body is its own parameters and the names of plain routines. -/
theorem routine_captures_nothing {source file : String} {c : Compiled}
    (h : compile source file = .ok c) {f : Func Checked (Exp Checked)}
    (hf : IsRoutine c.tree c.facts f) :
    (∀ x, Free x f.body → x ∈ f.params.map (·.name) ∨ NamesRoutine c.tree c.facts x) ∧
      ∀ x, DependsOn c.tree f x →
        NamesRoutine c.tree c.facts x ∧ x ∉ c.facts.targets ∧
          (∀ a ty value body, Exp.letIn a x ty value body ∉ c.tree.preorder) ∧
          ∀ g, IsMember c.tree g → x ∉ g.params.map (·.name) := by
  have hbound := checkSource_wellBound (compile_checkSource h)
  obtain ⟨-, -, -, hanalyze, -⟩ := compile_eq_ok.1 h
  obtain ⟨hfacts, -⟩ := analyze_eq_ok.1 hanalyze
  rw [hfacts] at hf ⊢
  refine ⟨fun x hfree => hf.free hbound hfree, fun x hdep => ?_⟩
  have hroutine := hf.dependsOn hbound hdep
  refine ⟨hroutine, hroutine.not_mem_targets hbound.distinct, ?_⟩
  obtain ⟨g, ⟨hg, -⟩, rfl⟩ := hroutine
  exact ⟨hg.name_not_let hbound.distinct, fun f' hf' => hg.name_ne_param hbound.distinct hf'⟩

/-- A bundle of two plain routines and a branch target. -/
private def nested : String :=
  "let k: i32 = 1i32 in rec f(x: i32): i32 = g(x) and g(y: i32): i32 = y
    and h(z: i32): i32 = f(k) in h(k)"

/-- The first of the two plain routines depends on the second only. -/
theorem routine_captures_nothing_bundle :
    ∃ c f, compile nested "bundle" = .ok c ∧
      f.name = 1 ∧ IsRoutine c.tree c.facts f ∧
      (∀ x, Free x f.body → x ∈ f.params.map (·.name) ∨ NamesRoutine c.tree c.facts x) ∧
      ∀ x, DependsOn c.tree f x →
        NamesRoutine c.tree c.facts x ∧ x ∉ c.facts.targets ∧
          (∀ a ty value body, Exp.letIn a x ty value body ∉ c.tree.preorder) ∧
          ∀ g, IsMember c.tree g → x ∉ g.params.map (·.name) := by
  -- the run finds the function, and what is to be shown of it is decided on the facts alone
  have hrun : (compile nested "bundle").toOption.any (fun c =>
      c.tree.preorder.any fun node => node.funcs.any fun f =>
        f.name == 1 && (c.facts.find? f.name).any fun m => m.needs == .empty) = true := by
    decide +kernel
  cases hc : compile nested "bundle" with
  | error e =>
    rw [hc] at hrun
    cases hrun
  | ok c =>
    rw [hc] at hrun
    simp only [Except.toOption, Option.any_some, List.any_eq_true, Bool.and_eq_true,
      beq_iff_eq, Option.any_eq_true] at hrun
    obtain ⟨node, hnode, f, hf, hname, m, hfind, hempty⟩ := hrun
    have hroutine : IsRoutine c.tree c.facts f := ⟨⟨node, hnode, hf⟩, m, hfind, hempty⟩
    exact ⟨c, f, rfl, hname, hroutine, routine_captures_nothing hc hroutine⟩

end BranchIR.Capture
