import BranchIR.Proofs.Capture.LeastNeeds
import BranchIR.Proofs.Capture.Routines

/-!
# What is needed is there where a bundle is introduced

The facts list the functions of a program in the order in which reading it has numbered them,
each once. What a function needs by the facts is bound around its bundle: by a let, a parameter
or a bundle that the way to it passes. Names of plain routines are not among it, for every bundle
in whose scope another one stands has been visited before, and by then it was settled which of
its functions are plain.
-/

namespace BranchIR.Capture

open Exp

variable {α : Type} {t node : Exp α} {trail : Trail α} {f : Func α (Exp α)} {m : MemberFacts}
  {x : VarId}

/-! ## The order of the facts -/

/-- There is one entry for each function, in the order in which they are found. -/
private theorem map_name_factsOf (t : Exp α) : (factsOf t).members.map (·.name) = t.funcNames :=
  map_name_classifyAll [] t.preorder

/-- In a numbered program the facts are listed by ascending names. -/
theorem ascending_names {scope : List VarId} {n n' : Nat} (h : Numbered scope n t n') :
    ((factsOf t).members.map (·.name)).Pairwise (· < ·) := by
  rw [map_name_factsOf]
  exact h.ascending.pairwise

/-! ## No plain routine is needed -/

/-- A need has its origin in some function of the bundle. -/
private theorem NeedsOver.exists_directly {routines : List VarId} {fs : List (Func α (Exp α))}
    (h : NeedsOver routines fs x f) : ∃ g, NeedsDirectly routines fs g x := by
  induction h with
  | direct needs => exact ⟨_, needs⟩
  | through _ _ _ _ ih => exact ih

/-- The name of a plain routine, if it is in scope of a bundle, was found to be one before the
    bundle was visited. -/
theorem NamesRoutine.exists_before (hbound : t.bound.Nodup) {before after : List (Exp α)}
    (hplace : t.preorder = before ++ node :: after) (hroutine : NamesRoutine t (factsOf t) x)
    {binder : Exp α} (hbinder : binder ∈ before) (hx : x ∈ binder.binders) :
    ∃ m ∈ classifyAll [] before, m.name = x ∧ m.isBranchTarget = false := by
  obtain ⟨g, ⟨⟨node', hnode', hg⟩, m, hfind, hempty⟩, rfl⟩ := hroutine
  have hname : g.name ∈ node'.funcs.map (·.name) := List.mem_map_of_mem hg
  -- the bundle of the routine is what binds its name
  have hbinder' : binder ∈ t.preorder := hplace ▸ List.mem_append_left _ hbinder
  obtain rfl := eq_of_mem_binders hbound hnode' hbinder' (mem_binders_of_mem_names hname) hx
  -- so the routine has an entry among the first ones, which is its only entry
  obtain ⟨m', hm', hname'⟩ : ∃ m' ∈ classifyAll [] before, m'.name = g.name := by
    rw [← List.mem_map, map_name_classifyAll]
    exact List.mem_flatMap.2 ⟨_, hbinder, hname⟩
  have hfind' := (Facts.find?_eq_some (nodup_names hbound)).2
    ⟨mem_factsOf_of_before hplace hm', hname'⟩
  rw [hfind, Option.some.injEq] at hfind'
  subst hfind'
  exact ⟨m, hm', hname', by rw [MemberFacts.isBranchTarget, hempty]; rfl⟩

/-! ## Where needs come from -/

/-- The variable is bound by a let, a parameter or a bundle around the place that the trail leads
    to, and the place is in its scope. -/
def BoundAround (trail : Trail α) (x : VarId) : Prop := ∃ step ∈ trail, x ∈ step.1.binds step.2

/-- What a need of a function has to be for the bundle, which the trail leads to, to have it. -/
structure Available (t : Exp α) (facts : Facts) (trail : Trail α) (bundle : Exp α) (x : VarId) :
    Prop where
  bound_around : BoundAround trail x
  not_bound_inside : x ∉ bundle.bound
  older : ∀ g ∈ bundle.funcs, x < g.name
  not_routine : ¬ NamesRoutine t facts x

/-- What a function of a bundle needs is available where the bundle is. -/
private theorem available_of_mem_needs {n : Nat} (hnumbered : Numbered [] 0 t n)
    (hl : Leads t trail node) (hf : f ∈ node.funcs) (hfind : (factsOf t).find? f.name = some m)
    (hx : x ∈ m.needs) : Available t (factsOf t) trail node x := by
  -- where the bundle stands: what it binds, and what was visited before it
  have hbound := hnumbered.wellBound (by simp)
  obtain ⟨k, l, holder, hnode⟩ := hnumbered.leads (by simp) hl
  obtain ⟨before, after, hplace, hpassed⟩ := hl.exists_preorder_eq
  -- the need is in scope at the bundle, so the way to it passes what binds it
  have hscope : x ∈ trail.scope [] := by
    obtain ⟨needs, hfacts⟩ := bundle_facts hbound.distinct hl.mem_preorder
    have hentry := hfacts.entry f hf
    rw [hfind, Option.some.injEq] at hentry
    subst hentry
    exact hfacts.needs_scope (hbound.leads hl) hf hx
  have haround : BoundAround trail x := (Trail.mem_scope hscope).resolve_left (by simp)
  refine ⟨haround, (hbound.leads hl).fresh x hscope, fun g hg => ?_, fun hroutine => ?_⟩
  · -- the names of the bundle are the next identities at this place
    have hname : g.name ∈ node.funcs.map (·.name) := List.mem_map_of_mem hg
    rw [(numbered_iff.1 hnode).2.1] at hname
    exact Nat.lt_of_lt_of_le (holder x hscope) (List.mem_range'_1.1 hname).1
  · -- the routine would have been known when the bundle was visited
    obtain ⟨known, hknown, hentries⟩ := exists_known hbound.distinct hplace
    have hentry := hentries f hf
    rw [hfind, Option.some.injEq] at hentry
    -- a need comes from a function of the bundle that refers to it directly
    subst hentry
    have hdistinct := nodup_names_of_mem hbound.distinct hl.mem_preorder
    obtain ⟨g, hdirect⟩ := ((mem_needsOf_solved hdistinct hf).1 hx).exists_directly
    obtain ⟨⟨binder, role⟩, hstep, hin⟩ := haround
    obtain ⟨above, below, rfl⟩ := List.append_of_mem hstep
    cases hl.split.2 with
    | down hp _ =>
      have hbinder := mem_binders_of_mem_binds hp hin
      have hbefore := hroutine.exists_before hbound.distinct hplace (hpassed _ hstep) hbinder
      exact hdirect.not_routine ((hknown x).2 hbefore)

/-- In an accepted program the facts have one entry for each function, in the order of the nodes
    and by ascending names. What a function needs is bound around its bundle by a let, a parameter
    or a bundle in whose scope it stands, never inside; it is older than all names of the bundle,
    and it is no plain routine's name. -/
theorem needs_available {source file : String} {c : Compiled}
    (h : compile source file = .ok c) :
    c.facts.members.map (·.name) = c.tree.funcNames ∧
      (c.facts.members.map (·.name)).Pairwise (· < ·) ∧
      (∀ m ∈ c.facts.members, c.facts.find? m.name = some m) ∧
      ∀ trail bundle, Leads c.tree trail bundle → ∀ f ∈ bundle.funcs,
        ∃ m, c.facts.find? f.name = some m ∧
          ∀ x ∈ m.needs, Available c.tree c.facts trail bundle x := by
  obtain ⟨n, hnumbered⟩ := checkSource_numbered (compile_checkSource h)
  have hbound := hnumbered.wellBound (by simp)
  obtain ⟨-, -, -, hanalyze, -⟩ := compile_eq_ok.1 h
  obtain ⟨hfacts, -⟩ := analyze_eq_ok.1 hanalyze
  rw [hfacts]
  refine ⟨map_name_factsOf _, ascending_names hnumbered, fun m hm => ?_, ?_⟩
  · exact (Facts.find?_eq_some (nodup_names hbound.distinct)).2 ⟨hm, rfl⟩
  · intro trail bundle hl f hf
    obtain ⟨needs, hentries⟩ := bundle_facts hbound.distinct hl.mem_preorder
    exact ⟨_, hentries.entry f hf,
      fun x hx => available_of_mem_needs hnumbered hl hf (hentries.entry f hf) hx⟩

/-- A plain routine, and a branch target inside another one that uses it. -/
private def inner : String :=
  "let k: i32 = 1i32 in rec id(z: i32): i32 = z in
    rec f(x: i32): i32 = rec g(y: i32): i32 = id(add(x, k)) in g(x) in f(k)"

/-- The inner branch target needs the outer one's parameter and the let's variable. -/
theorem needs_available_inner :
    ∃ c, compile inner "inner" = .ok c ∧
      c.facts.members.map (fun m => (m.name, m.needs.ids)) = [(1, []), (3, [0]), (5, [0, 4])] ∧
      c.facts.members.map (·.name) = c.tree.funcNames ∧
      (c.facts.members.map (·.name)).Pairwise (· < ·) ∧
      (∀ m ∈ c.facts.members, c.facts.find? m.name = some m) ∧
      ∀ trail bundle, Leads c.tree trail bundle → ∀ f ∈ bundle.funcs,
        ∃ m, c.facts.find? f.name = some m ∧
          ∀ x ∈ m.needs, Available c.tree c.facts trail bundle x := by
  have hrun : (compile inner "inner").toOption.map (fun c =>
      c.facts.members.map fun m => (m.name, m.needs.ids)) =
        some [(1, []), (3, [0]), (5, [0, 4])] := by
    decide +kernel
  cases hc : compile inner "inner" with
  | error e =>
    rw [hc] at hrun
    cases hrun
  | ok c =>
    rw [hc] at hrun
    exact ⟨c, rfl, Option.some.inj hrun, needs_available hc⟩

end BranchIR.Capture
