import BranchIR.Proofs.Capture.Needs
import BranchIR.Proofs.Exp.Binding

/-!
# Which functions are plain

The facts on a program go through its bundles from the outside in, and what is found to be
plain counts as plain from then on. In a well-bound program each function has one entry in the
facts, so "found to be plain so far" says no more than the facts in the end, and the needs of
a bundle's functions can be told from the facts alone: `bundle_facts`.

## Key results

- `Facts.find?_eq_some`: the entry found under a name is the one that has it
- `exists_known`: which routines are known when a bundle is visited
- `bundle_facts`: what the entries for the functions of a bundle satisfy
-/

namespace BranchIR.Capture

open Exp

variable {α : Type}

/-! ## The names in the facts -/

/-- There is one entry for each function of the bundle, in the order of the bundle. -/
private theorem map_name_classify (routines : List VarId) (fs : List (Func α (Exp α))) :
    (classify routines fs).map (·.name) = fs.map (·.name) := by
  -- passing needs on changes no names
  have hpass (n : Nat) (ms : List Member) : (passOn n ms).map (·.name) = ms.map (·.name) := by
    induction n generalizing ms with
    | zero => rfl
    | succ n ih =>
      rw [passOn, ih, List.map_map]
      rfl
  calc
    (classify routines fs).map (·.name) = (solved routines fs).map (·.name) := by
      rw [classify, List.map_map]
      rfl
    _ = fs.map (·.name) := by
      rw [solved, hpass, members, List.map_map]
      rfl

/-- The facts have one entry for each function of each bundle. -/
theorem map_name_classifyAll (routines : List VarId) (es : List (Exp α)) :
    (classifyAll routines es).map (·.name) = es.flatMap fun e => e.funcs.map (·.name) := by
  induction es generalizing routines with
  | nil => rfl
  | cons e es ih =>
    rw [classifyAll, List.map_append, map_name_classify, ih, List.flatMap_cons]

/-- The names of all functions of a tree are among what it binds, in the same order. -/
private theorem names_sublist_bound (es : List (Exp α)) :
    (es.flatMap fun e => e.funcs.map (·.name)).Sublist (es.flatMap binders) := by
  have hnode (e : Exp α) : (e.funcs.map (·.name)).Sublist e.binders := by
    cases e with
    | recIn a fs body => exact List.sublist_append_left ..
    | _ => exact List.nil_sublist _
  induction es with
  | nil => exact List.Sublist.refl _
  | cons e es ih =>
    rw [List.flatMap_cons, List.flatMap_cons]
    exact (hnode e).append ih

/-- In a program that binds no identity twice the facts name no function twice. -/
theorem nodup_names {e : Exp α} (h : e.bound.Nodup) :
    ((factsOf e).members.map (·.name)).Nodup := by
  rw [factsOf, map_name_classifyAll]
  exact h.sublist (names_sublist_bound _)

/-- In a list in which no name stands twice, the entry found under a name is the one that has
    it. -/
theorem Facts.find?_eq_some {facts : Facts} (h : (facts.members.map (·.name)).Nodup)
    {name : VarId} {m : MemberFacts} :
    facts.find? name = some m ↔ m ∈ facts.members ∧ m.name = name := by
  constructor
  · intro hfind
    exact ⟨List.mem_of_find?_eq_some hfind, by simpa using List.find?_some hfind⟩
  · intro ⟨hm, hname⟩
    obtain ⟨before, after, hlist⟩ := List.append_of_mem hm
    rw [hlist, List.map_append, List.map_cons, List.nodup_append] at h
    -- the search passes over all entries before this one
    have hbefore : ∀ m' ∈ before, ¬ (m'.name == name) = true := by
      intro m' hm' heq
      have hne := h.2.2 _ (List.mem_map_of_mem hm') m.name (List.mem_cons_self ..)
      exact hne (by rw [hname, beq_iff_eq.1 heq])
    rw [find?, hlist, List.find?_append, List.find?_eq_none.2 hbefore]
    simp [hname]

/-- Only the empty set has no elements. -/
private theorem isEmpty_iff_eq_empty {s : VarSet} : s.isEmpty = true ↔ s = .empty := by
  rw [VarSet.isEmpty_iff]
  constructor
  · intro h
    exact VarSet.ext fun x => by simp [h x]
  · intro h x
    simp [h]

/-- A function is a branch target exactly if its entry has needs. -/
theorem Facts.mem_targets {facts : Facts} {name : VarId} :
    name ∈ facts.targets ↔ ∃ m ∈ facts.members, m.name = name ∧ m.needs ≠ .empty := by
  have hempty (s : VarSet) : s.isEmpty = false ↔ s ≠ .empty := by
    rw [← Bool.not_eq_true, isEmpty_iff_eq_empty]
  simp only [targets, List.mem_map, List.mem_filter, MemberFacts.isBranchTarget,
    Bool.not_eq_eq_eq_not, Bool.not_true, hempty]
  constructor
  · intro ⟨m, ⟨hm, hneeds⟩, hname⟩
    exact ⟨m, hm, hname, hneeds⟩
  · intro ⟨m, hm, hname, hneeds⟩
    exact ⟨m, ⟨hm, hneeds⟩, hname⟩

/-- Analysis answers with the facts if no use of a branch target is at fault. -/
theorem analyze_eq_ok {t : Exp Checked} {facts : Facts} :
    analyze t = .ok facts ↔ facts = factsOf t ∧ fault? facts.targets t = none := by
  rw [analyze]
  cases hfault : fault? (factsOf t).targets t with
  | none =>
    simp only [Except.ok.injEq]
    constructor
    · intro h
      subst h
      exact ⟨rfl, hfault⟩
    · intro h
      exact h.1.symm
  | some error =>
    simp only [reduceCtorEq, false_iff]
    intro ⟨hfacts, hnone⟩
    rw [hfacts, hfault] at hnone
    cases hnone

/-- Analysis answers with a fault if one is found. -/
theorem analyze_eq_error {t : Exp Checked} {err : Error} :
    analyze t = .error err ↔ fault? (factsOf t).targets t = some err := by
  rw [analyze]
  cases fault? (factsOf t).targets t <;> simp

/-! ## One bundle among all -/

/-- The entries up to a bundle, its own, and those after it. The routines known when the bundle is
    visited are those found plain before. -/
private theorem classifyAll_append (routines : List VarId) (before : List (Exp α)) (node : Exp α)
    (after : List (Exp α)) :
    ∃ known rest, classifyAll routines (before ++ node :: after) =
        classifyAll routines before ++ (classify known node.funcs ++ rest) ∧
      ∀ x, x ∈ known ↔
        x ∈ routines ∨
          ∃ m ∈ classifyAll routines before, m.name = x ∧ m.isBranchTarget = false := by
  induction before generalizing routines with
  | nil => exact ⟨routines, _, rfl, by simp [classifyAll]⟩
  | cons e es ih =>
    rw [List.cons_append, classifyAll, classifyAll]
    obtain ⟨known, rest, hentries, hknown⟩ := ih _
    refine ⟨known, rest, by rw [hentries, List.append_assoc], fun x => ?_⟩
    -- what is known at a later bundle was known here, or is found to be plain here or later
    rw [hknown]
    simp only [List.mem_append, List.mem_map, List.mem_filter, Bool.not_eq_eq_eq_not, Bool.not_true,
      or_and_right, exists_or]
    constructor
    · rintro ((⟨m, ⟨hm, htarget⟩, hname⟩ | hx) | hlater)
      · exact .inr (.inl ⟨m, hm, hname, htarget⟩)
      · exact .inl hx
      · exact .inr (.inr hlater)
    · rintro (hx | ⟨m, hm, hname, htarget⟩ | hlater)
      · exact .inl (.inr hx)
      · exact .inl (.inl ⟨m, ⟨hm, htarget⟩, hname⟩)
      · exact .inr hlater

section Placed

variable {t node : Exp α} {before after : List (Exp α)}

/-- What is found up to a bundle is among the facts. -/
theorem mem_factsOf_of_before (hplace : t.preorder = before ++ node :: after) {m : MemberFacts}
    (hm : m ∈ classifyAll [] before) : m ∈ (factsOf t).members := by
  obtain ⟨known, rest, hentries, -⟩ := classifyAll_append [] before node after
  rw [factsOf, hplace, hentries]
  exact List.mem_append_left _ hm

/-- The names of one bundle differ from each other. -/
theorem nodup_names_of_mem (hbound : t.bound.Nodup) (hnode : node ∈ t.preorder) :
    (node.funcs.map (·.name)).Nodup := by
  have hnames := nodup_names hbound
  rw [factsOf, map_name_classifyAll] at hnames
  exact hnames.sublist (List.flatMap_def ▸ List.sublist_flatten_of_mem
    (List.mem_map_of_mem hnode))

/-- In a program that binds no identity twice, the entry of a bundle's function has the needs that
    are left with the routines found plain before the bundle. -/
theorem exists_known (hbound : t.bound.Nodup) (hplace : t.preorder = before ++ node :: after) :
    ∃ known, (∀ x, x ∈ known ↔ ∃ m ∈ classifyAll [] before, m.name = x ∧ m.isBranchTarget = false) ∧
      ∀ f ∈ node.funcs, (factsOf t).find? f.name =
        some ⟨f.name, needsOf (solved known node.funcs) f.name⟩ := by
  have hdistinct := nodup_names_of_mem hbound (hplace ▸ List.mem_append_cons_self)
  obtain ⟨known, rest, hentries, hknown⟩ := classifyAll_append [] before node after
  refine ⟨known, fun x => by simp [hknown], fun f hf => ?_⟩
  -- the bundle's own entries are among all, and each name has only one
  refine (Facts.find?_eq_some (nodup_names hbound)).2 ⟨?_, rfl⟩
  rw [factsOf, hplace, hentries, classify_eq_map hdistinct]
  exact List.mem_append_right _ (List.mem_append_left _
    (List.mem_map_of_mem (f := fun f => MemberFacts.mk f.name _) hf))

end Placed

/-- The needs of a bundle's functions by the facts on the whole program. -/
structure BundleFacts (facts : Facts) (fs : List (Func α (Exp α))) (needs : VarId → VarSet) :
    Prop where
  /-- Each function has its entry. -/
  entry : ∀ f ∈ fs, facts.find? f.name = some ⟨f.name, needs f.name⟩
  /-- What a function's body uses is its own, or of the bundle, or plain, or needed. -/
  direct : ∀ f ∈ fs, ∀ x ∈ f.body.freeVars, x ∉ f.params.map (·.name) → x ∉ fs.map (·.name) →
    facts.find? x = some ⟨x, .empty⟩ ∨ x ∈ needs f.name
  /-- Needs are passed on along references, but for a function's own parameters. -/
  passed : ∀ f ∈ fs, ∀ g ∈ fs, g.name ∈ f.body.freeVars → ∀ x ∈ needs g.name,
    x ∉ f.params.map (·.name) → x ∈ needs f.name
  /-- Nothing is needed but what some body of the bundle uses from around the bundle. -/
  only : ∀ f ∈ fs, ∀ x ∈ needs f.name, x ∉ fs.map (·.name) ∧
    ∃ g ∈ fs, x ∈ g.body.freeVars ∧ x ∉ g.params.map (·.name)

/-- In a program that binds no identity twice, the facts say of every bundle what its functions
    need. -/
theorem bundle_facts {t node : Exp α} (hbound : t.bound.Nodup) (hnode : node ∈ t.preorder) :
    ∃ needs, BundleFacts (factsOf t) node.funcs needs := by
  obtain ⟨before, after, hplace⟩ := List.append_of_mem hnode
  obtain ⟨known, hknown, hentry⟩ := exists_known hbound hplace
  have hsolves := @solves_solved α known _ (nodup_names_of_mem hbound hnode)
  refine ⟨needsOf (solved known node.funcs), hentry, ?_, hsolves.passed, hsolves.only⟩
  intro f hf x hfree hparam hname
  by_cases hx : x ∈ known
  · -- known to be plain: the facts have the entry
    obtain ⟨⟨name, needs⟩, hm, rfl, htarget⟩ := (hknown x).1 hx
    have hempty : needs = .empty := by
      rw [← isEmpty_iff_eq_empty]
      simpa [MemberFacts.isBranchTarget] using htarget
    subst hempty
    exact .inl ((Facts.find?_eq_some (nodup_names hbound)).2 ⟨mem_factsOf_of_before hplace hm, rfl⟩)
  · exact .inr (hsolves.direct f hf x hfree hparam hname hx)

/-! ## Needs and scopes -/

section Scoped

variable {t node : Exp α} {scope : List VarId} {needs : VarId → VarSet}

/-- The body of a function is well-bound below the bundle. -/
theorem wellBound_body {f : Func α (Exp α)} (h : WellBound scope node) (hf : f ∈ node.funcs) :
    WellBound (f.params.map (·.name) ++ node.funcs.map (·.name) ++ scope) f.body := by
  cases node with
  | recIn a fs body =>
    have hp : (Role.body f, f.body) ∈ (Exp.recIn a fs body).parts :=
      List.mem_append_left _ (List.mem_map_of_mem (f := fun f => (Role.body f, f.body)) hf)
    exact h.part hp
  | _ => simp [funcs] at hf

/-- A bundle binds the parameters of its functions. -/
theorem mem_binders_of_mem_params {f : Func α (Exp α)} {x : VarId} (hf : f ∈ node.funcs)
    (hx : x ∈ f.params.map (·.name)) : x ∈ node.binders := by
  cases node with
  | recIn a fs body => exact List.mem_append_right _ (List.mem_flatMap.2 ⟨f, hf, hx⟩)
  | _ => simp [funcs] at hf

/-- A bundle binds the names of its functions. -/
theorem mem_binders_of_mem_names {x : VarId} (hx : x ∈ node.funcs.map (·.name)) :
    x ∈ node.binders := by
  cases node with
  | recIn a fs body => exact List.mem_append_left _ hx
  | _ => simp [funcs] at hx

/-- What is free in the body of a function, but no parameter and no name of the bundle, is in scope
    around the bundle. -/
theorem mem_scope_of_mem_freeVars {f : Func α (Exp α)} {x : VarId} (hnode : WellBound scope node)
    (hf : f ∈ node.funcs) (hfree : x ∈ f.body.freeVars) (hparam : x ∉ f.params.map (·.name))
    (hname : x ∉ node.funcs.map (·.name)) : x ∈ scope := by
  have hbody := wellBound_body hnode hf
  have hin := hbody.closed x ((mem_freeVars_iff_free hbody).1 hfree)
  -- a parameter, a name of the bundle, or from around it: only the last is left
  rcases List.mem_append.1 hin with hin | hin
  · rcases List.mem_append.1 hin with hin | hin
    · exact absurd hin hparam
    · exact absurd hin hname
  · exact hin

/-- What a function of a bundle needs is in scope around the bundle. -/
theorem BundleFacts.needs_scope {facts : Facts} (h : BundleFacts facts node.funcs needs)
    (hnode : WellBound scope node) {f : Func α (Exp α)} (hf : f ∈ node.funcs) {x : VarId}
    (hx : x ∈ needs f.name) : x ∈ scope := by
  obtain ⟨hname, g, hg, hfree, hparam⟩ := h.only f hf x hx
  exact mem_scope_of_mem_freeVars hnode hg hfree hparam hname

/-- So no function of the bundle has it as a parameter, and it is passed on to all functions
    that refer to one that needs it. -/
theorem BundleFacts.inherits {facts : Facts} (h : BundleFacts facts node.funcs needs)
    (hnode : WellBound scope node) {f g : Func α (Exp α)} (hf : f ∈ node.funcs)
    (hg : g ∈ node.funcs) (hcalls : g.name ∈ f.body.freeVars) {x : VarId}
    (hx : x ∈ needs g.name) : x ∈ needs f.name := by
  apply h.passed f hf g hg hcalls x hx
  intro hparam
  -- as a parameter it would be bound again below the scope it is from
  have hbinder := mem_binders_of_mem_params hf hparam
  exact hnode.fresh x (h.needs_scope hnode hg hx) (mem_bound.2 ⟨node, mem_preorder_self _, hbinder⟩)

end Scoped

end BranchIR.Capture
