import BranchIR.Proofs.Capture.LeastNeeds
import BranchIR.Proofs.Capture.Misuse
import BranchIR.Proofs.Capture.Routines
import BranchIR.Proofs.Exp.Rearranged

/-!
# Facts on bundles in another order

The facts on a bundle depend on which routines are known to be plain when it is visited, and these
are collected in preorder, over the members of the bundles before. But what a function uses from
around its bundle is bound by a node on the way to the bundle. So all that counts is which names
bound on the way are plain in the end, and from the outside in these are the same in every order.
-/

namespace BranchIR.Capture

open Exp

variable {α : Type}

/-- The names of the plain routines. -/
def Facts.plain (facts : Facts) : List VarId :=
  (facts.members.filter fun m => !m.isBranchTarget).map (·.name)

/-- The plain routines are those functions that are found with no needs. The names differ, so a
    function is found by its name. -/
private theorem Facts.mem_plain {facts : Facts} (h : (facts.members.map (·.name)).Nodup)
    {x : VarId} :
    x ∈ facts.plain ↔ ∃ m, facts.find? x = some m ∧ m.isBranchTarget = false := by
  simp only [plain, List.mem_map, List.mem_filter, Bool.not_eq_eq_eq_not, Bool.not_true,
    Facts.find?_eq_some h]
  constructor
  · intro ⟨m, ⟨hm, htarget⟩, hname⟩
    exact ⟨m, ⟨hm, hname⟩, htarget⟩
  · intro ⟨m, ⟨hm, hname⟩, htarget⟩
    exact ⟨m, ⟨hm, htarget⟩, hname⟩

/-! ## Needs and what is known to be plain -/

/-- The functions have the same name, the same parameters' names, and bodies that refer to the
    same. -/
structure SameRefs (f f' : Func α (Exp α)) : Prop where
  name : f.name = f'.name
  params : f.params.map (·.name) = f'.params.map (·.name)
  free : f.body.freeVars = f'.body.freeVars

theorem SameRefs.refl (f : Func α (Exp α)) : SameRefs f f := ⟨rfl, rfl, rfl⟩

theorem SameRefs.symm {f f' : Func α (Exp α)} (h : SameRefs f f') : SameRefs f' f :=
  ⟨h.name.symm, h.params.symm, h.free.symm⟩

section Needs

variable {routines routines' : List VarId} {fs fs' : List (Func α (Exp α))}
  {f f' : Func α (Exp α)} {x : VarId}

/-- What a function needs by itself, a function with the same references needs by itself, where the
    bundle has the same names and no more routines are known. -/
private theorem NeedsDirectly.transfer (h : NeedsDirectly routines fs f x) (hsame : SameRefs f f')
    (hnames : x ∈ fs'.map (·.name) → x ∈ fs.map (·.name)) (hroutine : x ∉ routines') :
    NeedsDirectly routines' fs' f' x :=
  ⟨hsame.free ▸ h.free, hsame.params ▸ h.not_param, mt hnames h.not_member, hroutine⟩

/-- A need is the same in a bundle of the same functions, if it is of none of the routines that are
    known there. -/
private theorem NeedsOver.transfer (h : NeedsOver routines fs x f)
    (hmembers : ∀ g ∈ fs, ∃ g' ∈ fs', SameRefs g g')
    (hnames : x ∈ fs'.map (·.name) → x ∈ fs.map (·.name))
    (hroutines : ∀ g ∈ fs, NeedsDirectly routines fs g x → x ∉ routines') (hf : f ∈ fs)
    (hsame : SameRefs f f') : NeedsOver routines' fs' x f' := by
  induction h generalizing f' with
  | direct h =>
    exact .direct (h.transfer hsame hnames (hroutines _ hf h))
  | through hg hmentions hparam _ ih =>
    obtain ⟨g', hg', hsame'⟩ := hmembers _ hg
    have hmentions' : Mentions f' g' := by
      rw [Mentions, ← hsame'.name, ← hsame.free]
      exact hmentions
    exact .through hg' hmentions' (hsame.params ▸ hparam) (ih hg hsame')

end Needs

/-! ## Names bound on the way to a bundle -/

section Entries

variable {t t' node : Exp α} {trail : Trail α} {x : VarId}

/-- What is in scope at the end of a trail is bound by a node that is passed. -/
private theorem exists_binder_of_mem_scope {x : VarId} (hl : Leads t trail node)
    (hx : x ∈ trail.scope []) :
    ∃ above binder role below, trail = above ++ (binder, role) :: below ∧
      Leads t above binder ∧ x ∈ binder.binders := by
  rcases Trail.mem_scope hx with hnil | ⟨⟨binder, role⟩, hstep, hbinds⟩
  · simp at hnil
  · obtain ⟨above, below, rfl⟩ := List.append_of_mem hstep
    obtain ⟨habove, hbelow⟩ := hl.split
    cases hbelow with
    | down hp rest =>
      exact ⟨above, binder, role, below, rfl, habove, mem_binders_of_mem_binds hp hbinds⟩

/-- Only names of functions have entries. -/
private theorem exists_mem_names {m : MemberFacts} (h : (factsOf t).find? x = some m) :
    ∃ node ∈ t.preorder, x ∈ node.funcs.map (·.name) := by
  obtain ⟨g, ⟨node, hnode, hg⟩, rfl⟩ := exists_isMember h
  exact ⟨node, hnode, List.mem_map_of_mem hg⟩

/-- What a node binds has an entry only if it is the name of one of the node's functions. -/
private theorem mem_names_of_find? (hbound : t.bound.Nodup) (hnode : node ∈ t.preorder)
    (hx : x ∈ node.binders) {m : MemberFacts} (h : (factsOf t).find? x = some m) :
    x ∈ node.funcs.map (·.name) := by
  obtain ⟨node', hnode', hname⟩ := exists_mem_names h
  obtain rfl := eq_of_mem_binders hbound hnode hnode' hx (mem_binders_of_mem_names hname)
  exact hname

/-- Of the names bound on the way to a bundle, those known to be plain when the bundle is visited
    are those that are plain in the end. -/
private theorem mem_known_iff {before after : List (Exp α)} (hbound : t.bound.Nodup)
    (hl : Leads t trail node) (hplace : t.preorder = before ++ node :: after)
    (hpassed : ∀ step ∈ trail, step.1 ∈ before) (hx : x ∈ trail.scope []) :
    (∃ m ∈ classifyAll [] before, m.name = x ∧ m.isBranchTarget = false) ↔
      x ∈ (factsOf t).plain := by
  have hdistinct := nodup_names hbound
  rw [Facts.mem_plain hdistinct]
  constructor
  · intro ⟨m, hm, hname, htarget⟩
    exact ⟨m, (Facts.find?_eq_some hdistinct).2 ⟨mem_factsOf_of_before hplace hm, hname⟩, htarget⟩
  · intro ⟨m, hm, htarget⟩
    obtain ⟨above, binder, role, below, rfl, habove, hbinder⟩ := exists_binder_of_mem_scope hl hx
    have hname := mem_names_of_find? hbound habove.mem_preorder hbinder hm
    -- the bundle that the name is from comes before, and so does the entry
    have hbefore : binder ∈ before := hpassed (binder, role) (by simp)
    have hentry : x ∈ (classifyAll [] before).map (·.name) := by
      rw [map_name_classifyAll]
      exact List.mem_flatMap.2 ⟨binder, hbefore, hname⟩
    obtain ⟨m', hm', rfl⟩ := List.mem_map.1 hentry
    have hfind := (Facts.find?_eq_some hdistinct).2 ⟨mem_factsOf_of_before hplace hm', rfl⟩
    obtain rfl : m = m' := Option.some.inj (hm.symm.trans hfind)
    exact ⟨m, hm', rfl, htarget⟩

/-- In a well-bound program a function needs what comes over a chain of references, where the
    routines that are plain in the end are no need. -/
theorem exists_entry (hwb : WellBound [] t) (hl : Leads t trail node) {f : Func α (Exp α)}
    (hf : f ∈ node.funcs) :
    ∃ needs, (factsOf t).find? f.name = some ⟨f.name, needs⟩ ∧
      ∀ x, x ∈ needs ↔ NeedsOver (factsOf t).plain node.funcs x f := by
  obtain ⟨before, after, hplace, hpassed⟩ := hl.exists_preorder_eq
  obtain ⟨known, hknown, hentry⟩ := exists_known hwb.distinct hplace
  have hdistinct := nodup_names_of_mem hwb.distinct hl.mem_preorder
  refine ⟨_, hentry f hf, fun x => (mem_needsOf_solved hdistinct hf).trans ?_⟩
  have hiff {routines : List VarId} {g : Func α (Exp α)} (hg : g ∈ node.funcs)
      (h : NeedsDirectly routines node.funcs g x) : x ∈ known ↔ x ∈ (factsOf t).plain := by
    have hscope := mem_scope_of_mem_freeVars (hwb.leads hl) hg h.free h.not_param h.not_member
    exact (hknown x).trans (mem_known_iff hwb.distinct hl hplace hpassed hscope)
  have hself (g) (hg : g ∈ node.funcs) : ∃ g' ∈ node.funcs, SameRefs g g' := ⟨g, hg, .refl g⟩
  constructor
  · intro h
    exact h.transfer hself id (fun g hg hdirect => mt (hiff hg hdirect).2 hdirect.not_routine) hf
      (.refl f)
  · intro h
    exact h.transfer hself id (fun g hg hdirect => mt (hiff hg hdirect).1 hdirect.not_routine) hf
      (.refl f)

end Entries

/-! ## Corresponding functions -/

section Rearranged

variable {t t' : Exp α}

/-- Rearranged bodies use the same variables, so the functions have the same references. -/
private theorem sameRefs_of_rearranged {f f' : Func α (Exp α)} (hhead : f.head = f'.head)
    (hbody : Rearranged f.body f'.body) : SameRefs f f' :=
  ⟨Func.name_eq_of_head hhead, Func.params_eq_of_head hhead, hbody.freeVars_eq⟩

/-- Every function of a bundle has a counterpart with the same references. -/
private theorem exists_sameRefs {node node' : Exp α} (h : Rearranged node node') :
    ∀ f ∈ node.funcs, ∃ f' ∈ node'.funcs, SameRefs f f' := by
  intro f hf
  obtain ⟨f', hf', hhead, hbody⟩ := h.func hf
  exact ⟨f', hf', sameRefs_of_rearranged hhead hbody⟩

/-- The entries of a function are the same in both trees. -/
theorem find?_eq_of_leads (h : Rearranged t t') (hwb : WellBound [] t) (hwb' : WellBound [] t')
    {trail : Trail α} {node : Exp α} (hl : Leads t trail node) {x : VarId}
    (hx : x ∈ node.funcs.map (·.name)) : (factsOf t).find? x = (factsOf t').find? x := by
  -- by induction from the outside in: what is in scope around a bundle is bound on a shorter way
  induction hn : trail.length using Nat.strong_induction_on generalizing trail node x with
  | h n ih =>
    obtain ⟨trail', node', hl', hnode, -⟩ := h.leads hl
    obtain ⟨f, hf, rfl⟩ := List.mem_map.1 hx
    obtain ⟨f', hf', hsame⟩ := exists_sameRefs hnode f hf
    obtain ⟨needs, hentry, hneeds⟩ := exists_entry hwb hl hf
    obtain ⟨needs', hentry', hneeds'⟩ := exists_entry hwb' hl' hf'
    -- of the names in scope, the same ones are plain
    have hplain {x : VarId} (hx : x ∈ trail.scope []) :
        x ∈ (factsOf t).plain ↔ x ∈ (factsOf t').plain := by
      suffices hfind : (factsOf t).find? x = (factsOf t').find? x by
        rw [Facts.mem_plain (nodup_names hwb.distinct), Facts.mem_plain (nodup_names hwb'.distinct),
          hfind]
      obtain ⟨above, binder, role, below, rfl, habove, hbinder⟩ := exists_binder_of_mem_scope hl hx
      by_cases hname : x ∈ binder.funcs.map (·.name)
      · refine ih above.length ?_ habove hname rfl
        rw [← hn, List.length_append, List.length_cons]
        omega
      · -- a variable of a let or a parameter has no entry
        obtain ⟨_, binder', hbinder', hcorr, -⟩ := h.leads habove
        have hnone : (factsOf t).find? x = none := Option.eq_none_iff_forall_ne_some.2 fun m hm =>
          hname (mem_names_of_find? hwb.distinct habove.mem_preorder hbinder hm)
        have hnone' : (factsOf t').find? x = none := Option.eq_none_iff_forall_ne_some.2 fun m hm =>
          hname (hcorr.names_perm.mem_iff.2 (mem_names_of_find? hwb'.distinct hbinder'.mem_preorder
            (hcorr.binders_perm.mem_iff.1 hbinder) hm))
        rw [hnone, hnone']
    have hscope {x : VarId} {routines : List VarId} {g : Func α (Exp α)} (hg : g ∈ node.funcs)
        (hdirect : NeedsDirectly routines node.funcs g x) : x ∈ trail.scope [] :=
      mem_scope_of_mem_freeVars (hwb.leads hl) hg hdirect.free hdirect.not_param hdirect.not_member
    -- both entries are that of the one function, so only the needs are left to compare
    rw [hentry, hsame.name, hentry']
    -- a chain of uses in one bundle is one in the other, since the same names are plain for both
    have hsets : needs = needs' := VarSet.ext fun x => by
      rw [hneeds, hneeds']
      constructor
      · intro hover
        refine hover.transfer (exists_sameRefs hnode) hnode.names_perm.mem_iff.2
          (fun g hg hdirect => ?_) hf hsame
        exact mt (hplain (hscope hg hdirect)).2 hdirect.not_routine
      · intro hover
        refine hover.transfer (exists_sameRefs hnode.symm) hnode.names_perm.mem_iff.1
          (fun g' hg' hdirect => ?_) hf' hsame.symm
        obtain ⟨g, hg, hrefs⟩ := exists_sameRefs hnode.symm g' hg'
        have hdirect' := hdirect.transfer hrefs hnode.names_perm.mem_iff.1 hdirect.not_routine
        exact mt (hplain (hscope hg hdirect')).1 hdirect.not_routine
    rw [hsets]

/-- So are the entries of all names. -/
theorem find?_eq_of_rearranged (h : Rearranged t t') (hwb : WellBound [] t)
    (hwb' : WellBound [] t') (x : VarId) : (factsOf t).find? x = (factsOf t').find? x := by
  by_cases hname : ∃ node ∈ t.preorder, x ∈ node.funcs.map (·.name)
  · obtain ⟨node, hnode, hx⟩ := hname
    obtain ⟨trail, hl⟩ := mem_preorder_iff_leads.1 hnode
    exact find?_eq_of_leads h hwb hwb' hl hx
  · -- what names no function of one tree names none of the other
    have hname' : ¬ ∃ node' ∈ t'.preorder, x ∈ node'.funcs.map (·.name) := by
      rintro ⟨node', hnode', hx⟩
      obtain ⟨trail', hl'⟩ := mem_preorder_iff_leads.1 hnode'
      obtain ⟨trail, node, hl, hcorr, -⟩ := h.symm.leads hl'
      exact hname ⟨node, hl.mem_preorder, hcorr.names_perm.mem_iff.1 hx⟩
    rw [Option.eq_none_iff_forall_ne_some.2 fun m hm => hname (exists_mem_names hm),
      Option.eq_none_iff_forall_ne_some.2 fun m hm => hname' (exists_mem_names hm)]

/-- Every function is found to need the same. -/
theorem members_perm (h : Rearranged t t') (hwb : WellBound [] t) (hwb' : WellBound [] t') :
    (factsOf t).members.Perm (factsOf t').members := by
  have hdistinct := nodup_names hwb.distinct
  have hdistinct' := nodup_names hwb'.distinct
  refine (List.perm_ext_iff_of_nodup (.of_map _ hdistinct) (.of_map _ hdistinct')).2 fun m => ?_
  have hmem {facts : Facts} (hd : (facts.members.map (·.name)).Nodup) :
      m ∈ facts.members ↔ facts.find? m.name = some m := by
    simp [Facts.find?_eq_some hd]
  rw [hmem hdistinct, hmem hdistinct', find?_eq_of_rearranged h hwb hwb']

end Rearranged

/-! ## Faults -/

/-- Whether a place is jumped to is told by its last step, which corresponding places share. -/
private theorem isJump_eq {trail trail' : Trail Checked} (h : TrailAlike trail trail') :
    isJump trail = isJump trail' := by
  induction h with
  | nil => rfl
  | @cons step step' rest rest' hstep hrest ih =>
    cases hrest with
    | nil =>
      -- the last step is a call of the same annotation, or none
      obtain ⟨node, role⟩ := step
      obtain ⟨node', role'⟩ := step'
      obtain ⟨hnode, hrole⟩ := hstep
      cases hrole with
      | refl => cases hnode <;> cases role <;> rfl
      | body => cases hnode <;> rfl
    | cons => exact ih

/-- A tree without misuse stays without misuse when its bundles are rearranged, for any targets that
    were targets before. -/
private theorem fault?_eq_none_of_rearranged {t t' : Exp Checked} {targets targets' : List VarId}
    (h : Rearranged t t') (htargets : ∀ x ∈ targets', x ∈ targets)
    (hnone : fault? targets t = none) : fault? targets' t' = none := by
  rw [fault?_eq_none] at hnone ⊢
  intro trail' a id hplace hid
  obtain ⟨trail, x, hl, hcorr, halike⟩ := h.symm.leads (mem_places_iff_leads.1 hplace)
  cases hcorr
  rw [isJump_eq halike]
  exact hnone trail a id (mem_places_iff_leads.2 hl) (htargets id hid)

/-- One of the programs is accepted if and only if the other is. -/
theorem analyze_isOk_iff {t t' : Exp Checked} (h : Rearranged t t') (hwb : WellBound [] t)
    (hwb' : WellBound [] t') :
    (∃ facts, analyze t = .ok facts) ↔ ∃ facts', analyze t' = .ok facts' := by
  have hmembers := members_perm h hwb hwb'
  have htargets : (factsOf t).targets.Perm (factsOf t').targets :=
    (hmembers.filter _).map _
  constructor
  · intro ⟨facts, hfacts⟩
    obtain ⟨rfl, hnone⟩ := analyze_eq_ok.1 hfacts
    exact ⟨_, analyze_eq_ok.2
      ⟨rfl, fault?_eq_none_of_rearranged h (fun x => htargets.mem_iff.2) hnone⟩⟩
  · intro ⟨facts, hfacts⟩
    obtain ⟨rfl, hnone⟩ := analyze_eq_ok.1 hfacts
    exact ⟨_, analyze_eq_ok.2
      ⟨rfl, fault?_eq_none_of_rearranged h.symm (fun x => htargets.mem_iff.1) hnone⟩⟩

end BranchIR.Capture
