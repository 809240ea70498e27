import BranchIR.Proofs.Capture.Misuse
import BranchIR.Proofs.Capture.Routines

/-!
# Jumps to branch targets

A branch target runs where the variables live that it needs, so it may only be jumped to, and
only from where these variables still live. Three passes play together in this: the checker
sets the tail flags, which are relative to the innermost function body; the facts make a branch
target of every function whose body mentions one; and the last pass refuses every mention of a
branch target that is no callee of a tail call.
-/

namespace BranchIR.Capture

open Exp

section Between

variable {t e x : Exp Checked} {trail : Trail Checked} {scope : List VarId} {a : Checked}
  {id : VarId}

/-- From a tail call up, the flags are set as far as no function body is left. -/
theorem tail_of_leads (h : TailsFlow e) (hl : Leads e trail x)
    (hbody : ∀ node f, (node, Role.body f) ∉ trail) (hx : x.ann.tail = true) :
    e.ann.tail = true := by
  refine ((h.tail_iff hl).1 hx).2 fun step hstep => ?_
  obtain ⟨node, role⟩ := step
  cases role with
  | body f => exact absurd hstep (hbody node f)
  | _ => rfl

/-- On the way from where a variable is in scope to where it stands, it is free in all function
    bodies entered. -/
private theorem free_of_mem_trail (h : WellBound scope e) (hid : id ∈ e.funcs.map (·.name) ++ scope)
    (hl : Leads e trail (.var a id)) {node : Exp Checked} {f : Func Checked (Exp Checked)}
    (hf : (node, Role.body f) ∈ trail) : f ∈ node.funcs ∧ Free id f.body := by
  generalize hx : Exp.var a id = x at hl
  induction hl generalizing scope with
  | here => simp at hf
  | @down e role part trail x hp rest ih =>
    have hpart := h.part hp
    -- the names of a bundle are in scope of all its parts
    have hin : id ∈ e.binds role ++ scope := by
      rw [binds, List.append_assoc]
      exact List.mem_append_right _ hid
    rcases List.mem_cons.1 hf with heq | hf
    · -- the body entered is the part itself
      cases heq
      obtain ⟨hmem, rfl⟩ := body_mem_parts hp
      subst hx
      exact ⟨hmem, hpart.free_of_leads hin rest⟩
    · exact ih hpart (List.mem_append_right _ hin) hf hx

/-- A function whose body mentions a branch target is a branch target. -/
theorem mem_targets_of_free (hbound : WellBound [] t) {f g : Func Checked (Exp Checked)}
    (hf : IsMember t f) (hg : IsMember t g) (htarget : g.name ∈ (factsOf t).targets)
    (hfree : Free g.name f.body) : f.name ∈ (factsOf t).targets := by
  obtain ⟨node, hnode, hfn⟩ := hf
  obtain ⟨needs, hfacts⟩ := bundle_facts hbound.distinct hnode
  have hentry := hfacts.entry f hfn
  by_cases hempty : needs f.name = .empty
  · -- a plain routine could mention the target as its own parameter only
    have hroutine : IsRoutine t (factsOf t) f := ⟨⟨node, hnode, hfn⟩, _, hentry, hempty⟩
    rcases hroutine.free hbound hfree with hparam | hplain
    · exact absurd hparam (hg.name_ne_param hbound.distinct hroutine.1)
    · exact absurd htarget (hplain.not_mem_targets hbound.distinct)
  · rw [Facts.mem_targets]
    exact ⟨_, List.mem_of_find?_eq_some hentry, rfl, hempty⟩

end Between

/-- In an accepted program, every occurrence of a branch target stands below its bundle as the
    callee of a tail call. Each function whose body is entered on the way from the bundle to the
    call is a branch target itself, and if there is none then the bundle is a tail. -/
theorem jump_sound {source file : String} {c : Compiled} (h : compile source file = .ok c)
    {bundle : Exp Checked} (hbundle : bundle ∈ c.tree.preorder)
    {g : Func Checked (Exp Checked)} (hg : g ∈ bundle.funcs)
    (htarget : g.name ∈ c.facts.targets) {trail : Trail Checked} {a : Checked}
    (hl : Leads c.tree trail (.var a g.name)) :
    ∃ above role between ann args,
      trail = above ++ (bundle, role) :: (between ++ [(.call ann (.var a g.name) args, .callee)]) ∧
        ann.tail = true ∧
        (∀ node f, (node, Role.body f) ∈ (bundle, role) :: between → f.name ∈ c.facts.targets) ∧
        ((∀ node f, (node, Role.body f) ∉ (bundle, role) :: between) → bundle.ann.tail = true) := by
  -- what checking says of names and of tail flags, and what the analysis says of targets
  have hbound := checkSource_wellBound (compile_checkSource h)
  have hflow := checkSource_tailsFlow (compile_checkSource h)
  obtain ⟨-, -, -, hanalyze, -⟩ := compile_eq_ok.1 h
  obtain ⟨hfacts, hfault⟩ := analyze_eq_ok.1 hanalyze
  have hname : g.name ∈ bundle.funcs.map (·.name) := List.mem_map_of_mem hg
  -- the trail goes through the bundle and ends with a tail call, which is not the bundle
  obtain ⟨above, role, below, rfl⟩ :=
    hbound.leads_through hbundle (mem_binders_of_mem_names hname) hl
  obtain ⟨up, ann, args, htrail, htail⟩ := leads_callee hfault htarget hl
  have hne : (bundle, role) ≠ (.call ann (.var a g.name) args, .callee) := by
    intro heq
    cases heq
    simp [funcs] at hg
  obtain ⟨between, rfl⟩ := List.exists_eq_concat_of_append_cons htrail hne
  obtain ⟨habove, hbelow⟩ := hl.split
  refine ⟨above, role, between, ann, args, rfl, htail, ?_, ?_⟩
  · -- the name is free in the body that is entered, so the function needs what `g` needs
    intro node f hf
    have hf' := List.mem_append_left [(Exp.call ann (.var a g.name) args, Role.callee)] hf
    obtain ⟨hmem, hfree⟩ :=
      free_of_mem_trail (hbound.leads habove) (List.mem_append_left _ hname) hbelow hf'
    have hnode := preorder_trans (hbelow.mem_preorder_of_mem hf') hbundle
    rw [hfacts] at htarget ⊢
    exact mem_targets_of_free hbound ⟨node, hnode, hmem⟩ ⟨bundle, hbundle, hg⟩ htarget hfree
  · -- no body is entered, so the flag of the call is that of the bundle
    intro hbody
    rw [← List.cons_append] at hbelow
    have hflow' : TailsFlow bundle := fun node hnode => hflow node (preorder_trans hnode hbundle)
    exact tail_of_leads hflow' hbelow.split.1 hbody htail

/-- A branch target that calls itself out of a case, with another one called on the way. -/
private def loop : String :=
  "let k: i32 = 1i32 in rec f(x: i32): i32 = rec g(y: i32): i32 = f(add(y, k)) in
    case x \x7b 0 => k, _ => g(x) \x7d in f(k)"

/-- The jump from the body of the inner branch target to the outer one. -/
theorem jump_sound_loop :
    ∃ (c : Compiled) (bundle : Exp Checked) (g : Func Checked (Exp Checked))
      (trail : Trail Checked) (a : Checked),
      compile loop "loop" = .ok c ∧ bundle ∈ c.tree.preorder ∧ g ∈ bundle.funcs ∧
      g.name ∈ c.facts.targets ∧ Leads c.tree trail (.var a g.name) ∧
      ∃ above role between ann args, trail =
          above ++ (bundle, role) :: (between ++ [(.call ann (.var a g.name) args, .callee)]) ∧
        ann.tail = true ∧
        (∀ node f, (node, Role.body f) ∈ (bundle, role) :: between → f.name ∈ c.facts.targets) ∧
        ((∀ node f, (node, Role.body f) ∉ (bundle, role) :: between) → bundle.ann.tail = true) := by
  -- the run finds a bundle, one of its branch targets and an occurrence of it
  have hrun : (compile loop "loop").toOption.any (fun c =>
      c.tree.preorder.any fun bundle => bundle.funcs.any fun g =>
        c.facts.targets.contains g.name &&
          c.tree.preorder.any fun node => node.var? == some g.name) = true := by
    decide +kernel
  cases hc : compile loop "loop" with
  | error e =>
    rw [hc] at hrun
    cases hrun
  | ok c =>
    rw [hc] at hrun
    simp only [Except.toOption, Option.any_some, List.any_eq_true, Bool.and_eq_true,
      List.contains_iff_mem, beq_iff_eq] at hrun
    obtain ⟨bundle, hbundle, g, hg, htarget, node, hnode, hvar⟩ := hrun
    obtain ⟨trail, hl⟩ := mem_preorder_iff_leads.1 hnode
    -- an occurrence is a variable
    cases node with
    | var a id =>
      cases hvar
      exact ⟨c, bundle, g, trail, a, rfl, hbundle, hg, htarget, hl,
        jump_sound hc hbundle hg htarget hl⟩
    | _ => simp [var?] at hvar

end BranchIR.Capture
