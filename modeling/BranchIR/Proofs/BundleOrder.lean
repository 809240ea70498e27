import BranchIR.Proofs.Capture.BundleOrder
import BranchIR.Proofs.Capture.ScopedFree
import BranchIR.Proofs.Typing.Rearranged

/-!
# The order of a bundle's functions does not count

The functions of a bundle may call each other whatever order they stand in. Checking declares them
all before it looks at a body, and analysis passes needs on until nothing is left to pass on. So
neither a program's types nor its branch targets depend on the order.
-/

namespace BranchIR

open Typing Capture

/-- When no identity is bound twice, a program is checked if and only if it is checked with the
    functions of its bundles in another order, with the same types and tail flags at corresponding
    nodes. Then analysis accepts both or none, and finds the same needs for every function. -/
theorem bundle_order_irrelevant {e e' : Exp Span} (h : Rearranged e e') (hn : e.bound.Nodup) :
    ((∃ t, checkProgram e = .ok t) ↔ ∃ t', checkProgram e' = .ok t') ∧
      ∀ t t', checkProgram e = .ok t → checkProgram e' = .ok t' →
        Rearranged t t' ∧ t.ty = t'.ty ∧
          ((∃ facts, analyze t = .ok facts) ↔ ∃ facts', analyze t' = .ok facts') ∧
          ∀ facts facts', analyze t = .ok facts → analyze t' = .ok facts' →
            facts.members.Perm facts'.members ∧ ∀ x, facts.find? x = facts'.find? x := by
  have hn' : e'.bound.Nodup := h.bound_perm.nodup_iff.1 hn
  have hcheck := (checkAlike_of_rearranged h hn).typed (.empty true) none
  have hcheck' := (checkAlike_of_rearranged h.symm hn').typed (.empty true) none
  refine ⟨⟨fun ⟨t, ht⟩ => ?_, fun ⟨t', ht'⟩ => ?_⟩, fun t t' ht ht' => ?_⟩
  · obtain ⟨t', ht', -⟩ := hcheck t ht
    exact ⟨t', ht'⟩
  · obtain ⟨t, ht, -⟩ := hcheck' t' ht'
    exact ⟨t, ht⟩
  · -- checking has one result, which is then the rearranged one
    obtain ⟨u, hu, hsame⟩ := hcheck t ht
    obtain rfl : u = t' := Except.ok.inj (hu.symm.trans ht')
    have hwb := wellBound_of_checkProgram ht hn
    have hwb' := wellBound_of_checkProgram ht' hn'
    refine ⟨hsame, hsame.ty_eq, analyze_isOk_iff hsame hwb hwb', fun facts facts' hf hf' => ?_⟩
    obtain ⟨rfl, -⟩ := analyze_eq_ok.1 hf
    obtain ⟨rfl, -⟩ := analyze_eq_ok.1 hf'
    exact ⟨members_perm hsame hwb hwb', find?_eq_of_rearranged hsame hwb hwb'⟩

/-- A branch target that calls a plain routine, and the routine. -/
private def callerAndCallee : List (Func Span (Exp Span)) :=
  let s : Span := ⟨0, 0, "tree"⟩
  let i32 := Ty.int 32
  [⟨s, 1, [⟨s, 3, i32⟩], i32, .prim s .add [.var s 0, .call s (.var s 2) [.var s 3]]⟩,
    ⟨s, 2, [⟨s, 4, i32⟩], i32, .var s 4⟩]

/-- A program with the bundle under a let. -/
private def underLet (fs : List (Func Span (Exp Span))) : Exp Span :=
  let s : Span := ⟨0, 0, "tree"⟩
  .letIn s 0 (.int 32) (.int s 1 32) (.recIn s fs (.call s (.var s 1) [.var s 0]))

/-- The needs that are found, if the program is accepted. -/
private def needsFound (e : Exp Span) : Option (List (VarId × List VarId)) :=
  (checkProgram e).toOption.bind fun t =>
    (analyze t).toOption.map fun facts => facts.members.map fun m => (m.name, m.needs.ids)

/-- With the routine first, the branch target still needs the let's variable only. -/
theorem bundle_order_irrelevant_reversed :
    Rearranged (underLet callerAndCallee) (underLet callerAndCallee.reverse) ∧
      (underLet callerAndCallee).bound.Nodup ∧
      needsFound (underLet callerAndCallee) = some [(1, [0]), (2, [])] ∧
      needsFound (underLet callerAndCallee.reverse) = some [(2, []), (1, [0])] ∧
      ∃ t t' facts facts', checkProgram (underLet callerAndCallee) = .ok t ∧
        checkProgram (underLet callerAndCallee.reverse) = .ok t' ∧
        analyze t = .ok facts ∧ analyze t' = .ok facts' ∧
        Rearranged t t' ∧ t.ty = t'.ty ∧ facts.members.Perm facts'.members := by
  have horder : Rearranged (underLet callerAndCallee) (underLet callerAndCallee.reverse) :=
    .letIn (.refl _) (.of_perm (List.reverse_perm _).symm)
  have hn : (underLet callerAndCallee).bound.Nodup := by decide
  have hrun : needsFound (underLet callerAndCallee) = some [(1, [0]), (2, [])] := by decide +kernel
  have hrun' : needsFound (underLet callerAndCallee.reverse) = some [(2, []), (1, [0])] := by
    decide +kernel
  obtain ⟨t, ht, hneeds⟩ := Option.bind_eq_some_iff.1 hrun
  obtain ⟨t', ht', hneeds'⟩ := Option.bind_eq_some_iff.1 hrun'
  obtain ⟨facts, hfacts, -⟩ := Option.map_eq_some_iff.1 hneeds
  obtain ⟨facts', hfacts', -⟩ := Option.map_eq_some_iff.1 hneeds'
  rw [toOption_eq_some] at ht ht' hfacts hfacts'
  obtain ⟨hsame, hty, -, hmembers⟩ := (bundle_order_irrelevant horder hn).2 t t' ht ht'
  exact ⟨horder, hn, hrun, hrun', t, t', facts, facts', ht, ht', hfacts, hfacts', hsame, hty,
    (hmembers facts facts' hfacts hfacts').1⟩

end BranchIR
