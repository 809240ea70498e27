import BranchIR.Proofs.Exp.Rearranged
import BranchIR.Proofs.Typing.Inversion

/-!
# Checking bundles in another order

The functions of a bundle are declared one after the other and checked one after the other. As
their names differ, a body sees the same declarations in any order, and whether it is accepted
does not depend on the bodies before it. So a rearranged tree is accepted as well, with
corresponding types and tail flags.
-/

namespace BranchIR

/-- Declarations of different names may be made in any order. -/
theorem Env.declareAll_perm {env : Env} {bindings bindings' : List (VarId × Ty)}
    (order : bindings.Perm bindings') (hdistinct : (bindings.map Prod.fst).Nodup) :
    env.declareAll bindings = env.declareAll bindings' := by
  induction order generalizing env with
  | nil => rfl
  | cons b _ ih => exact ih (List.nodup_cons.1 hdistinct).2
  | swap b c rest =>
    have hne : b.1 ≠ c.1 := by
      rw [List.map_cons, List.map_cons, List.nodup_cons, List.mem_cons, not_or] at hdistinct
      exact fun h => hdistinct.1.1 h.symm
    have hswap : (env.declare c.1 c.2).declare b.1 b.2 = (env.declare b.1 b.2).declare c.1 c.2 := by
      rw [declare, declare, declare, declare, Env.mk.injEq]
      refine ⟨funext fun x => ?_, rfl⟩
      -- an identity is that of one of the two at most
      by_cases hb : x = b.1
      · simp [hb, hne]
      · by_cases hc : x = c.1 <;> simp [hb, hc, hne.symm]
    exact congrArg (Env.declareAll · rest) hswap
  | trans order _ ih ih' => exact (ih hdistinct).trans (ih' ((order.map _).nodup_iff.1 hdistinct))

/-- If no identity is bound twice in an expression, none is in its parts. -/
private theorem Exp.nodup_bound_below {α : Type} {e : Exp α} (h : e.bound.Nodup) :
    ∀ child ∈ e.children, child.bound.Nodup := by
  intro child hc
  rw [bound_eq, List.nodup_append] at h
  exact h.2.1.sublist (bound_sublist_of_mem_children hc)

/-- Rearranged trees have the same type. -/
theorem Rearranged.ty_eq {t t' : Exp Checked} (h : Rearranged t t') : t.ty = t'.ty :=
  congrArg Checked.ty h.ann_eq

namespace Typing

open Exp

/-- The expressions begin at one place, and where the first is accepted the second is accepted as
    well, with a tree that is the same but for the order of bundles. -/
structure CheckAlike (e e' : Exp Span) : Prop where
  start : e.start = e'.start
  typed : ∀ env want t, typed env want e = .ok t →
    ∃ t', typed env want e' = .ok t' ∧ Rearranged t t'

/-! ## Lists, arms, functions and paths -/

section Containers

variable {env : Env}

/-- Items that check alike make lists that do, with rearranged results. -/
private theorem typedAll_rearranged {wants : List (Option Ty)} {es : List (Exp Span × Exp Span)}
    {ts : List (Exp Checked)} (hes : ∀ p ∈ es, CheckAlike p.1 p.2)
    (h : typedAll env wants (es.map Prod.fst) = .ok ts) :
    ∃ qs : List (Exp Checked × Exp Checked), ts = qs.map Prod.fst ∧
      typedAll env wants (es.map Prod.snd) = .ok (qs.map Prod.snd) ∧
      ∀ q ∈ qs, Rearranged q.1 q.2 := by
  induction es generalizing wants ts with
  | nil =>
    obtain rfl : [] = ts := by simpa [typedAll] using h
    exact ⟨[], rfl, by simp [typedAll], by simp⟩
  | cons p es ih =>
    obtain ⟨hp, hes⟩ := List.forall_mem_cons.1 hes
    obtain ⟨first, rest, hfirst, hrest, rfl⟩ := typedAll_cons_eq_ok.1 h
    obtain ⟨first', hfirst', hsame⟩ := hp.typed _ _ _ hfirst
    obtain ⟨qs, rfl, hrest', hqs⟩ := ih hes hrest
    exact ⟨(first, first') :: qs, rfl, typedAll_cons_eq_ok.2 ⟨_, _, hfirst', hrest', rfl⟩,
      List.forall_mem_cons.2 ⟨hsame, hqs⟩⟩

/-- Bodies that check alike make arms that do, with rearranged results, as the patterns are the
    same. -/
private theorem typedArms_rearranged {width : Nat} {seen : List Int} {want ty : Option Ty}
    {arms : List (Arm (Exp Span × Exp Span))} {ts : List (Arm (Exp Checked))}
    (harms : ∀ arm ∈ arms, CheckAlike arm.body.1 arm.body.2)
    (h : typedArms env width seen want (arms.map (Arm.map Prod.fst)) = .ok (ty, ts)) :
    ∃ qs : List (Arm (Exp Checked × Exp Checked)), ts = qs.map (Arm.map Prod.fst) ∧
      typedArms env width seen want (arms.map (Arm.map Prod.snd)) =
        .ok (ty, qs.map (Arm.map Prod.snd)) ∧
      ∀ q ∈ qs, Rearranged q.body.1 q.body.2 := by
  induction arms generalizing seen want ts with
  | nil =>
    obtain ⟨rfl, rfl⟩ : want = ty ∧ [] = ts := by simpa [typedArms] using h
    exact ⟨[], rfl, by simp [typedArms], by simp⟩
  | cons arm arms ih =>
    obtain ⟨harm, harms⟩ := List.forall_mem_cons.1 harms
    obtain ⟨seen', first, rest, hseen, hfirst, hrest, rfl⟩ := typedArms_cons_eq_ok.1 h
    obtain ⟨first', hfirst', hsame⟩ := harm.typed _ _ _ hfirst
    obtain ⟨qs, rfl, hrest', hqs⟩ := ih harms hrest
    rw [hsame.ty_eq] at hrest'
    refine ⟨⟨arm.pattern, first, first'⟩ :: qs, rfl, typedArms_cons_eq_ok.2 ?_,
      List.forall_mem_cons.2 ⟨hsame, hqs⟩⟩
    -- a pattern is faulted where the body begins, which is at the same place
    exact ⟨seen', first', _, harm.start ▸ hseen, hfirst', hrest', rfl⟩

/-- Offsets that check alike make paths that do, with rearranged results: the steps are the same. -/
private theorem typedPath_rearranged {first : Bool} {ty last : Ty} {owner : Position}
    {path : List (Step (Exp Span × Exp Span))} {ts : List (Step (Exp Checked))}
    (hpath : ∀ p ∈ path.filterMap Step.offset?, CheckAlike p.1 p.2)
    (h : typedPath env first ty owner (path.map (Step.map Prod.fst)) = .ok (last, ts)) :
    ∃ qs : List (Step (Exp Checked × Exp Checked)), ts = qs.map (Step.map Prod.fst) ∧
      typedPath env first ty owner (path.map (Step.map Prod.snd)) =
        .ok (last, qs.map (Step.map Prod.snd)) ∧
      ∀ q ∈ qs.filterMap Step.offset?, Rearranged q.1 q.2 := by
  induction path generalizing first ty ts with
  | nil =>
    obtain ⟨rfl, rfl⟩ := typedPath_nil_eq_ok.1 h
    exact ⟨[], rfl, typedPath_nil_eq_ok.2 ⟨rfl, rfl⟩, by simp⟩
  | cons step path ih =>
    cases step with
    | field n =>
      obtain ⟨fields, next, rest, hty, hnext, hrest, rfl⟩ := typedPath_field_eq_ok.1 h
      obtain ⟨qs, rfl, hrest', hqs⟩ := ih hpath hrest
      exact ⟨.field n :: qs, rfl,
        typedPath_field_eq_ok.2 ⟨fields, next, _, hty, hnext, hrest', rfl⟩, hqs⟩
    | element n =>
      obtain ⟨length, next, rest, hty, hlt, hrest, rfl⟩ := typedPath_element_eq_ok.1 h
      obtain ⟨qs, rfl, hrest', hqs⟩ := ih hpath hrest
      exact ⟨.element n :: qs, rfl,
        typedPath_element_eq_ok.2 ⟨length, next, _, hty, hlt, hrest', rfl⟩, hqs⟩
    | lane p =>
      obtain ⟨hp, hpath⟩ := List.forall_mem_cons.1 hpath
      obtain ⟨length, lane, offset, width, rest, hty, hoffset, hwidth, hrest, rfl⟩ :=
        typedPath_lane_eq_ok.1 h
      -- the offset of the other path is checked alike and has the same type, so the path goes on
      -- the same way
      obtain ⟨offset', hoffset', hsame⟩ := hp.typed _ _ _ hoffset
      obtain ⟨qs, rfl, hrest', hqs⟩ := ih hpath hrest
      exact ⟨.lane (offset, offset') :: qs, rfl, typedPath_lane_eq_ok.2
        ⟨length, lane, offset', width, _, hty, hoffset', hsame.ty_eq ▸ hwidth, hrest', rfl⟩,
        List.forall_mem_cons.2 ⟨hsame, hqs⟩⟩
    | index p =>
      obtain ⟨hp, hpath⟩ := List.forall_mem_cons.1 hpath
      obtain ⟨target, offset, width, rest, hfirst, hty, hoffset, hwidth, hrest, rfl⟩ :=
        typedPath_index_eq_ok.1 h
      obtain ⟨offset', hoffset', hsame⟩ := hp.typed _ _ _ hoffset
      obtain ⟨qs, rfl, hrest', hqs⟩ := ih hpath hrest
      exact ⟨.index (offset, offset') :: qs, rfl, typedPath_index_eq_ok.2
        ⟨target, offset', width, _, hfirst, hty, hoffset', hsame.ty_eq ▸ hwidth, hrest', rfl⟩,
        List.forall_mem_cons.2 ⟨hsame, hqs⟩⟩

/-- A base and offsets that check alike lead to the same type. -/
private theorem addresses_rearranged {s : Span} {base base' : Exp Span}
    {path : List (Step (Exp Span × Exp Span))} {b : Exp Checked} {ty : Ty}
    {ts : List (Step (Exp Checked))} (hbase : CheckAlike base base')
    (hpath : ∀ p ∈ path.filterMap Step.offset?, CheckAlike p.1 p.2)
    (h : Addresses env s base (path.map (Step.map Prod.fst)) b ty ts) :
    ∃ (b' : Exp Checked) (qs : List (Step (Exp Checked × Exp Checked))),
      ts = qs.map (Step.map Prod.fst) ∧ Rearranged b b' ∧
      Addresses env s base' (path.map (Step.map Prod.snd)) b' ty (qs.map (Step.map Prod.snd)) ∧
      ∀ q ∈ qs.filterMap Step.offset?, Rearranged q.1 q.2 := by
  obtain ⟨target, hb, hptr, hts⟩ := h
  obtain ⟨b', hb', hsame⟩ := hbase.typed _ _ _ hb
  obtain ⟨qs, rfl, hqs, hoffsets⟩ := typedPath_rearranged hpath hts
  refine ⟨b', qs, rfl, hsame, ⟨target, hb', hsame.ty_eq ▸ hptr, ?_⟩, hoffsets⟩
  -- the path starts at the same type, since it is as long
  simpa [pathStart, hsame.ty_eq] using hqs

/-- A map over the offsets neither adds an index nor takes one away. -/
private theorem forall_index_notMem_map {δ ε : Type} {f : δ → ε} {path : List (Step δ)} :
    (∀ e, Step.index e ∉ path.map (Step.map f)) ↔ ∀ p, Step.index p ∉ path := by
  constructor
  · intro h p hp
    exact h (f p) (List.mem_map_of_mem (f := Step.map f) hp)
  · intro h e he
    obtain ⟨step, hstep, heq⟩ := List.mem_map.1 he
    cases step with
    | index p => exact h p hstep
    | _ => simp [Step.map] at heq

private theorem typedFuncs_nil_eq_ok {ts : List (Func Checked (Exp Checked))} :
    typedFuncs env [] = .ok ts ↔ ts = [] := by
  simp [typedFuncs, eq_comm]

/-- Functions are checked each by itself, so they may be checked in any order. -/
private theorem typedFuncs_perm {fs gs : List (Func Span (Exp Span))}
    {ts : List (Func Checked (Exp Checked))} (order : fs.Perm gs)
    (h : typedFuncs env fs = .ok ts) : ∃ us, typedFuncs env gs = .ok us ∧ ts.Perm us := by
  induction order generalizing ts with
  | nil => exact ⟨ts, h, .refl _⟩
  | cons f _ ih =>
    obtain ⟨body, rest, hbody, hrest, rfl⟩ := typedFuncs_cons_eq_ok.1 h
    obtain ⟨us, hus, hperm⟩ := ih hrest
    exact ⟨_, typedFuncs_cons_eq_ok.2 ⟨body, us, hbody, hus, rfl⟩, hperm.cons _⟩
  | swap f g fs =>
    obtain ⟨gbody, _, hgbody, hfs, rfl⟩ := typedFuncs_cons_eq_ok.1 h
    obtain ⟨fbody, rest, hfbody, hrest, rfl⟩ := typedFuncs_cons_eq_ok.1 hfs
    exact ⟨_, typedFuncs_cons_eq_ok.2 ⟨fbody, _, hfbody,
      typedFuncs_cons_eq_ok.2 ⟨gbody, rest, hgbody, hrest, rfl⟩, rfl⟩, .swap ..⟩
  | trans _ _ ih ih' =>
    obtain ⟨us, hus, hperm⟩ := ih h
    obtain ⟨vs, hvs, hperm'⟩ := ih' hus
    exact ⟨vs, hvs, hperm.trans hperm'⟩

/-- Bodies that check alike make functions that do, with rearranged results, in the same order. -/
private theorem typedFuncs_alike {fs : List (Func Span (Exp Span × Exp Span))}
    {ts : List (Func Checked (Exp Checked))} (hfs : ∀ f ∈ fs, CheckAlike f.body.1 f.body.2)
    (h : typedFuncs env (fs.map (Func.map id Prod.fst)) = .ok ts) :
    ∃ qs : List (Func Checked (Exp Checked × Exp Checked)), ts = qs.map (Func.map id Prod.fst) ∧
      typedFuncs env (fs.map (Func.map id Prod.snd)) = .ok (qs.map (Func.map id Prod.snd)) ∧
      ∀ q ∈ qs, Rearranged q.body.1 q.body.2 := by
  induction fs generalizing ts with
  | nil =>
    obtain rfl := typedFuncs_nil_eq_ok.1 h
    exact ⟨[], rfl, typedFuncs_nil_eq_ok.2 rfl, by simp⟩
  | cons f fs ih =>
    obtain ⟨hf, hfs⟩ := List.forall_mem_cons.1 hfs
    obtain ⟨body, rest, hbody, hrest, rfl⟩ := typedFuncs_cons_eq_ok.1 h
    obtain ⟨qs, rfl, hrest', hqs⟩ := ih hfs hrest
    have hparams : (f.map id Prod.fst).params = (f.map id Prod.snd).params := rfl
    rw [hparams] at hbody
    obtain ⟨body', hbody', hsame⟩ := hf.typed _ _ _ hbody
    let q : Func Checked (Exp Checked × Exp Checked) :=
      ⟨⟨f.ann, f.ty, false⟩, f.name, f.params.map typedParam, f.result, body, body'⟩
    refine ⟨q :: qs, ?_, typedFuncs_cons_eq_ok.2 ⟨body', _, hbody', hrest', ?_⟩,
      List.forall_mem_cons.2 ⟨hsame, hqs⟩⟩
    · simp [q, Func.map, Param.map, typedParam, Func.ty]
    · simp [q, Func.map, Param.map, typedParam, Func.ty]

/-- The functions of a bundle in another order, with bodies that are rearranged. -/
theorem typedFuncs_rearranged {fs gs : List (Func Span (Exp Span × Exp Span))}
    {ts : List (Func Checked (Exp Checked))} (order : fs.Perm gs)
    (hfs : ∀ f ∈ fs, CheckAlike f.body.1 f.body.2)
    (h : typedFuncs env (fs.map (Func.map id Prod.fst)) = .ok ts) :
    ∃ qs rs : List (Func Checked (Exp Checked × Exp Checked)), qs.Perm rs ∧
      ts = qs.map (Func.map id Prod.fst) ∧
      typedFuncs env (gs.map (Func.map id Prod.snd)) = .ok (rs.map (Func.map id Prod.snd)) ∧
      ∀ q ∈ qs, Rearranged q.body.1 q.body.2 := by
  obtain ⟨qs, rfl, hqs, hsame⟩ := typedFuncs_alike hfs h
  obtain ⟨us, hus, hperm⟩ := typedFuncs_perm (order.map _) hqs
  -- the result in the other order is made of the same pairs
  have hpairs : Relation.Comp (· = List.map (Func.map id Prod.snd) ·) List.Perm us qs := by
    rw [List.eq_map_comp_perm]
    exact hperm.symm
  obtain ⟨rs, rfl, hrs⟩ := hpairs
  exact ⟨qs, rs, hrs.symm, rfl, hus, hsame⟩

end Containers

/-! ## Forms

A form whose parts are checked alike is checked alike: the tree of the one is taken apart, each part
is exchanged for its counterpart, and what is wanted is the same, since the types are. -/

section Forms

variable {s : Span}

/-- An atom has no part in which an order could differ. -/
private theorem CheckAlike.refl (e : Exp Span) : CheckAlike e e where
  start := rfl
  typed _ _ t ht := ⟨t, ht, .refl t⟩

/-- Ascriptions of expressions that check alike. -/
private theorem CheckAlike.ascribe {e e' : Exp Span} {ty : Ty} (inner : CheckAlike e e') :
    CheckAlike (.ascribe s e ty) (.ascribe s e' ty) where
  start := rfl
  typed env want t ht := by
    obtain ⟨u, hu, hwant, rfl⟩ := typed_ascribe_eq_ok.1 ht
    obtain ⟨u', hu', hsame⟩ := inner.typed _ _ _ hu
    exact ⟨_, typed_ascribe_eq_ok.2 ⟨u', hu', hwant, rfl⟩, .ascribe hsame⟩

/-- Coercions of expressions that check alike. -/
private theorem CheckAlike.coerce {e e' : Exp Span} {ty : Ty} (inner : CheckAlike e e') :
    CheckAlike (.coerce s e ty) (.coerce s e' ty) where
  start := rfl
  typed env want t ht := by
    obtain ⟨u, hu, hwant, rfl⟩ := typed_coerce_eq_ok.1 ht
    obtain ⟨u', hu', hsame⟩ := inner.typed _ _ _ hu
    exact ⟨_, typed_coerce_eq_ok.2 ⟨u', hu', hwant, rfl⟩, .coerce hsame⟩

/-- The first operands have the same type, so the same type is wanted of the other operands. -/
private theorem CheckAlike.prim {op : PrimOp} {args : List (Exp Span × Exp Span)}
    (operands : ∀ p ∈ args, CheckAlike p.1 p.2) :
    CheckAlike (.prim s op (args.map Prod.fst)) (.prim s op (args.map Prod.snd)) where
  start := rfl
  typed env want t ht := by
    obtain ⟨_, _, first, ts, hargs, hfirst, hnum, hrest, hwant, rfl⟩ := typed_prim_eq_ok.1 ht
    cases args with
    | nil => simp at hargs
    | cons p args =>
      obtain ⟨rfl, rfl⟩ := List.cons.inj hargs
      obtain ⟨hp, hargs⟩ := List.forall_mem_cons.1 operands
      obtain ⟨first', hfirst', hsame⟩ := hp.typed _ _ _ hfirst
      obtain ⟨qs, rfl, hqs, hsames⟩ := typedAll_rearranged hargs hrest
      rw [hsame.ty_eq] at hnum hwant ⊢
      have hqs' : typedAll env.operand ((args.map Prod.snd).map fun _ => some first'.ty)
          (args.map Prod.snd) = .ok (qs.map Prod.snd) := by
        simpa [hsame.ty_eq, Function.comp_def] using hqs
      have halike := @Rearranged.prim _ ⟨s, first'.ty, env.tail⟩ op ((first, first') :: qs)
        (List.forall_mem_cons.2 ⟨hsame, hsames⟩)
      exact ⟨_, typed_prim_eq_ok.2 ⟨p.2, _, first', _, rfl, hfirst', hnum, hqs', hwant, rfl⟩,
        halike⟩

/-- Lets whose values and bodies check alike. -/
private theorem CheckAlike.letIn {name : VarId} {ty : Ty} {value value' body body' : Exp Span}
    (bound : CheckAlike value value') (uses : CheckAlike body body') :
    CheckAlike (.letIn s name ty value body) (.letIn s name ty value' body') where
  start := rfl
  typed env want t ht := by
    obtain ⟨v, b, hv, hb, hwant, rfl⟩ := typed_letIn_eq_ok.1 ht
    obtain ⟨v', hv', hvsame⟩ := bound.typed _ _ _ hv
    obtain ⟨b', hb', hbsame⟩ := uses.typed _ _ _ hb
    rw [hbsame.ty_eq] at hwant ⊢
    exact ⟨_, typed_letIn_eq_ok.2 ⟨v', b', hv', hb', hwant, rfl⟩, .letIn hvsame hbsame⟩

/-- Calls whose callees and arguments check alike. -/
private theorem CheckAlike.call {callee callee' : Exp Span} {args : List (Exp Span × Exp Span)}
    (function : CheckAlike callee callee') (arguments : ∀ p ∈ args, CheckAlike p.1 p.2) :
    CheckAlike (.call s callee (args.map Prod.fst)) (.call s callee' (args.map Prod.snd)) where
  start := rfl
  typed env want t ht := by
    obtain ⟨f, params, result, ts, hf, hsig, hlen, hargs, hwant, rfl⟩ := typed_call_eq_ok.1 ht
    obtain ⟨f', hf', hsame⟩ := function.typed _ _ _ hf
    obtain ⟨qs, rfl, hqs, hsames⟩ := typedAll_rearranged arguments hargs
    rw [hsame.ty_eq] at hsig
    rw [List.length_map, ← List.length_map (f := Prod.snd)] at hlen
    exact ⟨_, typed_call_eq_ok.2 ⟨f', params, result, _, hf', hsig, hlen, hqs, hwant, rfl⟩,
      .call hsame hsames⟩

/-- Cases whose scrutinees and arms check alike. -/
private theorem CheckAlike.caseOf {scrutinee scrutinee' : Exp Span}
    {arms : List (Arm (Exp Span × Exp Span))} (switch : CheckAlike scrutinee scrutinee')
    (bodies : ∀ arm ∈ arms, CheckAlike arm.body.1 arm.body.2) :
    CheckAlike (.caseOf s scrutinee (arms.map (Arm.map Prod.fst)))
      (.caseOf s scrutinee' (arms.map (Arm.map Prod.snd))) where
  start := rfl
  typed env want t ht := by
    obtain ⟨scr, width, ty, ts, hscr, hwidth, hne, harms, rfl⟩ := typed_caseOf_eq_ok.1 ht
    obtain ⟨scr', hscr', hsame⟩ := switch.typed _ _ _ hscr
    obtain ⟨qs, rfl, hqs, hsames⟩ := typedArms_rearranged bodies harms
    rw [hsame.ty_eq] at hwidth
    have hne' : arms.map (Arm.map Prod.snd) ≠ [] := by simpa using hne
    exact ⟨_, typed_caseOf_eq_ok.2 ⟨scr', width, ty, _, hscr', hwidth, hne', hqs, rfl⟩,
      .caseOf hsame hsames⟩

/-- The names of a bundle differ, so its bodies see the same declarations in either order. -/
private theorem CheckAlike.recIn {body body' : Exp Span}
    {fs gs : List (Func Span (Exp Span × Exp Span))} (order : fs.Perm gs)
    (hnames : (fs.map (·.name)).Nodup) (bodies : ∀ f ∈ fs, CheckAlike f.body.1 f.body.2)
    (uses : CheckAlike body body') :
    CheckAlike (.recIn s (fs.map (Func.map id Prod.fst)) body)
      (.recIn s (gs.map (Func.map id Prod.snd)) body') where
  start := rfl
  typed env want t ht := by
    obtain ⟨ts, b, hts, hb, hwant, rfl⟩ := typed_recIn_eq_ok.1 ht
    have henv : env.declareAll ((fs.map (Func.map id Prod.fst)).map fun f => (f.name, f.ty)) =
        env.declareAll ((gs.map (Func.map id Prod.snd)).map fun f => (f.name, f.ty)) := by
      simp only [List.map_map, Function.comp_def, Func.name_map, Func.ty_map]
      exact Env.declareAll_perm (order.map _) (by simpa [Function.comp_def] using hnames)
    obtain ⟨qs, rs, hqs, rfl, hrs, hsames⟩ := typedFuncs_rearranged order bodies hts
    obtain ⟨b', hb', hsame⟩ := uses.typed _ _ _ hb
    rw [henv] at hrs hb'
    rw [hsame.ty_eq] at hwant ⊢
    exact ⟨_, typed_recIn_eq_ok.2 ⟨_, b', hrs, hb', hwant, rfl⟩, .recIn hqs hsames hsame⟩

/-- Tuples whose elements check alike. -/
private theorem CheckAlike.tuple {elems : List (Exp Span × Exp Span)}
    (parts : ∀ p ∈ elems, CheckAlike p.1 p.2) :
    CheckAlike (.tuple s (elems.map Prod.fst)) (.tuple s (elems.map Prod.snd)) where
  start := rfl
  typed env want t ht := by
    obtain ⟨ts, hts, hwant, rfl⟩ := typed_tuple_eq_ok.1 ht
    obtain ⟨qs, rfl, hqs, hsames⟩ := typedAll_rearranged parts hts
    have htys : (qs.map Prod.fst).map Exp.ty = (qs.map Prod.snd).map Exp.ty := by
      rw [List.map_map, List.map_map]
      exact List.map_congr_left fun q hq => (hsames q hq).ty_eq
    rw [htys] at hwant ⊢
    exact ⟨_, typed_tuple_eq_ok.2 ⟨_, hqs, hwant, rfl⟩, .tuple hsames⟩

/-- The first elements have the same type, so the same type is wanted of the other elements. -/
private theorem CheckAlike.vector {elems : List (Exp Span × Exp Span)}
    (lanes : ∀ p ∈ elems, CheckAlike p.1 p.2) :
    CheckAlike (.vector s (elems.map Prod.fst)) (.vector s (elems.map Prod.snd)) where
  start := rfl
  typed env want t ht := by
    obtain ⟨_, _, first, lane, ts, helems, hfirst, hlane, hrest, hwant, rfl⟩ :=
      typed_vector_eq_ok.1 ht
    cases elems with
    | nil => simp at helems
    | cons p elems =>
      obtain ⟨rfl, rfl⟩ := List.cons.inj helems
      obtain ⟨hp, helems⟩ := List.forall_mem_cons.1 lanes
      obtain ⟨first', hfirst', hsame⟩ := hp.typed _ _ _ hfirst
      obtain ⟨qs, rfl, hqs, hsames⟩ := typedAll_rearranged helems hrest
      have hlen : ((p :: elems).map Prod.fst).length = ((p :: elems).map Prod.snd).length := by simp
      rw [hlen] at hwant ⊢
      rw [hsame.ty_eq] at hlane
      have hqs' : typedAll env.operand ((elems.map Prod.snd).map fun _ => some (.prim lane))
          (elems.map Prod.snd) = .ok (qs.map Prod.snd) := by
        simpa [Function.comp_def] using hqs
      have halike := @Rearranged.vector _
        ⟨s, .vector ((p :: elems).map Prod.snd).length lane, env.tail⟩ ((first, first') :: qs)
        (List.forall_mem_cons.2 ⟨hsame, hsames⟩)
      exact ⟨_, typed_vector_eq_ok.2 ⟨p.2, _, first', lane, _, rfl, hfirst', hlane, hqs', hwant,
        rfl⟩, halike⟩

/-- Steps from pointers that check alike, with offsets that do. -/
private theorem CheckAlike.gep {base base' : Exp Span} {path : List (Step (Exp Span × Exp Span))}
    (pointer : CheckAlike base base')
    (offsets : ∀ p ∈ path.filterMap Step.offset?, CheckAlike p.1 p.2) :
    CheckAlike (.gep s base (path.map (Step.map Prod.fst)))
      (.gep s base' (path.map (Step.map Prod.snd))) where
  start := rfl
  typed env want t ht := by
    obtain ⟨b, ty, ts, haddr, hwant, rfl⟩ := typed_gep_eq_ok.1 ht
    obtain ⟨b', qs, rfl, hsame, haddr', hsames⟩ := addresses_rearranged pointer offsets haddr
    exact ⟨_, typed_gep_eq_ok.2 ⟨b', ty, _, haddr', hwant, rfl⟩, .gep hsame hsames⟩

/-- Loads from pointers that check alike, with offsets that do. -/
private theorem CheckAlike.load {base base' : Exp Span} {path : List (Step (Exp Span × Exp Span))}
    (pointer : CheckAlike base base')
    (offsets : ∀ p ∈ path.filterMap Step.offset?, CheckAlike p.1 p.2) :
    CheckAlike (.load s base (path.map (Step.map Prod.fst)))
      (.load s base' (path.map (Step.map Prod.snd))) where
  start := rfl
  typed env want t ht := by
    obtain ⟨b, ty, ts, haddr, hwant, rfl⟩ := typed_load_eq_ok.1 ht
    obtain ⟨b', qs, rfl, hsame, haddr', hsames⟩ := addresses_rearranged pointer offsets haddr
    exact ⟨_, typed_load_eq_ok.2 ⟨b', ty, _, haddr', hwant, rfl⟩, .load hsame hsames⟩

/-- Stores whose destinations, offsets, values and bodies check alike. -/
private theorem CheckAlike.store {dest dest' value value' body body' : Exp Span}
    {path : List (Step (Exp Span × Exp Span))} (pointer : CheckAlike dest dest')
    (offsets : ∀ p ∈ path.filterMap Step.offset?, CheckAlike p.1 p.2)
    (written : CheckAlike value value') (next : CheckAlike body body') :
    CheckAlike (.store s dest (path.map (Step.map Prod.fst)) value body)
      (.store s dest' (path.map (Step.map Prod.snd)) value' body') where
  start := rfl
  typed env want t ht := by
    obtain ⟨d, ty, ts, v, b, haddr, hv, hb, hwant, rfl⟩ := typed_store_eq_ok.1 ht
    obtain ⟨d', qs, rfl, hdsame, haddr', hsames⟩ := addresses_rearranged pointer offsets haddr
    obtain ⟨v', hv', hvsame⟩ := written.typed _ _ _ hv
    obtain ⟨b', hb', hbsame⟩ := next.typed _ _ _ hb
    rw [hbsame.ty_eq] at hwant ⊢
    exact ⟨_, typed_store_eq_ok.2 ⟨d', ty, _, v', b', haddr', hv', hb', hwant, rfl⟩,
      .store hdsame hsames hvsame hbsame⟩

/-- An update gives a value of the type of what is updated, and refuses the same paths. -/
private theorem CheckAlike.update {base base' value value' : Exp Span}
    {path : List (Step (Exp Span × Exp Span))} (aggregate : CheckAlike base base')
    (offsets : ∀ p ∈ path.filterMap Step.offset?, CheckAlike p.1 p.2)
    (written : CheckAlike value value') :
    CheckAlike (.update s base (path.map (Step.map Prod.fst)) value)
      (.update s base' (path.map (Step.map Prod.snd)) value') where
  start := rfl
  typed env want t ht := by
    obtain ⟨b, ty, ts, v, hb, hptr, hindex, hts, hv, hwant, rfl⟩ := typed_update_eq_ok.1 ht
    obtain ⟨b', hb', hsame⟩ := aggregate.typed _ _ _ hb
    obtain ⟨qs, rfl, hqs, hsames⟩ := typedPath_rearranged offsets hts
    obtain ⟨v', hv', hvsame⟩ := written.typed _ _ _ hv
    have hindex' : ∀ e, Step.index e ∉ path.map (Step.map Prod.snd) :=
      forall_index_notMem_map.2 (forall_index_notMem_map.1 hindex)
    rw [hsame.ty_eq] at hptr hqs hwant ⊢
    exact ⟨_, typed_update_eq_ok.2 ⟨b', ty, _, v', hb', hptr, hindex', hqs, hv', hwant, rfl⟩,
      .update hsame hsames hvsame⟩

end Forms

/-! ## The whole tree -/

/-- A tree that binds no identity twice is checked alike when the functions of its bundles stand in
    another order. -/
theorem checkAlike_of_rearranged {e e' : Exp Span} (h : Rearranged e e') (hn : e.bound.Nodup) :
    CheckAlike e e' := by
  -- what is bound in a part is bound in the whole, so no part binds an identity twice
  have hone {part : Exp Span} (hn : ∀ c ∈ [part], c.bound.Nodup) : part.bound.Nodup :=
    hn part (List.mem_singleton_self part)
  have hall {es : List (Exp Span × Exp Span)}
      (hes : ∀ p ∈ es, p.1.bound.Nodup → CheckAlike p.1 p.2)
      (hn : ∀ c ∈ es.map Prod.fst, c.bound.Nodup) : ∀ p ∈ es, CheckAlike p.1 p.2 :=
    fun p hp => hes p hp (hn _ (List.mem_map_of_mem hp))
  have hpath {path : List (Step (Exp Span × Exp Span))}
      (hes : ∀ p ∈ path.filterMap Step.offset?, p.1.bound.Nodup → CheckAlike p.1 p.2)
      (hn : ∀ c ∈ offsets (path.map (Step.map Prod.fst)), c.bound.Nodup) :
      ∀ p ∈ path.filterMap Step.offset?, CheckAlike p.1 p.2 :=
    hall hes (Rearranged.offsets_pairs Prod.fst path ▸ hn)
  -- each form is checked alike if its parts are, and those are rearrangements of each other
  induction h with
  | var | int => exact .refl _
  | ascribe _ ih => exact .ascribe (ih (hone (nodup_bound_below hn)))
  | coerce _ ih => exact .coerce (ih (hone (nodup_bound_below hn)))
  | prim _ ih => exact .prim (hall ih (nodup_bound_below hn))
  | letIn _ _ ihvalue ihbody =>
    obtain ⟨hvalue, hbody⟩ := List.forall_mem_cons.1 (nodup_bound_below hn)
    exact .letIn (ihvalue hvalue) (ihbody (hone hbody))
  | call _ _ ihcallee ihargs =>
    obtain ⟨hcallee, hargs⟩ := List.forall_mem_cons.1 (nodup_bound_below hn)
    exact .call (ihcallee hcallee) (hall ihargs hargs)
  | caseOf _ _ ihscrutinee iharms =>
    obtain ⟨hscrutinee, hbodies⟩ := List.forall_mem_cons.1 (nodup_bound_below hn)
    exact .caseOf (ihscrutinee hscrutinee) fun arm harm =>
      iharms arm harm (hbodies _ (List.mem_map_of_mem (List.mem_map_of_mem harm)))
  | @recIn _ _ _ fs _ order _ _ ihfs ihbody =>
    obtain ⟨hbodies, hbody⟩ := List.forall_mem_append.1 (nodup_bound_below hn)
    -- the names of the bundle are a part of what the tree binds
    have hnames : (fs.map (·.name)).Nodup := by
      rw [bound_eq, binders, List.append_assoc, List.nodup_append] at hn
      simpa [Function.comp_def] using hn.1
    exact .recIn order hnames
      (fun f hf => ihfs f hf (hbodies _ (List.mem_map_of_mem (List.mem_map_of_mem hf))))
      (ihbody (hone hbody))
  | tuple _ ih => exact .tuple (hall ih (nodup_bound_below hn))
  | vector _ ih => exact .vector (hall ih (nodup_bound_below hn))
  | gep _ _ ihbase ihpath =>
    obtain ⟨hbase, hoffsets⟩ := List.forall_mem_cons.1 (nodup_bound_below hn)
    exact .gep (ihbase hbase) (hpath ihpath hoffsets)
  | load _ _ ihbase ihpath =>
    obtain ⟨hbase, hoffsets⟩ := List.forall_mem_cons.1 (nodup_bound_below hn)
    exact .load (ihbase hbase) (hpath ihpath hoffsets)
  | store _ _ _ _ ihdest ihpath ihvalue ihbody =>
    obtain ⟨hdest, hrest⟩ := List.forall_mem_cons.1 (nodup_bound_below hn)
    obtain ⟨hoffsets, hrest⟩ := List.forall_mem_append.1 hrest
    obtain ⟨hvalue, hbody⟩ := List.forall_mem_cons.1 hrest
    exact .store (ihdest hdest) (hpath ihpath hoffsets) (ihvalue hvalue)
      (ihbody (hone hbody))
  | update _ _ _ ihbase ihpath ihvalue =>
    obtain ⟨hbase, hrest⟩ := List.forall_mem_cons.1 (nodup_bound_below hn)
    obtain ⟨hoffsets, hvalue⟩ := List.forall_mem_append.1 hrest
    exact .update (ihbase hbase) (hpath ihpath hoffsets)
      (ihvalue (hone hvalue))

end Typing

end BranchIR
