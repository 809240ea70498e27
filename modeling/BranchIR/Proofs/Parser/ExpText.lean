import BranchIR.Proofs.Exp.Alike
import BranchIR.Proofs.Parser.FormsText
import BranchIR.Proofs.Phrase.Written

/-!
# Reading the text of an expression

Where the tokens are the lexemes of an expression that is numbered from the next identity on,
the reader of expressions gives that expression again, up to annotations, and has handed out
the same identities. Whatever follows the lexemes, the reader is then among the trailing forms
behind the expression.
-/

namespace BranchIR

open BranchIR.Parser
open Exp (mapAnn)

variable {α : Type} {sub : Parser (Exp Span)} {bound fuel : Nat} {scope : List VarId} {n m : Nat}
  {σ : Scopes} {s s₁ s₂ s' : State}

/-! ## What is read again -/

/-- Something good was read. The same scopes are open afterwards, and identities up to `m` have
    been handed out. -/
def Again {β : Type} (good : β → Prop) (σ : Scopes) (m : Nat) (b : β) (σ' : Scopes) : Prop :=
  good b ∧ σ.Extends σ' ∧ σ'.size = m

/-- What was read is the expression, up to annotations. -/
def SameExp (e : Exp α) (e' : Exp Span) : Prop := e'.mapAnn noAnn = e.mapAnn noAnn

/-- Where its lexemes stand, the reader gives the expression again. The identities that it hands
    out are those of the expression. -/
def Rereads (sub : Parser (Exp Span)) (bound : Nat) (e : Exp α) : Prop :=
  ∀ {scope : List VarId} {n m : Nat} {σ : Scopes}, Numbered scope n e m → Knows σ scope n →
    Yields sub bound e.lexemes σ (Again (SameExp e) σ m)

/-- Expressions are read again one after the other. -/
private theorem exps_again {es : List (Exp α)} (h : ∀ e ∈ es, Rereads sub bound e)
    (hnum : NumberedAll scope n es m) (hknows : Knows σ scope n) :
    YieldsAll sub bound (es.map Exp.lexemes) σ
      (Again (fun es' => es'.map (mapAnn noAnn) = es.map (mapAnn noAnn)) σ m) := by
  induction es generalizing n σ with
  | nil => exact ⟨rfl, .refl σ, hknows.size.trans hnum.symm⟩
  | cons e es ih =>
    obtain ⟨he, hes⟩ := List.forall_mem_cons.1 h
    obtain ⟨k, hfirst, hrest⟩ := hnum
    refine (he hfirst hknows).mono fun e' σ₁ ⟨hsame, hσ₁, hsize⟩ => ?_
    -- the others are read in the scopes that the first one leaves
    have hothers := ih hes hrest (hknows.of_extends hσ₁ hsize)
    refine hothers.mono fun es' σ' ⟨hsames, hσ, hm⟩ => ⟨?_, hσ₁.trans hσ, hm⟩
    exact List.cons_eq_cons.2 ⟨hsame, hsames⟩

/-- The offsets of a path are read again one after the other. -/
private theorem path_again {path : List (Step (Exp α))}
    (h : ∀ e ∈ Exp.offsets path, Rereads sub bound e)
    (hnum : NumberedAll scope n (Exp.offsets path) m) (hknows : Knows σ scope n) :
    YieldsPath sub bound (path.map (Step.map Exp.lexemes)) σ
      (Again (fun path' => path'.map (Step.map (mapAnn noAnn)) =
        path.map (Step.map (mapAnn noAnn))) σ m) := by
  induction path generalizing n σ with
  | nil => exact ⟨rfl, .refl σ, hknows.size.trans hnum.symm⟩
  | cons step path ih =>
    rw [Exp.offsets_cons] at h hnum
    obtain ⟨hstep, hpath⟩ := List.forall_mem_append.1 h
    cases step with
    | field k | element k =>
      show YieldsPath sub bound (path.map (Step.map Exp.lexemes)) σ _
      refine (ih hpath hnum hknows).mono fun path' σ' ⟨hsames, hrest⟩ => ⟨?_, hrest⟩
      exact List.cons_eq_cons.2 ⟨rfl, hsames⟩
    | lane e | index e =>
      obtain ⟨k, hfirst, hlater⟩ := hnum
      refine (hstep e (by simp) hfirst hknows).mono fun e' σ₁ ⟨hsame, hσ₁, hsize⟩ => ?_
      have hothers := ih hpath hlater (hknows.of_extends hσ₁ hsize)
      refine hothers.mono fun path' σ' ⟨hsames, hσ, hm⟩ => ⟨?_, hσ₁.trans hσ, hm⟩
      refine List.cons_eq_cons.2 ⟨?_, hsames⟩
      rw [Step.map, Step.map, hsame]

/-- Arms are read again one after the other. -/
private theorem arms_again {arms : List (Arm (Exp α))}
    (h : ∀ arm ∈ arms, Rereads sub bound arm.body)
    (hw : ∀ arm ∈ arms, arm.pattern.Writable) (hnum : NumberedAll scope n (arms.map (·.body)) m)
    (hknows : Knows σ scope n) :
    YieldsAll (readArm sub) bound ((arms.map Arm.branch).map (·.phrase)) σ
      (Again (fun arms' => arms'.map (Arm.map (mapAnn noAnn)) =
        arms.map (Arm.map (mapAnn noAnn))) σ m) := by
  induction arms generalizing n σ with
  | nil => exact ⟨rfl, .refl σ, hknows.size.trans hnum.symm⟩
  | cons arm arms ih =>
    obtain ⟨harm, harms⟩ := List.forall_mem_cons.1 h
    obtain ⟨hpattern, hpatterns⟩ := List.forall_mem_cons.1 hw
    obtain ⟨k, hfirst, hrest⟩ := hnum
    have hbranch : PatternPhrase arm.branch.pattern arm.branch.mark := Pattern.phrase hpattern
    refine readArm_yields hbranch ((harm hfirst hknows).mono fun body' σ₁ ⟨hsame, hσ₁, hsize⟩ => ?_)
    have hothers := ih harms hpatterns hrest (hknows.of_extends hσ₁ hsize)
    refine hothers.mono fun arms' σ' ⟨hsames, hσ, hm⟩ => ⟨?_, hσ₁.trans hσ, hm⟩
    exact List.cons_eq_cons.2 ⟨congrArg (Arm.mk arm.pattern) hsame, hsames⟩

/-- Parameters are the same up to annotations when their names and types are. -/
private theorem sameParams {ps : List (Param α)} {ps' : List (Param Span)}
    (hnames : ps'.map (·.name) = ps.map (·.name)) (htypes : ps'.map (·.ty) = ps.map (·.ty)) :
    ps'.map (Param.map noAnn) = ps.map (Param.map noAnn) := by
  induction ps generalizing ps' with
  | nil =>
    rw [List.map_nil, List.map_eq_nil_iff] at hnames
    rw [hnames]
    rfl
  | cons p ps ih =>
    obtain ⟨p', ps', rfl, hname, hnames⟩ := List.map_eq_cons_iff.1 hnames
    obtain ⟨htype, htypes⟩ := List.cons.inj htypes
    have hp : p'.map noAnn = p.map noAnn := by
      simp only [Param.map, noAnn]
      exact congrArg₂ (Param.mk ()) hname htype
    exact List.cons_eq_cons.2 ⟨hp, ih hnames htypes⟩

/-- Functions are read again one after the other, each in a scope of its own. -/
private theorem funcs_again {fs : List (Func α (Exp α))}
    (h : ∀ f ∈ fs, Rereads sub bound f.body) (hnum : NumberedFuncs scope n fs m)
    (hknows : Knows σ scope n) :
    YieldsFuncs sub bound (fs.map (·.name)) (fs.map Func.member) σ
      (Again (fun fs' => fs'.map (Func.map noAnn (mapAnn noAnn)) =
        fs.map (Func.map noAnn (mapAnn noAnn))) σ m) := by
  induction fs generalizing n σ with
  | nil => exact ⟨rfl, .refl σ, hknows.size.trans hnum.symm⟩
  | cons f fs ih =>
    obtain ⟨hf, hfs⟩ := List.forall_mem_cons.1 h
    obtain ⟨hparams, k, hbody, hrest⟩ := hnum
    -- the parameters are bound by the texts of the next identities
    have hopen := hknows.push.bindAll f.params.length
    rw [← hparams, ← Func.paramNames_member] at hopen
    refine (hf hbody hopen).mono fun body' σ₁ ⟨hsame, hσ₁, hsize⟩ f' hhead hbody' => ?_
    -- the scope of the function is closed again
    have hσ₁ := hσ₁.pop _
    have hothers := ih hfs hrest (hknows.of_extends hσ₁ (by rw [Scopes.size_pop, hsize]))
    refine hothers.mono fun fs' σ' ⟨hsames, hσ, hm⟩ => ⟨?_, hσ₁.trans hσ, hm⟩
    refine List.cons_eq_cons.2 ⟨?_, hsames⟩
    have hnames : f'.params.map (·.name) = f.params.map (·.name) := by
      rw [hhead.names, hparams, hknows.size]
      simp [Func.member]
    have htypes : f'.params.map (·.ty) = f.params.map (·.ty) := by
      rw [hhead.types]
      simp [Func.member, Param.parameter]
    have hsame : body'.mapAnn noAnn = f.body.mapAnn noAnn := hsame
    have hresult : f'.result = f.result := hhead.result
    -- name, parameters, result and body are those of the function that was written
    rw [Func.map, hbody', hsame, sameParams hnames htypes, hhead.name, hresult, Func.map]

/-! ## Opening and trailing forms -/

/-- The reader comes from the one place to the other with something on its left that has the
    property, and goes on with trailing forms. -/
def Reaches (fuel : Nat) (s : State) (σ : Scopes) (s₁ : State)
    (left : Exp Span → Scopes → Prop) : Prop :=
  ∀ (s' : State) (post : Exp Span → Scopes → Prop),
    (∀ e σ₁ k, left e σ₁ → s₁.remaining ≤ k →
      Runs (Grammar.full.trail (Grammar.full.exprAt fuel .loose) k e) s₁ σ₁ s' post) →
    Runs (Grammar.full.exprAt (fuel + 1) .loose) s σ s' post

namespace Reaches

variable {left post : Exp Span → Scopes → Prop}

/-- After an opening form the reader is among the trailing forms. -/
private theorem of_form (form : OpeningForm) {k : Kind} (htakes : s.Takes k s₁)
    (hform : Grammar.full.opening.lookup k = some form)
    (h : Runs (form.read Grammar.full.ty (Grammar.full.exprAt fuel .loose)) s σ s' left) :
    Reaches fuel s σ s' left :=
  fun _ _ hrest => exprAt_of_form form htakes hform
    (h.mono fun e σ₁ hleft => hrest e σ₁ _ hleft (Nat.le_refl _))

/-- Where no trailing form stands, the reader is done. -/
private theorem runs (h : Reaches fuel s σ s' left) (hstops : s'.Stops) :
    Runs (Grammar.full.exprAt (fuel + 1) .loose) s σ s' left :=
  h s' left fun _ _ k hleft _ => trail_nil hstops hleft k

/-- A trailing form is read after what stands on its left. -/
private theorem step (form : TrailingForm) {k : Kind} (h : Reaches fuel s σ s₁ left)
    (htakes : s₁.Takes k s₂) (hform : Grammar.full.trailing.lookup k = some form)
    (hread : ∀ e σ₁, left e σ₁ →
      Runs (form.read Grammar.full.ty (Grammar.full.exprAt fuel .loose) e) s₁ σ₁ s' post)
    (hless : s'.remaining < s₁.remaining) : Reaches fuel s σ s' post := by
  intro s₃ post₃ hrest
  refine h s₃ post₃ fun e σ₁ k hleft hk => ?_
  -- a trailing form takes a token, so there is fuel for as many as can still come
  obtain ⟨k, rfl⟩ : ∃ j, k = j + 1 := ⟨k - 1, by omega⟩
  refine trail_cons form htakes hform ((hread e σ₁ hleft).mono fun e' σ' hpost => ?_)
  exact hrest e' σ' k hpost (by omega)

end Reaches

namespace Exp

/-- Where its lexemes stand, the reader comes to the expression. -/
def ReadsBack (e : Exp α) : Prop :=
  ∀ (fuel : Nat) {scope : List VarId} {n m : Nat} {σ : Scopes} {s s' : State},
    Numbered scope n e m → Knows σ scope n → s.Shows e.lexemes s' → s.remaining ≤ fuel + 1 →
    Reaches fuel s σ s' (Again (SameExp e) σ m)

/-- A tree that reads back does so at the lowest binding power, too. -/
theorem ReadsBack.rereads {e : Exp α} (h : e.ReadsBack) (fuel : Nat) :
    Rereads (Grammar.full.exprAt fuel .loose) fuel e := by
  intro scope n m σ hnum hknows s s' hshows hbound hstops
  have hpos := s.remaining_pos
  obtain ⟨fuel, rfl⟩ : ∃ f, fuel = f + 1 := ⟨fuel - 1, by omega⟩
  exact (h fuel hnum hknows hshows hbound).runs hstops

/-- A form is read where its lexemes stand in parentheses. -/
private theorem reaches_group {ws : List Lexeme} {post : Exp Span → Scopes → Prop}
    (h : ∀ fuel {s s' : State}, s.Shows ws s' → s.remaining ≤ fuel + 1 → s'.Stops →
      Runs (Grammar.full.exprAt (fuel + 1) .loose) s σ s' post)
    (hshows : s.Shows (Kind.openParen.lexeme :: (ws ++ [Kind.closeParen.lexeme])) s')
    (hfuel : s.remaining ≤ fuel + 1) : Reaches fuel s σ s' post := by
  obtain ⟨s₁, hopens, -⟩ := id hshows
  have hyield : Yields (Grammar.full.exprAt fuel .loose) fuel ws σ post := by
    intro s s' hshows hbound hstops
    have hpos := s.remaining_pos
    obtain ⟨fuel, rfl⟩ : ∃ f, fuel = f + 1 := ⟨fuel - 1, by omega⟩
    exact h fuel hshows hbound hstops
  exact .of_form .group hopens rfl (readGroup_run hyield hshows hfuel)

/-! ## Forms -/

/-- A parenthesized form with a type behind its word. -/
private theorem readsBack_typed (form : TrailingForm) {k : Kind}
    {make : Span → Exp Span → Ty → Exp Span} {e inner : Exp α} {ty : Ty}
    (hform : Grammar.full.trailing.lookup k = some form)
    (hread : ∀ sub left, form.read Grammar.full.ty sub left = do
      let _ ← advance
      let t ← Grammar.full.ty
      return make (← spanFrom left.ann.first) left t)
    (hlexemes : e.lexemes = Kind.openParen.lexeme ::
      (inner.lexemes ++ k.lexeme :: (ty.lexemes ++ [Kind.closeParen.lexeme])))
    (hmake : ∀ span left, SameExp inner left → SameExp e (make span left ty))
    (hinner : ∀ {scope n m}, Numbered scope n e m → Numbered scope n inner m)
    (h : inner.ReadsBack) (hw : ty.Writable) : e.ReadsBack := by
  intro fuel scope n m σ s s' hnum hknows hshows hfuel
  have hsplit : s.Shows (Kind.openParen.lexeme :: ((inner.lexemes ++ k.lexeme :: ty.lexemes) ++
      [Kind.closeParen.lexeme])) s' := by simpa [hlexemes] using hshows
  refine reaches_group (fun fuel s s' hshows hfuel hstops => ?_) hsplit hfuel
  obtain ⟨s₁, hleft, hrest⟩ := State.shows_append.1 hshows
  obtain ⟨s₂, hword, -⟩ := id hrest
  have hcount := hrest.remaining
  rw [List.length_cons] at hcount
  -- inside the parentheses the word is a trailing form behind the inner expression
  have hfirst := h fuel (hinner hnum) hknows hleft hfuel
  refine (hfirst.step form hword hform (fun left σ₁ ⟨hsame, hσ⟩ => ?_) (by omega)).runs hstops
  exact readTyped_run form (hread _) (ty.phrase hw) (fun a => ⟨hmake a left hsame, hσ⟩) hrest

/-- Expressions between brackets. -/
private theorem readsBack_elems (form : OpeningForm) {k close : Kind}
    {make : Span → List (Exp Span) → Exp Span} {e : Exp α} {elems : List (Exp α)}
    (hform : Grammar.full.opening.lookup k = some form)
    (hread : ∀ sub, form.read Grammar.full.ty sub = do
      let start := (← advance).span.first
      let es ← listTo close sub
      return make (← spanFrom start) es)
    (hlexemes : e.lexemes =
      k.lexeme :: (separated Kind.comma.lexeme (lexemeLists elems) ++ [close.lexeme]))
    (hhead : Grammar.full.opening.lookup close = none) (hcomma : close ≠ .comma)
    (hclose : Grammar.full.trailing.lookup close = none)
    (hmake : ∀ span es, es.map (mapAnn noAnn) = elems.map (mapAnn noAnn) →
      SameExp e (make span es))
    (helems : ∀ {scope n m}, Numbered scope n e m → NumberedAll scope n elems m)
    (hw : ∀ elem ∈ elems, elem.Writable) (h : ∀ elem ∈ elems, elem.ReadsBack) : e.ReadsBack := by
  intro fuel scope n m σ s s' hnum hknows hshows hfuel
  rw [hlexemes] at hshows
  obtain ⟨s₁, hopens, -⟩ := id hshows
  have hphrases := phrases_of_all (fun e he => phrase (hw e he)) (helems hnum)
  have hagain := exps_again (fun e he => (h e he).rereads fuel) (helems hnum) hknows
  refine .of_form form hopens hform (readElems_run hphrases (commas_lexemeLists elems) form
    (hread _) hhead hcomma hclose (hagain.mono ?_) hshows hfuel)
  exact fun es σ' ⟨hsames, hσ⟩ a => ⟨hmake a es hsames, hσ⟩

/-- A word applied to a base and a path. -/
private theorem readsBack_based (form : OpeningForm) {k : Kind}
    {make : Span → Exp Span → List (Step (Exp Span)) → Exp Span} {e base : Exp α}
    {path : List (Step (Exp α))} (hform : Grammar.full.opening.lookup k = some form)
    (hread : ∀ sub, form.read Grammar.full.ty sub = do
      let start := (← advance).span.first
      let (b, p) ← OpeningForm.readBased sub
      return make (← spanFrom start) b p)
    (hlexemes : e.lexemes = k.lexeme :: Kind.openParen.lexeme ::
      (base.lexemes ++ (pathLexemes path ++ [Kind.closeParen.lexeme])))
    (hmake : ∀ span b p, SameExp base b →
      p.map (Step.map (mapAnn noAnn)) = path.map (Step.map (mapAnn noAnn)) →
      SameExp e (make span b p))
    (hparts : ∀ {scope n m}, Numbered scope n e m →
      ∃ l, Numbered scope n base l ∧ NumberedAll scope l (offsets path) m)
    (hbase : base.ReadsBack) (hoffsets : ∀ offset ∈ offsets path, offset.ReadsBack)
    (hw : ∀ step ∈ path, step.Writable) : e.ReadsBack := by
  intro fuel scope n m σ s s' hnum hknows hshows hfuel
  rw [hlexemes] at hshows
  obtain ⟨s₁, hword, -⟩ := id hshows
  -- the base is numbered first and the offsets of the path after it
  obtain ⟨l, hfirst, hlater⟩ := hparts hnum
  refine .of_form form hword hform (readAddress_run (pathPhrase hw) form (hread _) ?_ hshows hfuel)
  refine (hbase.rereads fuel hfirst hknows).mono fun b σ₁ ⟨hsame, hσ₁, hsize⟩ => ?_
  have hagain := path_again (fun e he => (hoffsets e he).rereads fuel) hlater
    (hknows.of_extends hσ₁ hsize)
  exact hagain.mono fun p σ' ⟨hsames, hσ, hm⟩ a => ⟨hmake a b p hsame hsames, hσ₁.trans hσ, hm⟩

/-- An operator reads back if its operands do: its word tells it from a call. -/
private theorem readsBack_prim {a : α} {op : PrimOp} {args : List (Exp α)}
    (hw : ∀ arg ∈ args, arg.Writable) (h : ∀ arg ∈ args, arg.ReadsBack) :
    (prim a op args).ReadsBack := by
  intro fuel scope n m σ s s' hnum hknows hshows hfuel
  obtain ⟨s₁, hword, -⟩ := id hshows
  have hnum := numbered_prim.1 hnum
  have hphrases := phrases_of_all (fun e he => phrase (hw e he)) hnum
  have hagain := exps_again (fun e he => (h e he).rereads fuel) hnum hknows
  refine .of_form .prim hword rfl
    (readPrim_run hphrases (commas_lexemeLists args) (hagain.mono ?_) hshows hfuel)
  intro es σ' ⟨hsames, hσ⟩ a'
  refine ⟨?_, hσ⟩
  show mapAnn noAnn (.prim a' op es) = _
  rw [mapAnn_prim, hsames, mapAnn_prim]

/-- A call reads back if its parts do: what is called stands in parentheses of its own. -/
private theorem readsBack_call {a : α} {callee : Exp α} {args : List (Exp α)}
    (hcallee : callee.ReadsBack) (hw : ∀ arg ∈ args, arg.Writable)
    (h : ∀ arg ∈ args, arg.ReadsBack) : (call a callee args).ReadsBack := by
  intro fuel scope n m σ s s' hnum hknows hshows hfuel
  obtain ⟨l, hfirst, hlater⟩ := numbered_call.1 hnum
  obtain ⟨s₁, hleft, hrest⟩ := State.shows_append.1 hshows
  obtain ⟨s₂, hopens, -⟩ := id hrest
  have hcount := hleft.remaining
  have hcount₂ := hrest.remaining
  rw [List.length_cons] at hcount₂
  have hless : s₁.remaining ≤ fuel + 1 := by omega
  have hphrases := phrases_of_all (fun e he => phrase (hw e he)) hlater
  -- the callee has been read, and the arguments come as a trailing form
  refine (hcallee fuel hfirst hknows hleft hfuel).step .call hopens rfl ?_ (by omega)
  intro left σ₁ ⟨hsame, hσ₁, hsize⟩
  have hagain := exps_again (fun e he => (h e he).rereads fuel) hlater
    (hknows.of_extends hσ₁ hsize)
  refine readCall_run hphrases (commas_lexemeLists args) (hagain.mono ?_) hrest hless
  intro es σ' ⟨hsames, hσ, hm⟩ a'
  refine ⟨?_, hσ₁.trans hσ, hm⟩
  show mapAnn noAnn (.call a' left es) = _
  rw [mapAnn_call, hsame, hsames, mapAnn_call]

/-- A case reads back if its parts do, and its patterns can be written. -/
private theorem readsBack_caseOf {a : α} {scrutinee : Exp α} {arms : List (Arm (Exp α))}
    (hscrutinee : scrutinee.ReadsBack) (harms : ∀ arm ∈ arms, arm.body.ReadsBack)
    (hw : ∀ arm ∈ arms, arm.pattern.Writable) : (caseOf a scrutinee arms).ReadsBack := by
  intro fuel scope n m σ s s' hnum hknows hshows hfuel
  obtain ⟨s₁, hword, -⟩ := id hshows
  obtain ⟨l, hfirst, hlater⟩ := numbered_caseOf.1 hnum
  have hpatterns : ∀ b ∈ arms.map Arm.branch, PatternPhrase b.pattern b.mark :=
    List.forall_mem_map.2 fun arm harm => Pattern.phrase (hw arm harm)
  refine .of_form .caseOf hword rfl
    (readCase_run hpatterns (commas_armLexemes arms) ?_ hshows hfuel)
  refine (hscrutinee.rereads fuel hfirst hknows).mono fun scrutinee' σ₁ ⟨hsame, hσ₁, hsize⟩ => ?_
  have hagain := arms_again (fun arm harm => (harms arm harm).rereads fuel) hw hlater
    (hknows.of_extends hσ₁ hsize)
  refine hagain.mono fun arms' σ' ⟨hsames, hσ, hm⟩ a' => ⟨?_, hσ₁.trans hσ, hm⟩
  show mapAnn noAnn (.caseOf a' scrutinee' arms') = _
  rw [mapAnn_caseOf, hsame, hsames, mapAnn_caseOf]

/-- A let reads back if its parts do: the name that is printed is bound for the body. -/
private theorem readsBack_letIn {a : α} {name : VarId} {ty : Ty} {value body : Exp α}
    (hvalue : value.ReadsBack) (hbody : body.ReadsBack) (hw : ty.Writable) :
    (letIn a name ty value body).ReadsBack := by
  intro fuel scope n m σ s s' hnum hknows hshows hfuel
  obtain ⟨hgiven, hinner⟩ := numbered_letIn.1 hnum
  have hsplit : s.Shows (Kind.openParen.lexeme :: ((Kind.letWord.lexeme :: VarId.lexeme name ::
      Kind.colon.lexeme :: (ty.lexemes ++ Kind.assignment.lexeme :: (value.lexemes ++
        Kind.inWord.lexeme :: body.lexemes))) ++ [Kind.closeParen.lexeme])) s' := by
    simpa [lexemes] using hshows
  refine reaches_group (fun fuel s s' hshows hfuel hstops => ?_) hsplit hfuel
  obtain ⟨s₁, hword, -⟩ := id hshows
  refine (Reaches.of_form .letIn hword rfl
    (readLet_run (ty.phrase hw) ?_ hshows hfuel hstops)).runs hstops
  refine (hvalue.rereads fuel hgiven hknows).mono ?_
  rintro value' σ₁ ⟨hsame, hσ₁, hsize⟩
  -- the body is read in a scope that knows the name, which has the next identity
  have hopen := (hknows.of_extends hσ₁ hsize).push.bind
  refine (hbody.rereads fuel hinner hopen).mono ?_
  rintro body' σ' ⟨hsame', hσ, hm⟩ a'
  refine ⟨?_, hσ₁.trans (hσ.pop [VarId.text name]), by rw [Scopes.size_pop, hm]⟩
  show mapAnn noAnn (.letIn a' σ₁.size ty value' body') = _
  rw [mapAnn_letIn, hsame, hsame', hsize, mapAnn_letIn]

/-- A bundle reads back if its parts do: the printed names differ, so each one is found again. -/
private theorem readsBack_recIn {a : α} {fs : List (Func α (Exp α))} {body : Exp α}
    (hfs : ∀ f ∈ fs, f.body.ReadsBack) (hbody : body.ReadsBack)
    (hwfs : ∀ f ∈ fs, f.body.Writable) (hw : (recIn a fs body).RootWritable) :
    (recIn a fs body).ReadsBack := by
  intro fuel scope n m σ s s' hnum hknows hshows hfuel
  obtain ⟨hids, k, hfuncs, hinner⟩ := numbered_recIn.1 hnum
  -- a bundle is written in parentheses
  have hsplit : s.Shows (Kind.openParen.lexeme :: ((Kind.recWord.lexeme ::
      (separated Kind.andWord.lexeme ((fs.map Func.member).map Member.phrase) ++
        Kind.inWord.lexeme :: body.lexemes)) ++ [Kind.closeParen.lexeme])) s' := by
    rw [map_phrase_member]
    simpa [lexemes] using hshows
  refine reaches_group (fun fuel s s' hshows hfuel hstops => ?_) hsplit hfuel
  obtain ⟨s₁, hword, hrest⟩ := id hshows
  -- the functions are phrases, and their names are the texts of different identities
  have hall := phrases_of_funcs (fun f hf => phrase (hwfs f hf)) hw.2 hfuncs
  have hopen := hknows.push.bindAll fs.length
  rw [← hids, ← map_name_member] at hopen
  have hlength : (fs.map Func.member).length = fs.length := List.length_map ..
  refine (Reaches.of_form .recIn hword rfl (readRec_run (by simpa using hw.1)
    (List.forall_mem_map.2 fun f hf => (hall f hf).1) (nodup_map_name_member hids)
    (List.forall_mem_map.2 fun f hf => (hall f hf).2.even) ?_ hword hrest.2
    (hword.below hfuel) hstops)).runs hstops
  rw [hlength, hknows.size, ← hids]
  -- the bodies one after the other, and then what comes behind `in`
  refine (funcs_again (fun f hf => (hfs f hf).rereads fuel) hfuncs hopen).mono ?_
  rintro fs' σ₁ ⟨hsames, hσ₁, hm₁⟩
  refine (hbody.rereads fuel hinner (hopen.of_extends hσ₁ hm₁)).mono ?_
  rintro body' σ' ⟨hsame, hσ, hm⟩ a'
  refine ⟨?_, (hσ₁.trans hσ).pop _, by rw [Scopes.size_pop, hm]⟩
  show mapAnn noAnn (.recIn a' fs' body') = _
  rw [mapAnn_recIn, hsames, hsame, mapAnn_recIn]

/-- A store reads back if its parts do. -/
private theorem readsBack_store {a : α} {dest value body : Exp α} {path : List (Step (Exp α))}
    (hdest : dest.ReadsBack) (hoffsets : ∀ offset ∈ offsets path, offset.ReadsBack)
    (hvalue : value.ReadsBack) (hbody : body.ReadsBack) (hw : ∀ step ∈ path, step.Writable) :
    (store a dest path value body).ReadsBack := by
  intro fuel scope n m σ s s' hnum hknows hshows hfuel
  obtain ⟨i, hfirst, j, hsteps, k, hgiven, hinner⟩ := numbered_store.1 hnum
  have hsplit : s.Shows (Kind.openParen.lexeme :: ((Kind.storeWord.lexeme :: (dest.lexemes ++
      (pathLexemes path ++ Kind.assignment.lexeme :: (value.lexemes ++
        Kind.inWord.lexeme :: body.lexemes)))) ++ [Kind.closeParen.lexeme])) s' := by
    simpa [lexemes] using hshows
  refine reaches_group (fun fuel s s' hshows hfuel hstops => ?_) hsplit hfuel
  obtain ⟨s₁, hword, -⟩ := id hshows
  refine (Reaches.of_form .store hword rfl
    (readStore_run (pathPhrase hw) ?_ hshows hfuel hstops)).runs hstops
  -- the parts in the order in which they stand
  refine (hdest.rereads fuel hfirst hknows).mono ?_
  rintro dest' σ₁ ⟨hsame₁, hσ₁, hi⟩
  have hknows₁ := hknows.of_extends hσ₁ hi
  refine (path_again (fun e he => (hoffsets e he).rereads fuel) hsteps hknows₁).mono ?_
  rintro path' σ₂ ⟨hsames, hσ₂, hj⟩
  -- the value and the body are read in the scopes that the parts before them leave
  have hknows₂ := hknows₁.of_extends hσ₂ hj
  refine (hvalue.rereads fuel hgiven hknows₂).mono ?_
  rintro value' σ₃ ⟨hsame₃, hσ₃, hk⟩
  refine (hbody.rereads fuel hinner (hknows₂.of_extends hσ₃ hk)).mono ?_
  rintro body' σ' ⟨hsame, hσ, hm⟩ a'
  refine ⟨?_, ((hσ₁.trans hσ₂).trans hσ₃).trans hσ, hm⟩
  show mapAnn noAnn (.store a' dest' path' value' body') = _
  rw [mapAnn_store, hsame₁, hsames, hsame₃, hsame, mapAnn_store]

/-- An update reads back if its parts do. -/
private theorem readsBack_update {a : α} {base value : Exp α} {path : List (Step (Exp α))}
    (hbase : base.ReadsBack) (hoffsets : ∀ offset ∈ offsets path, offset.ReadsBack)
    (hvalue : value.ReadsBack) (hw : ∀ step ∈ path, step.Writable) :
    (update a base path value).ReadsBack := by
  intro fuel scope n m σ s s' hnum hknows hshows hfuel
  obtain ⟨j, hfirst, k, hsteps, hgiven⟩ := numbered_update.1 hnum
  obtain ⟨s₁, hword, -⟩ := id hshows
  refine .of_form .update hword rfl (readUpdate_run (pathPhrase hw) ?_ hshows hfuel)
  refine (hbase.rereads fuel hfirst hknows).mono fun base' σ₁ ⟨hsame₁, hσ₁, hj⟩ => ?_
  have hknows₁ := hknows.of_extends hσ₁ hj
  refine (path_again (fun e he => (hoffsets e he).rereads fuel) hsteps hknows₁).mono ?_
  intro path' σ₂ ⟨hsames, hσ₂, hk⟩
  refine (hvalue.rereads fuel hgiven (hknows₁.of_extends hσ₂ hk)).mono ?_
  intro value' σ' ⟨hsame, hσ, hm⟩ a'
  refine ⟨?_, (hσ₁.trans hσ₂).trans hσ, hm⟩
  show mapAnn noAnn (.update a' base' path' value') = _
  rw [mapAnn_update, hsame₁, hsames, hsame, mapAnn_update]

/-- A literal reads back if its value and its width can be written. -/
private theorem readsBack_int {a : α} {value : Int} {width : Nat}
    (hw : (int a value width).RootWritable) : (int a value width).ReadsBack := by
  intro fuel scope n m σ s s' hnum hknows hshows _
  obtain ⟨htakes, htext⟩ := State.shows_singleton.1 hshows
  have hread : literal? s.current.text = some (value, width) := by
    rw [htext]
    exact literal?_append (Text.wideInt?_intText hw.1.1 hw.1.2)
      (Text.word?_natText (le_of_fits hw.2)) hw.2
  -- a literal binds nothing, so the number of identities stays
  have hm : σ.size = m := hknows.size.trans (numbered_int.1 hnum).symm
  exact .of_form .atom htakes rfl (readInt_run htakes hread ⟨rfl, .refl σ, hm⟩)

/-- A variable reads back, since the name that is printed leads to its identity. -/
private theorem readsBack_var {a : α} {id : VarId} : (var a id).ReadsBack := by
  intro fuel scope n m σ s s' hnum hknows hshows _
  obtain ⟨htakes, htext⟩ := State.shows_singleton.1 hshows
  obtain ⟨hid, hm⟩ := numbered_var.1 hnum
  -- the reader resolves the name of the variable to its identity
  have hfind : σ.find? s.current.text = some id := by
    rw [htext]
    exact hknows.find id hid
  exact .of_form .atom htakes rfl
    (readVar_run htakes hfind ⟨rfl, .refl σ, hknows.size.trans hm.symm⟩)

/-- The reader comes to an expression when it comes to the direct subexpressions. -/
private theorem readsBack_of_children {e : Exp α} (hroot : e.RootWritable)
    (hw : ∀ child ∈ e.children, child.Writable) (h : ∀ child ∈ e.children, child.ReadsBack) :
    e.ReadsBack := by
  -- a form in parentheses is read as a group with the form in it; what stands in front of a
  -- colon, an `as` or arguments is the left side of a trailing form
  cases e with
  | var a id => exact readsBack_var
  | int a value width => exact readsBack_int hroot
  | ascribe a inner ty =>
    refine @readsBack_typed α .ascription .colon .ascribe _ inner ty rfl (fun _ _ => rfl) rfl ?_
      numbered_ascribe.1 (h inner (by simp [children])) hroot
    intro span left hsame
    rw [SameExp, mapAnn_ascribe, hsame, mapAnn_ascribe]
  | coerce a inner ty =>
    refine @readsBack_typed α .coercion .asWord .coerce _ inner ty rfl (fun _ _ => rfl) rfl ?_
      numbered_coerce.1 (h inner (by simp [children])) hroot
    intro span left hsame
    rw [SameExp, mapAnn_coerce, hsame, mapAnn_coerce]
  | prim a op args => exact readsBack_prim hw h
  | letIn a name ty value body =>
    exact readsBack_letIn (h value (by simp [children])) (h body (by simp [children])) hroot
  | call a callee args =>
    obtain ⟨hcallee, hargs⟩ := List.forall_mem_cons.1 h
    exact readsBack_call hcallee (List.forall_mem_cons.1 hw).2 hargs
  | caseOf a scrutinee arms =>
    obtain ⟨hscrutinee, harms⟩ := List.forall_mem_cons.1 h
    exact readsBack_caseOf hscrutinee (List.forall_mem_map.1 harms) hroot
  | recIn a fs body =>
    rw [children, List.forall_mem_append, List.forall_mem_map, List.forall_mem_singleton] at hw h
    exact readsBack_recIn h.1 h.2 hw.1 hroot
  -- the forms that end with a closing token stand without parentheses
  | tuple a elems =>
    refine @readsBack_elems α .tuple .openCurly .closeCurly .tuple _ elems rfl (fun _ => rfl) rfl
      rfl (by decide) rfl ?_ numbered_tuple.1 hw h
    intro span es hsame
    rw [SameExp, mapAnn_tuple, hsame, mapAnn_tuple]
  | vector a elems =>
    refine @readsBack_elems α .vector .less .greater .vector _ elems rfl (fun _ => rfl) rfl rfl
      (by decide) rfl ?_ numbered_vector.1 hw h
    intro span es hsame
    rw [SameExp, mapAnn_vector, hsame, mapAnn_vector]
  | gep a base path =>
    obtain ⟨hbase, hoffsets⟩ := List.forall_mem_cons.1 h
    refine @readsBack_based α .gep .gepWord .gep _ base path rfl (fun _ => rfl) rfl ?_
      numbered_gep.1 hbase hoffsets hroot
    intro span b p hsame hsames
    rw [SameExp, mapAnn_gep, hsame, hsames, mapAnn_gep]
  | load a base path =>
    obtain ⟨hbase, hoffsets⟩ := List.forall_mem_cons.1 h
    refine @readsBack_based α .load .loadWord .load _ base path rfl (fun _ => rfl) rfl ?_
      numbered_load.1 hbase hoffsets hroot
    intro span b p hsame hsames
    rw [SameExp, mapAnn_load, hsame, hsames, mapAnn_load]
  | store a dest path value body =>
    rw [children, List.forall_mem_cons, List.forall_mem_append] at h
    obtain ⟨hdest, hoffsets, hrest⟩ := h
    exact readsBack_store hdest hoffsets (hrest value (by simp)) (hrest body (by simp)) hroot
  | update a base path value =>
    rw [children, List.forall_mem_cons, List.forall_mem_append] at h
    obtain ⟨hbase, hoffsets, hrest⟩ := h
    exact readsBack_update hbase hoffsets (hrest value (by simp)) hroot

/-- Where its lexemes stand, the reader comes to the expression. -/
theorem readsBack {e : Exp α} (hw : e.Writable) : e.ReadsBack := by
  induction e using Exp.induct with
  | step e ih =>
    obtain ⟨hroot, hchildren⟩ := writable_iff.1 hw
    exact readsBack_of_children hroot hchildren fun child hc => ih child hc (hchildren child hc)

end Exp

/-! ## Programs -/

/-- The tokens of the text of a program are read as the program. -/
theorem ofTokens_run {e : Exp α} (hw : e.Writable) (hnum : Numbered [] 0 e m) (file : String)
    {tokens : List Token} (h : tokens.map Token.lexeme = e.lexemes ++ [Kind.endOfInput.lexeme]) :
    ∃ program, Program.ofTokens file tokens = .ok program ∧
      program.tree.mapAnn noAnn = e.mapAnn noAnn := by
  obtain ⟨s', hshows, hend⟩ := State.shows_ofTokens h file
  -- nothing is in scope of a program
  have hknows : Knows .empty [] 0 := ⟨rfl, by simp⟩
  have hrun := (Exp.readsBack hw).rereads (State.ofTokens file tokens).remaining hnum hknows _ s'
    hshows (Nat.le_refl _) (.of_endOfInput hend)
  obtain ⟨program, hprogram, hsame, -⟩ := ofTokens_of_runs hrun hend
  exact ⟨program, hprogram, hsame⟩

end BranchIR
