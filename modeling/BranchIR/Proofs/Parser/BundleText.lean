import BranchIR.Proofs.Parser.Announced
import BranchIR.Proofs.Parser.ExpSound
import BranchIR.Proofs.Parser.Known
import BranchIR.Proofs.Parser.PartsText

/-!
# Reading the phrase of a bundle

The look-ahead finds the names of the functions, and all of them are bound before the first body
is read. The parameters of a function and its body are then read in a scope of their own. What
the reader of expressions gives for the bodies is put together to what the reader of bundles
gives.
-/

namespace BranchIR

open BranchIR.Parser

variable {sub : Parser (Exp Span)} {bound : Nat} {σ : Scopes} {s s₁ s' : State}

/-! ## Parameters -/

/-- A parameter is read that gets the next identity. -/
private theorem readParam_run {p : Parameter} (htype : TyPhrase p.ty p.type)
    (hfresh : σ.bindsHere p.name = false) (hshows : s.Shows p.phrase s')
    {post : Param Span → Scopes → Prop}
    (hpost : ∀ a, post ⟨a, σ.size, p.ty⟩ (σ.bind p.name).2) :
    Runs (readParam Grammar.full.ty) s σ s' post := by
  obtain ⟨s₁, hname, htext, s₂, hcolon, -, hty⟩ := hshows
  have hname' : s.current.text = p.name := htext
  -- the name is not refused, since no parameter before it has it
  have hread {post : Token → Scopes → Prop} (h : post s.current σ) :
      Runs readParamName s σ s₁ post := by
    refine Runs.bind (.expectOr hname (.bind (.get ?_)) _)
    have hnot : (s₁.withScopes σ).scopes.bindsHere s.current.text = false := by
      rw [hname']
      exact hfresh
    rw [hnot]
    exact .pure h
  refine Runs.bind (hread (.bind (.expect hcolon (.bind (htype.ty_run hty ?_)))))
  refine Runs.bind (.spanFrom (.bind (.bindName (.pure ?_))))
  rw [hname']
  exact hpost _

/-- Parameters are read one after the other, each with the next identity. -/
private theorem params_yield {ps : List Parameter} (htypes : ∀ p ∈ ps, TyPhrase p.ty p.type)
    (hdistinct : (ps.map (·.name)).Nodup) (hfresh : ∀ p ∈ ps, σ.bindsHere p.name = false)
    (bound : Nat) :
    YieldsAll (readParam Grammar.full.ty) bound (ps.map (·.phrase)) σ fun ps' σ' =>
      ps'.map (·.name) = List.range' σ.size ps.length ∧ ps'.map (·.ty) = ps.map (·.ty) ∧
        σ' = σ.bindAll (ps.map (·.name)) := by
  induction ps generalizing σ with
  | nil => exact ⟨rfl, rfl, rfl⟩
  | cons p ps ih =>
    obtain ⟨hp, hps⟩ := List.forall_mem_cons.1 htypes
    obtain ⟨hnew, hlater⟩ := List.forall_mem_cons.1 hfresh
    obtain ⟨hnot, hrest⟩ := List.nodup_cons.1 hdistinct
    intro s s' hshows _ _
    refine readParam_run hp hnew hshows fun a => ?_
    -- the name that is bound now is that of no later parameter
    have hothers : ∀ q ∈ ps, (σ.bind p.name).2.bindsHere q.name = false := by
      intro q hq
      have hne : q.name ≠ p.name := fun heq => hnot (List.mem_map.2 ⟨q, hq, heq⟩)
      rw [Scopes.bindsHere_bind, beq_false_of_ne hne, Bool.false_or]
      exact hlater q hq
    refine (ih hps hrest hothers).mono fun ps' σ' ⟨hnames, htys, hσ'⟩ => ⟨?_, ?_, hσ'⟩
    · rw [Scopes.size_bind] at hnames
      rw [List.map_cons, hnames, List.length_cons, List.range'_succ]
    · rw [List.map_cons, htys, List.map_cons]

/-! ## Functions -/

/-- The function has the head that was written, with identities from the scopes. -/
structure Member.Heads (m : Member) (id : VarId) (σ : Scopes) (f : Func Span (Exp Span)) :
    Prop where
  name : f.name = id
  names : f.params.map (·.name) = List.range' σ.size m.params.length
  types : f.params.map (·.ty) = m.params.map (·.ty)
  result : f.result = m.result

/-- A function is read from its parameters on, in a scope of its own. -/
theorem readFunc_run {m : Member} (hhead : m.HeadOk) {id : VarId} {start : Position}
    {post : Func Span (Exp Span) → Scopes → Prop}
    (h : Yields sub bound m.body (σ.push.bindAll m.paramNames) fun body σ' =>
      ∀ f, m.Heads id σ f → f.body = body → post f σ'.pop)
    (hshows : s.Shows (Kind.openParen.lexeme :: (m.list ++ Kind.closeParen.lexeme ::
      Kind.colon.lexeme :: (m.type ++ Kind.assignment.lexeme :: m.body))) s')
    (hbound : s.remaining ≤ bound) (hstops : s'.Stops) :
    Runs (inScope (readFunc Grammar.full.ty sub id start)) s σ s' post := by
  -- the places between the parts of the head, and how many tokens remain at them
  obtain ⟨s₁, hopens, -, hlist⟩ := hshows
  obtain ⟨s₂, hps, s₃, hends, -, s₄, hcolon, -, hrest⟩ := State.shows_append.1 hlist
  obtain ⟨s₅, hresult, s₆, hassignment, -, hbody⟩ := State.shows_append.1 hrest
  have hcount := hopens.remaining
  have hcount₂ := hps.remaining
  have hcount₃ := hends.remaining
  have hcount₄ := hcolon.remaining
  have hcount₅ := hresult.remaining
  have hcount₆ := hassignment.remaining
  have hless : s₆.remaining ≤ bound := by omega
  -- nothing is bound yet in the scope that was opened for the parameters
  have hyield := @params_yield σ.push m.params hhead.types hhead.distinct (fun _ _ => rfl) bound
  have hheads : ∀ ws ∈ m.params.map (·.phrase), ∃ w us, ws = w :: us ∧ w.kind ≠ .closeParen := by
    rw [List.forall_mem_map]
    exact fun p _ => ⟨_, _, rfl, by simp [Lexeme.name]⟩
  have hparams := listTo_run (by decide) rfl hhead.list hheads hyield hps hends (by omega)
  refine Runs.inScope (.bind (.expect hopens (.bind (hparams.mono ?_))))
  rintro ps _ ⟨hnames, htypes, rfl⟩
  refine Runs.bind (.expect hcolon (.bind (hhead.result.ty_run hresult ?_)))
  -- the body is read where the parameters are bound
  refine Runs.bind (.expect hassignment (.bind ((h s₆ s' hbody hless hstops).mono ?_)))
  intro body σ' hpost
  exact .bind (.spanFrom (.pure (hpost _ ⟨rfl, hnames, htypes, rfl⟩ rfl)))

/-- On places that show the bodies of functions the reader gives results one after the other,
    each in the scope of its function, with the property of the list of functions. -/
def YieldsFuncs (p : Parser (Exp Span)) (bound : Nat) : List VarId → List Member → Scopes →
    (List (Func Span (Exp Span)) → Scopes → Prop) → Prop
  | id :: ids, m :: ms, σ, post =>
    Yields p bound m.body (σ.push.bindAll m.paramNames) fun body σ₁ =>
      ∀ f, m.Heads id σ f → f.body = body →
        YieldsFuncs p bound ids ms σ₁.pop fun fs σ' => post (f :: fs) σ'
  | [], [], σ, post => post [] σ
  | _, _, _, _ => False

/-- What is known of the functions that are read may be weakened. -/
theorem YieldsFuncs.mono {p : Parser (Exp Span)} {ids : List VarId} {ms : List Member}
    {post post' : List (Func Span (Exp Span)) → Scopes → Prop}
    (h : YieldsFuncs p bound ids ms σ post) (himp : ∀ fs σ', post fs σ' → post' fs σ') :
    YieldsFuncs p bound ids ms σ post' := by
  induction ms generalizing ids σ post post' with
  | nil =>
    cases ids with
    | nil => exact himp _ _ h
    | cons => exact h
  | cons m ms ih =>
    cases ids with
    | nil => exact h
    | cons id ids =>
      refine Yields.mono h fun body σ₁ hrest f hf hbody => ?_
      exact ih (hrest f hf hbody) fun fs σ' => himp (f :: fs) σ'

/-- The functions of a bundle are read one after the other. -/
theorem readFuncs_run {ids : List VarId} {ms : List Member} (hne : ms ≠ [])
    (hheads : ∀ m ∈ ms, m.HeadOk) {post : List (Func Span (Exp Span)) → Scopes → Prop}
    (h : YieldsFuncs sub bound ids ms σ post)
    (hshows : s.Shows (separated Kind.andWord.lexeme (ms.map Member.phrase)) s')
    (hin : s'.Takes .inWord s₁) (hbound : s.remaining ≤ bound) :
    Runs (readFuncs Grammar.full.ty sub ids) s σ s' post := by
  induction ms generalizing s σ ids post with
  | nil => exact absurd rfl hne
  | cons m ms ih =>
    cases ids with
    | nil => exact absurd h (by simp [YieldsFuncs])
    | cons id ids =>
      obtain ⟨hm, hms⟩ := List.forall_mem_cons.1 hheads
      -- after a function stands the `in` of the bundle or an `and`
      cases ms with
      | nil =>
        obtain ⟨s₂, hname, -, hrest⟩ := hshows
        have hcount := hname.remaining
        refine Runs.bind (.expectOr hname (.bind
          (readFunc_run hm (Yields.mono h ?_) hrest (by omega) (hin.stops rfl))) _)
        intro body σ' hpost f hf hbody
        refine Runs.bind (.kind ?_)
        rw [hin.kind]
        -- there are as many identities as functions
        have hdone := hpost f hf hbody
        cases ids with
        | nil => exact .pure hdone
        | cons => exact hdone.elim
      | cons m' ms =>
        obtain ⟨s₃, hfunc, s₄, hand, -, hothers⟩ := State.shows_append.1 hshows
        obtain ⟨s₂, hname, -, hrest⟩ := hfunc
        have hcount := hname.remaining
        have hcount₂ := hrest.remaining
        have hcount₃ := hand.remaining
        refine Runs.bind (.expectOr hname (.bind
          (readFunc_run hm (Yields.mono h ?_) hrest (by omega) (hand.stops rfl))) _)
        intro body σ₁ hfuncs f hf hbody
        -- the rest of the bundle is shorter, so the bound holds for it as well
        have hruns := ih (by simp) hms (hfuncs f hf hbody) hothers (by omega)
        refine Runs.bind (.kind ?_)
        rw [hand.kind]
        refine Runs.bind (.advance hand (.bind (hruns.mono ?_)))
        exact fun fs σ' hpost => .pure hpost

/-! ## Bundles -/

section Bundles

variable {ms : List Member} {v : List Lexeme} (hne : ms ≠ []) (hheads : ∀ m ∈ ms, m.HeadOk)
  (hdistinct : (ms.map Member.name).Nodup)

include hne hheads hdistinct

/-- A bundle is read from its first function on, when all names are known. -/
private theorem readBundle_run {post : List (Func Span (Exp Span)) × Exp Span → Scopes → Prop}
    (h : YieldsFuncs sub bound (List.range' σ.size ms.length) ms (σ.bindAll (ms.map Member.name))
      fun fs σ₁ => Yields sub bound v σ₁ fun body σ' => post (fs, body) σ')
    (hlist : s.Shows (separated Kind.andWord.lexeme (ms.map Member.phrase)) s₁) {s₂ : State}
    (hin : s₁.Takes .inWord s₂) (hrest : s₂.Shows v s') (hbound : s.remaining ≤ bound)
    (hstops : s'.Stops) :
    Runs (readBundle Grammar.full.ty sub (ms.map Member.name)) s σ s' post := by
  have hcount := hlist.remaining
  have hcount₂ := hin.remaining
  have hless : s₂.remaining ≤ bound := by omega
  rw [readBundle, firstRepeated?_eq_none.2 hdistinct]
  -- binding the names hands out the next identities in order
  have hbind : Runs ((ms.map Member.name).mapM bindName) s σ s fun ids σ₁ =>
      ids = List.range' σ.size ms.length ∧ σ₁ = σ.bindAll (ms.map Member.name) :=
    ⟨_, _, mapM_bindName _ _, by rw [List.length_map]; rfl, rfl⟩
  refine Runs.bind (hbind.mono ?_)
  rintro _ _ ⟨rfl, rfl⟩
  refine Runs.bind ((readFuncs_run hne hheads h hlist hin hbound).mono ?_)
  intro fs σ₁ hbody
  refine Runs.bind (.expect hin (.bind ((hbody s₂ s' hrest hless hstops).mono ?_)))
  exact fun body σ' hpost => .pure hpost

/-- A bundle is read from its `rec` on. -/
theorem readRec_run (heven : ∀ m ∈ ms, Even m.body) {post : Exp Span → Scopes → Prop}
    (h : YieldsFuncs sub bound (List.range' σ.size ms.length) ms
      (σ.push.bindAll (ms.map Member.name)) fun fs σ₁ =>
        Yields sub bound v σ₁ fun body σ' => ∀ a, post (.recIn a fs body) σ'.pop)
    (hrec : s.Takes .recWord s₁)
    (hshows : s₁.Shows (separated Kind.andWord.lexeme (ms.map Member.phrase) ++
      Kind.inWord.lexeme :: v) s') (hbound : s₁.remaining ≤ bound) (hstops : s'.Stops) :
    Runs (OpeningForm.readRec Grammar.full.ty sub) s σ s' post := by
  obtain ⟨s₂, hlist, s₃, hin, -, hrest⟩ := State.shows_append.1 hshows
  -- the names that the look-ahead finds are those of the functions
  have hfound := bundleNames_run hrec hlist hne (fun m hm => (hheads m hm).even (heven m hm)) hin
  have hnames : (s.withScopes σ).bundleNames.map (·.text) = ms.map Member.name := hfound
  refine Runs.bind (.get (.bind (.advance hrec ?_)))
  rw [hnames]
  have hbundle : Runs (readBundle Grammar.full.ty sub (ms.map Member.name)) s₁ σ.push s'
      fun r σ' => ∀ a, post (.recIn a r.1 r.2) σ'.pop :=
    readBundle_run hne hheads hdistinct h hlist hin hrest hbound hstops
  refine Runs.bind (.inScope (hbundle.mono ?_))
  exact fun r σ' hpost => .bind (.spanFrom (.pure (hpost _)))

end Bundles

end BranchIR
