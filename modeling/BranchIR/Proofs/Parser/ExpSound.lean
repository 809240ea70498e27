import BranchIR.Proofs.Parser.TySound

/-!
# Expressions that are read follow the grammar

A reader of expressions that succeeds has read what the rules of `Reads` describe. The fuel of
the readers, the tables of the grammar and the two binding powers are gone after this module:
proofs about programs that were read go by induction on `Reads`.
-/

namespace BranchIR

open BranchIR.Parser

variable {s s' : State} {sub : Parser (Exp Span)}

/-! ## Paths -/

/-- What is read as steps is a path. Each computed offset is kept with the states between which it
    was read. -/
private theorem readSteps_sound (hsub : Sound sub Reads) {fuel : Nat}
    {path : List (Step (Exp Span))} (hs : s.Ended) (h : readSteps sub fuel s = .ok path s') :
    ∃ ps : List (Step (Piece (Exp Span))), ps.map (Step.map Piece.item) = path ∧
      ReadsPath s ps s' ∧ (∀ p ∈ ps.filterMap Step.offset?, Reads p.start p.item p.stop) ∧
      s'.Ended := by
  induction fuel generalizing s path with
  | zero =>
    -- without fuel the path ends here, which the rules allow anywhere
    obtain ⟨rfl, rfl⟩ := pure_eq_ok.1 h
    exact ⟨[], rfl, .nil, by simp, hs⟩
  | succ fuel ih =>
    simp only [readSteps, bind_eq_ok, kind_eq_ok] at h
    obtain ⟨_, _, ⟨rfl, rfl⟩, h⟩ := h
    cases hk : s.current.kind with
    | dot =>
      -- `.n`
      simp only [hk, bind_eq_ok, pure_eq_ok] at h
      obtain ⟨_, s₁, hdot, n, s₂, hoffset, rest, _, hrest, rfl, rfl⟩ := h
      obtain ⟨hdot, -, hs₁⟩ := advance_sound hs hk (by decide) hdot
      obtain ⟨hoffset, hs₂⟩ := readOffset_sound hs₁ hoffset
      obtain ⟨ps, rfl, hpath, heach, hs'⟩ := ih hs₂ hrest
      exact ⟨.field n :: ps, rfl, .field hdot hoffset hpath, by simpa using heach, hs'⟩
    | openBracket =>
      -- `[n]`
      simp only [hk, bind_eq_ok, pure_eq_ok] at h
      obtain ⟨_, s₁, hopens, n, s₂, hoffset, _, s₃, hends, rest, _, hrest, rfl, rfl⟩ := h
      obtain ⟨hopens, -, hs₁⟩ := advance_sound hs hk (by decide) hopens
      obtain ⟨hoffset, hs₂⟩ := readOffset_sound hs₁ hoffset
      obtain ⟨hends, -, hs₃⟩ := expect_sound hs₂ (by decide) hends
      obtain ⟨ps, rfl, hpath, heach, hs'⟩ := ih hs₃ hrest
      exact ⟨.element n :: ps, rfl, .element hopens hoffset hends hpath, by simpa using heach, hs'⟩
    | less =>
      -- `<e>`
      simp only [hk, bind_eq_ok, pure_eq_ok] at h
      obtain ⟨_, s₁, hopens, e, s₂, he, _, s₃, hends, rest, _, hrest, rfl, rfl⟩ := h
      obtain ⟨hopens, -, hs₁⟩ := advance_sound hs hk (by decide) hopens
      obtain ⟨he, hs₂⟩ := hsub _ _ _ hs₁ he
      obtain ⟨hends, -, hs₃⟩ := expect_sound hs₂ (by decide) hends
      obtain ⟨ps, rfl, hpath, heach, hs'⟩ := ih hs₃ hrest
      refine ⟨.lane ⟨s₁, e, s₂⟩ :: ps, rfl, ?_, by simpa using And.intro he heach, hs'⟩
      exact ReadsPath.lane (p := ⟨s₁, e, s₂⟩) hopens hends hpath
    | atSign =>
      -- `@e`
      simp only [hk, bind_eq_ok, pure_eq_ok] at h
      obtain ⟨_, s₁, hsign, e, s₂, he, rest, _, hrest, rfl, rfl⟩ := h
      obtain ⟨hsign, -, hs₁⟩ := advance_sound hs hk (by decide) hsign
      obtain ⟨he, hs₂⟩ := hsub _ _ _ hs₁ he
      obtain ⟨ps, rfl, hpath, heach, hs'⟩ := ih hs₂ hrest
      refine ⟨.index ⟨s₁, e, s₂⟩ :: ps, rfl, ?_, by simpa using And.intro he heach, hs'⟩
      exact ReadsPath.index (p := ⟨s₁, e, s₂⟩) hsign hpath
    | _ =>
      -- a token that begins no step
      rw [hk] at h
      obtain ⟨rfl, rfl⟩ := pure_eq_ok.1 h
      exact ⟨[], rfl, .nil, by simp, hs⟩

/-- What is read as a path is one, however many tokens are left. -/
private theorem readPath_sound (hsub : Sound sub Reads) {path : List (Step (Exp Span))}
    (hs : s.Ended) (h : readPath sub s = .ok path s') :
    ∃ ps : List (Step (Piece (Exp Span))), ps.map (Step.map Piece.item) = path ∧
      ReadsPath s ps s' ∧ (∀ p ∈ ps.filterMap Step.offset?, Reads p.start p.item p.stop) ∧
      s'.Ended := by
  simp only [readPath, bind_eq_ok, get_eq_ok] at h
  obtain ⟨_, _, ⟨rfl, rfl⟩, h⟩ := h
  exact readSteps_sound hsub hs h

/-! ## Arms -/

/-- What is read as a pattern is a number or an underscore. -/
private theorem readPattern_sound {pattern : Pattern} (hs : s.Ended)
    (h : readPattern s = .ok pattern s') : ReadsPattern s pattern s' ∧ s'.Ended := by
  simp only [readPattern, bind_eq_ok, kind_eq_ok] at h
  obtain ⟨_, _, ⟨rfl, rfl⟩, h⟩ := h
  cases hk : s.current.kind with
  | underscore =>
    simp only [hk, bind_eq_ok, pure_eq_ok] at h
    obtain ⟨_, _, hmark, rfl, rfl⟩ := h
    obtain ⟨hmark, -, hs'⟩ := advance_sound hs hk (by decide) hmark
    exact ⟨.default hmark, hs'⟩
  | number =>
    simp only [hk, bind_eq_ok] at h
    obtain ⟨t, s₁, hnumber, h⟩ := h
    obtain ⟨htoken, rfl, hs₁⟩ := advance_sound hs hk (by decide) hnumber
    cases hvalue : Text.wideInt? s.current.text with
    | none =>
      rw [hvalue] at h
      exact absurd h throw_ne_ok
    | some value =>
      rw [hvalue] at h
      obtain ⟨rfl, rfl⟩ := pure_eq_ok.1 h
      exact ⟨.literal htoken hvalue, hs₁⟩
  | _ =>
    rw [hk] at h
    exact absurd h unexpected_ne_ok

/-- What is read of an arm: the pattern and the arrow, and the body as a piece. -/
def ArmRead (s : State) (arm : Arm (Exp Span)) (s' : State) : Prop :=
  ∃ a : Piece (Arm (Piece (Exp Span))), a.start = s ∧ a.stop = s' ∧
    a.item.map Piece.item = arm ∧ ReadsArm a ∧
    Reads a.item.body.start a.item.body.item a.item.body.stop

/-- What is read as an arm is a pattern, an arrow and a body. -/
theorem readArm_sound (hsub : Sound sub Reads) : Sound (readArm sub) ArmRead := by
  intro s arm s' hs h
  simp only [readArm, bind_eq_ok, pure_eq_ok] at h
  obtain ⟨pattern, s₁, hpattern, _, s₂, harrow, body, s₃, hbody, rfl, rfl⟩ := h
  obtain ⟨hpattern, hs₁⟩ := readPattern_sound hs hpattern
  obtain ⟨harrow, -, hs₂⟩ := expect_sound hs₁ (by decide) harrow
  obtain ⟨hbody, hs₃⟩ := hsub _ _ _ hs₂ hbody
  refine ⟨⟨⟨s, ⟨pattern, ⟨s₂, body, s₃⟩⟩, s₃⟩, rfl, rfl, rfl, ?_, hbody⟩, hs₃⟩
  exact ⟨s₁, hpattern, harrow, rfl⟩

/-- The bodies of arms in a list as pieces. -/
private theorem listed_arms {close : Kind} {ps : List (Piece (Arm (Exp Span)))}
    (h : Listed close s ps s') (hall : ∀ p ∈ ps, ArmRead p.start p.item p.stop) :
    ∃ arms : List (Piece (Arm (Piece (Exp Span)))),
      (arms.map fun a => a.item.map Piece.item) = ps.map Piece.item ∧ Listed close s arms s' ∧
      (∀ a ∈ arms, ReadsArm a) ∧
      ∀ a ∈ arms, Reads a.item.body.start a.item.body.item a.item.body.stop := by
  -- each arm was read to a piece of its own with the body as a piece inside
  induction h with
  | nil ends => exact ⟨[], rfl, .nil ends, by simp, by simp⟩
  | @last p s' ends =>
    obtain ⟨a, hstart, hstop, hitem, hhead, hbody⟩ := hall p (by simp)
    refine ⟨[a], by simp [hitem], ?_, by simpa using hhead, by simpa using hbody⟩
    rw [← hstart]
    exact .last (hstop ▸ ends)
  | @more p ps s s' comma rest ih =>
    obtain ⟨hp, hps⟩ := List.forall_mem_cons.1 hall
    obtain ⟨a, hstart, hstop, hitem, hhead, hbody⟩ := hp
    obtain ⟨arms, hitems, hlist, hheads, hbodies⟩ := ih hps
    refine ⟨a :: arms, by simp [hitem, hitems], ?_, List.forall_mem_cons.2 ⟨hhead, hheads⟩,
      List.forall_mem_cons.2 ⟨hbody, hbodies⟩⟩
    rw [← hstart]
    exact .more (hstop ▸ comma) hlist

/-! ## Bundles -/

/-- What is read as a parameter is a name, a colon and a type. -/
theorem readParam_sound :
    Sound (readParam Grammar.full.ty) fun s p s' => ReadsParam ⟨s, p, s'⟩ := by
  intro s param s' hs h
  simp only [readParam, readParamName, bind_eq_ok, get_eq_ok, spanFrom_eq_ok, pure_eq_ok,
    bindName_eq_ok] at h
  obtain ⟨name, _, ⟨t, s₁, hname, _, _, ⟨rfl, rfl⟩, h⟩, _, s₂, hcolon, ty, s₃, hty, _, _,
    ⟨rfl, rfl⟩, _, _, ⟨rfl, rfl⟩, rfl, rfl⟩ := h
  obtain ⟨htoken, rfl, hs₁⟩ := expectOr_sound hs (by decide) hname
  split at h
  · exact absurd h refuseToken_ne_ok
  · next hbinds =>
    obtain ⟨rfl, rfl⟩ := pure_eq_ok.1 h
    obtain ⟨hcolon, -, hs₂⟩ := expect_sound hs₁ (by decide) hcolon
    obtain ⟨hty, hs₃⟩ := ty_sound _ _ _ hs₂ hty
    -- reading the name itself has bound nothing yet
    have hnew : s.scopes.bindsHere s.current.text = false := by
      rw [← State.scopes_next s, htoken.next]
      simpa using hbinds
    exact ⟨⟨s₁, s₂, s₃, htoken, hnew, hcolon, hty, rfl, rfl, rfl⟩, hs₃⟩

/-- What is read of a function: all but the body, and the body as a piece. -/
def FuncRead (s : State) (f : Func Span (Exp Span)) (s' : State) : Prop :=
  ∃ func : Func Span (Piece (Exp Span)), func.map id Piece.item = f ∧ ReadsFunc s func s' ∧
    Reads func.body.start func.body.item func.body.stop

/-- What is read after the name of a function is the rest of it. The scope that is opened for the
    parameters is closed behind the body. -/
theorem readFunc_sound (hsub : Sound sub Reads) {s₁ : State} {id : VarId}
    {f : Func Span (Exp Span)} (hname : s.Takes .identifier s₁) (hs₁ : s₁.Ended)
    (h : inScope (readFunc Grammar.full.ty sub id s.position) s₁ = .ok f s') :
    FuncRead s f s' ∧ f.name = id ∧ s'.Ended := by
  simp only [inScope_eq_ok, readFunc, bind_eq_ok, spanFrom_eq_ok, pure_eq_ok] at h
  obtain ⟨_, ⟨_, s₂, hopens, params, s₃, hparams, _, s₄, hcolon, result, s₅, hresult, _, s₆,
    hassign, body, s₇, hbody, _, _, ⟨rfl, rfl⟩, rfl, rfl⟩, rfl⟩ := h
  -- the parameters and the body are read in a scope of their own
  have hpushed : (s₁.withScopes s₁.scopes.push).Ended := hs₁
  obtain ⟨hopens, -, hs₂⟩ := expect_sound hpushed (by decide) hopens
  obtain ⟨ps, rfl, hlist, heach, hs₃⟩ := listTo_sound readParam_sound (by decide) hs₂ hparams
  obtain ⟨hcolon, -, hs₄⟩ := expect_sound hs₃ (by decide) hcolon
  obtain ⟨hresult, hs₅⟩ := ty_sound _ _ _ hs₄ hresult
  obtain ⟨hassign, -, hs₆⟩ := expect_sound hs₅ (by decide) hassign
  obtain ⟨hbody, hs₇⟩ := hsub _ _ _ hs₆ hbody
  refine ⟨⟨⟨s₇.spanFrom s.position, id, ps.map Piece.item, result, ⟨s₆, body, s₇⟩⟩, ?_, ?_, hbody⟩,
    rfl, hs₇⟩
  · simp [Func.map, Param.map]
  · exact .mk hname hopens hlist heach rfl hcolon hresult hassign rfl rfl

/-- What is read as the functions of a bundle are functions, whose names get the identities in
    order. -/
private theorem readFuncs_sound (hsub : Sound sub Reads) {ids : List VarId}
    {fs : List (Func Span (Exp Span))} (hs : s.Ended)
    (h : readFuncs Grammar.full.ty sub ids s = .ok fs s') :
    ∃ funcs : List (Func Span (Piece (Exp Span))), funcs.map (Func.map id Piece.item) = fs ∧
      funcs.map (·.name) <+: ids ∧ ReadsFuncs s funcs s' ∧
      (∀ f ∈ funcs, Reads f.body.start f.body.item f.body.stop) ∧ s'.Ended := by
  -- one identity for each function, in the order in which they were bound
  induction ids generalizing s fs with
  | nil =>
    simp only [readFuncs, bind_eq_ok] at h
    obtain ⟨_, _, -, h⟩ := h
    exact absurd h unexpected_ne_ok
  | cons id ids ih =>
    simp only [readFuncs, bind_eq_ok, kind_eq_ok] at h
    obtain ⟨name, s₁, hname, f, s₂, hfunc, _, _, ⟨rfl, rfl⟩, h⟩ := h
    obtain ⟨htoken, rfl, hs₁⟩ := expectOr_sound hs (by decide) hname
    obtain ⟨⟨func, rfl, hreads, hbody⟩, rfl, hs₂⟩ := readFunc_sound hsub htoken hs₁ hfunc
    -- an `and` brings a further function, and anything else ends the bundle
    split at h
    · next hand =>
      simp only [bind_eq_ok, pure_eq_ok] at h
      obtain ⟨_, s₃, hadvance, rest, _, hrest, rfl, rfl⟩ := h
      obtain ⟨hand, -, hs₃⟩ := advance_sound hs₂ hand (by decide) hadvance
      obtain ⟨funcs, rfl, hnames, hfuncs, heach, hs'⟩ := ih hs₃ hrest
      refine ⟨func :: funcs, rfl, ?_, .more hreads hand hfuncs,
        List.forall_mem_cons.2 ⟨hbody, heach⟩, hs'⟩
      exact (List.prefix_cons_inj _).2 hnames
    · obtain ⟨rfl, rfl⟩ := pure_eq_ok.1 h
      refine ⟨[func], rfl, ?_, .last hreads, by simpa using hbody, hs₂⟩
      exact (List.prefix_cons_inj _).2 (List.nil_prefix ..)

/-- The names of a bundle get the next identities. -/
theorem mapM_bindName (names : List String) (s : State) :
    names.mapM bindName s = .ok (List.range' s.scopes.size names.length)
      (s.withScopes (s.scopes.bindAll names)) := by
  induction names generalizing s with
  | nil => rfl
  | cons name names ih =>
    -- the other names are bound where this one is, from the identity after it
    have hfirst := ih (s.withScopes (s.scopes.bind name).2)
    have hsize : (s.scopes.bind name).2.size = s.scopes.size + 1 := Scopes.size_bind ..
    rw [List.mapM_cons, bind_eq_ok]
    refine ⟨s.scopes.size, _, bindName_eq_ok.2 ⟨rfl, rfl⟩, ?_⟩
    rw [bind_eq_ok]
    refine ⟨_, _, hfirst, ?_⟩
    simp only [State.withScopes, hsize]
    rfl

/-- What is read as a bundle binds the names that stand ahead, one for each function. -/
theorem readRec_sound (hsub : Sound sub Reads) {e : Exp Span} (hs : s.Ended)
    (hk : s.current.kind = .recWord)
    (h : OpeningForm.readRec Grammar.full.ty sub s = .ok e s') : Reads s e s' ∧ s'.Ended := by
  -- what the reader does between `rec` and the end of the form, step by step
  simp only [OpeningForm.readRec, bind_eq_ok, get_eq_ok, inScope_eq_ok, readBundle,
    spanFrom_eq_ok, pure_eq_ok] at h
  obtain ⟨_, _, ⟨rfl, rfl⟩, _, s₁, hword, ⟨fs, body⟩, _, ⟨s₄, h, rfl⟩, _, _, ⟨rfl, rfl⟩, rfl,
    rfl⟩ := h
  obtain ⟨hrec, rfl, hs₁⟩ := advance_sound hs hk (by decide) hword
  have hscopes : s₁.scopes = s.scopes := by rw [← hrec.next, State.scopes_next]
  cases hdistinct : firstRepeated? (s.bundleNames.map (·.text)) with
  | some name =>
    rw [hdistinct] at h
    exact absurd h unexpected_ne_ok
  | none =>
    simp only [hdistinct, bind_eq_ok, mapM_bindName, pure_eq_ok] at h
    obtain ⟨ids, _, heq, fs', s₂, hfs, _, s₃, hin, body', _, hbody, heq', rfl⟩ := h
    obtain ⟨rfl, rfl⟩ := Prod.mk.inj heq'
    obtain ⟨rfl, rfl⟩ := EStateM.Result.ok.inj heq
    -- the functions and the body are read with the names bound, from the same tokens
    have hbound : (s₁.withScopes s.bundleScopes).Ended := hs₁
    simp only [hscopes] at hfs
    obtain ⟨funcs, rfl, hnames, hfuncs, heach, hs₂⟩ := readFuncs_sound hsub hbound hfs
    obtain ⟨hin, -, hs₃⟩ := expect_sound hs₂ (by decide) hin
    obtain ⟨hbody, hs₄⟩ := hsub _ _ _ hs₃ hbody
    refine ⟨.recIn hrec hdistinct ?_ hfuncs heach hin hbody rfl, hs₄⟩
    simpa [BundleNamed] using hnames

/-! ## Forms -/

namespace OpeningForm

/-- What is read as an atom is a literal, a variable that is in scope, or an expression in
    parentheses. -/
private theorem readAtom_sound {e : Exp Span} (hs : s.Ended) (h : readAtom s = .ok e s') :
    Reads s e s' ∧ s'.Ended := by
  simp only [readAtom, bind_eq_ok, kind_eq_ok] at h
  obtain ⟨_, _, ⟨rfl, rfl⟩, h⟩ := h
  -- an atom is one token, whose kind tells which
  cases hk : s.current.kind with
  | intLiteral =>
    simp only [hk, bind_eq_ok] at h
    obtain ⟨t, s₁, htoken, h⟩ := h
    obtain ⟨htakes, rfl, hs₁⟩ := advance_sound hs hk (by decide) htoken
    cases hvalue : literal? s.current.text with
    | none =>
      rw [hvalue] at h
      exact absurd h throw_ne_ok
    | some value =>
      rw [hvalue] at h
      obtain ⟨rfl, rfl⟩ := pure_eq_ok.1 h
      exact ⟨.int htakes hvalue, hs₁⟩
  | identifier =>
    simp only [hk, bind_eq_ok, resolve_eq_ok, pure_eq_ok] at h
    obtain ⟨t, s₁, htoken, id, _, ⟨hfind, rfl⟩, rfl, rfl⟩ := h
    obtain ⟨htakes, rfl, hs₁⟩ := advance_sound hs hk (by decide) htoken
    -- the name is looked up after its token was read, in the same scopes
    rw [← htakes.next, State.scopes_next] at hfind
    exact ⟨.var htakes hfind, hs₁⟩
  | _ =>
    rw [hk] at h
    exact absurd h unexpected_ne_ok

/-- What is read as a let binds its name for its body alone. -/
private theorem readLet_sound (hsub : Sound sub Reads) {e : Exp Span} (hs : s.Ended)
    (hk : s.current.kind = .letWord) (h : readLet Grammar.full.ty sub s = .ok e s') :
    Reads s e s' ∧ s'.Ended := by
  simp only [readLet, bind_eq_ok, inScope_eq_ok, bindName_eq_ok, spanFrom_eq_ok, pure_eq_ok] at h
  obtain ⟨_, s₁, hword, name, s₂, hname, _, s₃, hcolon, ty, s₄, hty, _, s₅, hassign, value, s₆,
    hvalue, _, s₇, hin, _, _, ⟨s₈, ⟨_, _, ⟨rfl, rfl⟩, body, _, hbody, rfl, rfl⟩, rfl⟩, _, _,
    ⟨rfl, rfl⟩, rfl, rfl⟩ := h
  obtain ⟨hlet, rfl, hs₁⟩ := advance_sound hs hk (by decide) hword
  obtain ⟨hident, rfl, hs₂⟩ := expectOr_sound hs₁ (by decide) hname
  obtain ⟨hcolon, -, hs₃⟩ := expect_sound hs₂ (by decide) hcolon
  obtain ⟨hty, hs₄⟩ := ty_sound _ _ _ hs₃ hty
  obtain ⟨hassign, -, hs₅⟩ := expect_sound hs₄ (by decide) hassign
  obtain ⟨hvalue, hs₆⟩ := hsub _ _ _ hs₅ hvalue
  obtain ⟨hin, -, hs₇⟩ := expect_sound hs₆ (by decide) hin
  -- the body is read where the name is bound in a scope of its own
  have hbound : (s₇.withScopes (s₇.scopes.push.bind s₁.current.text).2).Ended := hs₇
  obtain ⟨hbody, hs₈⟩ := hsub _ _ _ hbound hbody
  exact ⟨.letIn hlet hident hcolon hty hassign hvalue hin hbody rfl, hs₈⟩

/-- What is read as a case is a scrutinee and arms in braces. -/
private theorem readCase_sound (hsub : Sound sub Reads) {e : Exp Span} (hs : s.Ended)
    (hk : s.current.kind = .caseWord) (h : readCase sub s = .ok e s') :
    Reads s e s' ∧ s'.Ended := by
  simp only [readCase, bind_eq_ok, spanFrom_eq_ok, pure_eq_ok] at h
  obtain ⟨_, s₁, hword, scrutinee, s₂, hscrutinee, _, s₃, hopens, arms, s₄, harms, _, _,
    ⟨rfl, rfl⟩, rfl, rfl⟩ := h
  obtain ⟨hcase, rfl, hs₁⟩ := advance_sound hs hk (by decide) hword
  obtain ⟨hscrutinee, hs₂⟩ := hsub _ _ _ hs₁ hscrutinee
  obtain ⟨hopens, -, hs₃⟩ := expect_sound hs₂ (by decide) hopens
  obtain ⟨ps, rfl, hlist, heach, hs₄⟩ := listTo_sound (readArm_sound hsub) (by decide) hs₃ harms
  obtain ⟨as, hitems, hlist, hheads, hbodies⟩ := listed_arms hlist heach
  rw [← hitems]
  exact ⟨.caseOf hcase hscrutinee hopens hlist hheads hbodies, hs₄⟩

/-- What is read as a base and a path are both, in parentheses. -/
private theorem readBased_sound (hsub : Sound sub Reads) {base : Exp Span}
    {path : List (Step (Exp Span))} (hs : s.Ended) (h : readBased sub s = .ok (base, path) s') :
    ∃ s₁ s₂ s₃ ps, s.Takes .openParen s₁ ∧ Reads s₁ base s₂ ∧
      ps.map (Step.map Piece.item) = path ∧ ReadsPath s₂ ps s₃ ∧
      (∀ p ∈ ps.filterMap Step.offset?, Reads p.start p.item p.stop) ∧
      s₃.Takes .closeParen s' ∧ s'.Ended := by
  simp only [readBased, bind_eq_ok, pure_eq_ok, Prod.mk.injEq] at h
  obtain ⟨_, s₁, hopens, _, s₂, hbase, _, s₃, hpath, _, s₄, hends, ⟨rfl, rfl⟩, rfl⟩ := h
  obtain ⟨hopens, -, hs₁⟩ := expect_sound hs (by decide) hopens
  obtain ⟨hbase, hs₂⟩ := hsub _ _ _ hs₁ hbase
  obtain ⟨ps, hitems, hpath, heach, hs₃⟩ := readPath_sound hsub hs₂ hpath
  obtain ⟨hends, -, hs₄⟩ := expect_sound hs₃ (by decide) hends
  exact ⟨s₁, s₂, s₃, ps, hopens, hbase, hitems, hpath, heach, hends, hs₄⟩

/-- What is read as a store is a destination, a value and a body. -/
private theorem readStore_sound (hsub : Sound sub Reads) {e : Exp Span} (hs : s.Ended)
    (hk : s.current.kind = .storeWord) (h : readStore sub s = .ok e s') :
    Reads s e s' ∧ s'.Ended := by
  simp only [readStore, bind_eq_ok, spanFrom_eq_ok, pure_eq_ok] at h
  obtain ⟨_, s₁, hword, dest, s₂, hdest, path, s₃, hpath, _, s₄, hassign, value, s₅, hvalue, _, s₆,
    hin, body, s₇, hbody, _, _, ⟨rfl, rfl⟩, rfl, rfl⟩ := h
  obtain ⟨hstore, rfl, hs₁⟩ := advance_sound hs hk (by decide) hword
  obtain ⟨hdest, hs₂⟩ := hsub _ _ _ hs₁ hdest
  obtain ⟨ps, rfl, hpath, heach, hs₃⟩ := readPath_sound hsub hs₂ hpath
  obtain ⟨hassign, -, hs₄⟩ := expect_sound hs₃ (by decide) hassign
  obtain ⟨hvalue, hs₅⟩ := hsub _ _ _ hs₄ hvalue
  obtain ⟨hin, -, hs₆⟩ := expect_sound hs₅ (by decide) hin
  obtain ⟨hbody, hs₇⟩ := hsub _ _ _ hs₆ hbody
  exact ⟨.store hstore hdest hpath heach hassign hvalue hin hbody, hs₇⟩

/-- What is read as an update is a base and a value. -/
private theorem readUpdate_sound (hsub : Sound sub Reads) {e : Exp Span} (hs : s.Ended)
    (hk : s.current.kind = .updateWord) (h : readUpdate sub s = .ok e s') :
    Reads s e s' ∧ s'.Ended := by
  simp only [readUpdate, bind_eq_ok, spanFrom_eq_ok, pure_eq_ok] at h
  obtain ⟨_, s₁, hword, _, s₂, hopens, base, s₃, hbase, path, s₄, hpath, _, s₅, hcomma, value, s₆,
    hvalue, _, s₇, hends, _, _, ⟨rfl, rfl⟩, rfl, rfl⟩ := h
  obtain ⟨hupdate, rfl, hs₁⟩ := advance_sound hs hk (by decide) hword
  obtain ⟨hopens, -, hs₂⟩ := expect_sound hs₁ (by decide) hopens
  obtain ⟨hbase, hs₃⟩ := hsub _ _ _ hs₂ hbase
  obtain ⟨ps, rfl, hpath, heach, hs₄⟩ := readPath_sound hsub hs₃ hpath
  obtain ⟨hcomma, -, hs₅⟩ := expect_sound hs₄ (by decide) hcomma
  obtain ⟨hvalue, hs₆⟩ := hsub _ _ _ hs₅ hvalue
  obtain ⟨hends, -, hs₇⟩ := expect_sound hs₆ (by decide) hends
  exact ⟨.update hupdate hopens hbase hpath heach hcomma hvalue hends, hs₇⟩

/-- The kinds of the tokens that begin expressions of the form. -/
def kinds : OpeningForm → List Kind
  | .atom => [.intLiteral, .identifier]
  | .group => [.openParen]
  | .tuple => [.openCurly]
  | .vector => [.less]
  | .prim => [.primWord]
  | .letIn => [.letWord]
  | .recIn => [.recWord]
  | .caseOf => [.caseWord]
  | .gep => [.gepWord]
  | .load => [.loadWord]
  | .store => [.storeWord]
  | .update => [.updateWord]

/-- The table of opening forms gives each kind one of the forms that it opens. -/
theorem mem_kinds_of_lookup {k : Kind} {form : OpeningForm}
    (h : Grammar.full.opening.lookup k = some form) : k ∈ form.kinds := by
  obtain ⟨_, _, hlist, -⟩ := List.lookup_eq_some_iff.1 h
  have hmem : (k, form) ∈ Grammar.full.opening := by simp [hlist]
  cases form <;> simpa [Grammar.full, kinds] using hmem

/-- Every opening form reads an expression, if it is chosen by the kind of the next token. -/
private theorem read_sound (hsub : Sound sub Reads) {form : OpeningForm} {e : Exp Span}
    (hs : s.Ended)
    (hk : s.current.kind ∈ form.kinds) (h : form.read Grammar.full.ty sub s = .ok e s') :
    Reads s e s' ∧ s'.Ended := by
  cases form with
  | atom => exact readAtom_sound hs h
  | group =>
    -- `(e)`
    simp only [read, bind_eq_ok, pure_eq_ok] at h
    obtain ⟨_, s₁, hopens, inner, s₂, hinner, _, s₃, hends, rfl, rfl⟩ := h
    obtain ⟨hopens, -, hs₁⟩ := advance_sound hs (List.mem_singleton.1 hk) (by decide) hopens
    obtain ⟨hinner, hs₂⟩ := hsub _ _ _ hs₁ hinner
    obtain ⟨hends, -, hs₃⟩ := expect_sound hs₂ (by decide) hends
    exact ⟨.group hopens hinner hends, hs₃⟩
  | tuple =>
    -- `{e, ...}`
    simp only [read, bind_eq_ok, spanFrom_eq_ok, pure_eq_ok] at h
    obtain ⟨_, s₁, hword, elems, s₂, helems, _, _, ⟨rfl, rfl⟩, rfl, rfl⟩ := h
    obtain ⟨hopens, rfl, hs₁⟩ := advance_sound hs (List.mem_singleton.1 hk) (by decide) hword
    obtain ⟨ps, rfl, hlist, heach, hs₂⟩ := listTo_sound hsub (by decide) hs₁ helems
    exact ⟨.tuple hopens hlist heach, hs₂⟩
  | vector =>
    -- `<e, ...>`
    simp only [read, bind_eq_ok, spanFrom_eq_ok, pure_eq_ok] at h
    obtain ⟨_, s₁, hword, elems, s₂, helems, _, _, ⟨rfl, rfl⟩, rfl, rfl⟩ := h
    obtain ⟨hopens, rfl, hs₁⟩ := advance_sound hs (List.mem_singleton.1 hk) (by decide) hword
    obtain ⟨ps, rfl, hlist, heach, hs₂⟩ := listTo_sound hsub (by decide) hs₁ helems
    exact ⟨.vector hopens hlist heach, hs₂⟩
  | prim =>
    -- `op(e, ...)`
    simp only [read, bind_eq_ok, spanFrom_eq_ok, pure_eq_ok] at h
    obtain ⟨_, s₁, hword, _, s₂, hopens, args, s₃, hargs, _, _, ⟨rfl, rfl⟩, rfl, rfl⟩ := h
    obtain ⟨hprim, rfl, hs₁⟩ := advance_sound hs (List.mem_singleton.1 hk) (by decide) hword
    obtain ⟨hopens, -, hs₂⟩ := expect_sound hs₁ (by decide) hopens
    obtain ⟨ps, rfl, hlist, heach, hs₃⟩ := listTo_sound hsub (by decide) hs₂ hargs
    exact ⟨.prim hprim hopens hlist heach, hs₃⟩
  | letIn => exact readLet_sound hsub hs (List.mem_singleton.1 hk) h
  | recIn => exact readRec_sound hsub hs (List.mem_singleton.1 hk) h
  | caseOf => exact readCase_sound hsub hs (List.mem_singleton.1 hk) h
  | gep =>
    -- `gep(e path)`
    simp only [read, bind_eq_ok, spanFrom_eq_ok, pure_eq_ok] at h
    obtain ⟨_, s₁, hword, ⟨base, path⟩, s₂, hbased, _, _, ⟨rfl, rfl⟩, rfl, rfl⟩ := h
    obtain ⟨hgep, rfl, hs₁⟩ := advance_sound hs (List.mem_singleton.1 hk) (by decide) hword
    obtain ⟨_, _, _, ps, hopens, hbase, rfl, hpath, heach, hends, hs'⟩ :=
      readBased_sound hsub hs₁ hbased
    exact ⟨.gep hgep hopens hbase hpath heach hends, hs'⟩
  | load =>
    -- `load(e path)`
    simp only [read, bind_eq_ok, spanFrom_eq_ok, pure_eq_ok] at h
    obtain ⟨_, s₁, hword, ⟨base, path⟩, s₂, hbased, _, _, ⟨rfl, rfl⟩, rfl, rfl⟩ := h
    obtain ⟨hload, rfl, hs₁⟩ := advance_sound hs (List.mem_singleton.1 hk) (by decide) hword
    obtain ⟨_, _, _, ps, hopens, hbase, rfl, hpath, heach, hends, hs'⟩ :=
      readBased_sound hsub hs₁ hbased
    exact ⟨.load hload hopens hbase hpath heach hends, hs'⟩
  | store => exact readStore_sound hsub hs (List.mem_singleton.1 hk) h
  | update => exact readUpdate_sound hsub hs (List.mem_singleton.1 hk) h

end OpeningForm

namespace TrailingForm

/-- The kind of the tokens that begin trailing forms. -/
def kind : TrailingForm → Kind
  | .ascription => .colon
  | .coercion => .asWord
  | .call => .openParen

/-- The table of trailing forms gives each kind the form that it begins. -/
theorem kind_of_lookup {k : Kind} {form : TrailingForm}
    (h : Grammar.full.trailing.lookup k = some form) : k = form.kind := by
  obtain ⟨_, _, hlist, -⟩ := List.lookup_eq_some_iff.1 h
  have hmem : (k, form) ∈ Grammar.full.trailing := by simp [hlist]
  cases form <;> simpa [Grammar.full, kind] using hmem

/-- Every trailing form reads an expression around what stands left of it. -/
private theorem read_sound (hsub : Sound sub Reads) {form : TrailingForm} {s₀ : State}
    {left e : Exp Span} (hleft : Reads s₀ left s) (hs : s.Ended)
    (hk : s.current.kind = form.kind) (h : form.read Grammar.full.ty sub left s = .ok e s') :
    Reads s₀ e s' ∧ s'.Ended := by
  cases form with
  | ascription =>
    -- `left: T`
    simp only [read, bind_eq_ok, spanFrom_eq_ok, pure_eq_ok] at h
    obtain ⟨_, s₁, hcolon, ty, s₂, hty, _, _, ⟨rfl, rfl⟩, rfl, rfl⟩ := h
    obtain ⟨hcolon, -, hs₁⟩ := advance_sound hs hk (by decide) hcolon
    obtain ⟨hty, hs₂⟩ := ty_sound _ _ _ hs₁ hty
    exact ⟨.ascribe hleft hcolon hty, hs₂⟩
  | coercion =>
    -- `left as T`
    simp only [read, bind_eq_ok, spanFrom_eq_ok, pure_eq_ok] at h
    obtain ⟨_, s₁, hword, ty, s₂, hty, _, _, ⟨rfl, rfl⟩, rfl, rfl⟩ := h
    obtain ⟨hword, -, hs₁⟩ := advance_sound hs hk (by decide) hword
    obtain ⟨hty, hs₂⟩ := ty_sound _ _ _ hs₁ hty
    exact ⟨.coerce hleft hword hty, hs₂⟩
  | call =>
    -- `left(e, ...)`
    simp only [read, bind_eq_ok, spanFrom_eq_ok, pure_eq_ok] at h
    obtain ⟨_, s₁, hopens, args, s₂, hargs, _, _, ⟨rfl, rfl⟩, rfl, rfl⟩ := h
    obtain ⟨hopens, -, hs₁⟩ := advance_sound hs hk (by decide) hopens
    obtain ⟨ps, rfl, hlist, heach, hs₂⟩ := listTo_sound hsub (by decide) hs₁ hargs
    exact ⟨.call hleft hopens hlist heach, hs₂⟩

end TrailingForm

/-! ## Expressions -/

/-- What is read as a head is an expression. -/
private theorem head_sound (hsub : Sound sub Reads) : Sound (Grammar.full.head sub) Reads := by
  intro s e s' hs h
  simp only [Grammar.head, bind_eq_ok, kind_eq_ok] at h
  obtain ⟨_, _, ⟨rfl, rfl⟩, h⟩ := h
  cases hform : Grammar.full.opening.lookup s.current.kind with
  | none =>
    rw [hform] at h
    exact absurd h unexpected_ne_ok
  | some form =>
    rw [hform] at h
    exact OpeningForm.read_sound hsub hs (OpeningForm.mem_kinds_of_lookup hform) h

/-- Trailing forms read one after the other give an expression: what has been read is left of the
    next. -/
private theorem trail_sound (hsub : Sound sub Reads) {fuel : Nat} {s₀ : State} {left e : Exp Span}
    (hleft : Reads s₀ left s) (hs : s.Ended)
    (h : Grammar.full.trail sub fuel left s = .ok e s') : Reads s₀ e s' ∧ s'.Ended := by
  induction fuel generalizing s left with
  | zero =>
    obtain ⟨rfl, rfl⟩ := pure_eq_ok.1 h
    exact ⟨hleft, hs⟩
  | succ fuel ih =>
    simp only [Grammar.trail, bind_eq_ok, kind_eq_ok] at h
    obtain ⟨_, _, ⟨rfl, rfl⟩, h⟩ := h
    cases hform : Grammar.full.trailing.lookup s.current.kind with
    | none =>
      rw [hform] at h
      obtain ⟨rfl, rfl⟩ := pure_eq_ok.1 h
      exact ⟨hleft, hs⟩
    | some form =>
      simp only [hform, bind_eq_ok] at h
      obtain ⟨next, s₁, hnext, h⟩ := h
      -- what was read with the trailing form is the left side of what follows
      obtain ⟨hnext, hs₁⟩ :=
        TrailingForm.read_sound hsub hleft hs (TrailingForm.kind_of_lookup hform) hnext
      exact ih hnext hs₁ h

/-- What is read as an expression is an expression of the grammar. -/
theorem exprAt_sound (fuel : Nat) (bp : BindingPower) :
    Sound (Grammar.full.exprAt fuel bp) Reads := by
  -- the parts of an expression are read with less fuel, at the loose binding power
  induction fuel generalizing bp with
  | zero =>
    intro s e s' hs h
    exact absurd h unexpected_ne_ok
  | succ fuel ih =>
    intro s e s' hs h
    cases bp with
    | trailing => exact head_sound (ih .loose) s e s' hs h
    | loose =>
      simp only [Grammar.exprAt, bind_eq_ok, get_eq_ok] at h
      obtain ⟨first, s₁, hfirst, _, _, ⟨rfl, rfl⟩, h⟩ := h
      obtain ⟨hfirst, hs₁⟩ := head_sound (ih .loose) _ _ _ hs hfirst
      exact trail_sound (ih .loose) hfirst hs₁ h

/-- What is read as an expression is one. -/
theorem expr_sound (bp : BindingPower) : Sound (Grammar.full.expr bp) Reads := by
  intro s e s' hs h
  simp only [Grammar.expr, bind_eq_ok, get_eq_ok] at h
  obtain ⟨_, _, ⟨rfl, rfl⟩, h⟩ := h
  exact exprAt_sound _ bp s e s' hs h

/-! ## Programs -/

/-- At the start the end of the input is still ahead, added if the tokens lack it. -/
theorem State.ofTokens_ended (file : String) (tokens : List Token) :
    (State.ofTokens file tokens).Ended := by
  -- the tokens are closed with the end of the input unless they end with it
  have hclosing (last : Token) (ts : List Token) :
      ∃ t, (last :: State.closing last ts).getLast? = some t ∧ t.kind = .endOfInput := by
    induction ts generalizing last with
    | nil =>
      rw [State.closing]
      split
      · next hend => exact ⟨last, rfl, hend⟩
      · exact ⟨_, rfl, rfl⟩
    | cons t ts ih =>
      rw [State.closing, List.getLast?_cons_cons]
      exact ih t
  cases tokens with
  | nil => exact ⟨_, rfl, rfl⟩
  | cons t ts => exact hclosing t ts

/-- What is read as a program is an expression of the grammar, up to the end of the input. -/
theorem ofTokens_sound {file : String} {tokens : List Token} {program : Program}
    (h : Program.ofTokens file tokens = .ok program) :
    ∃ s', Reads (State.ofTokens file tokens) program.tree s' ∧
      s'.current.kind = .endOfInput ∧ program.scopes = s'.scopes := by
  unfold Program.ofTokens at h
  cases hrun : Grammar.full.program (State.ofTokens file tokens) with
  | error e s' =>
    rw [hrun] at h
    cases h
  | ok e s' =>
    rw [hrun] at h
    cases h
    simp only [Grammar.program, bind_eq_ok, kind_eq_ok] at hrun
    obtain ⟨_, _, he, _, _, ⟨rfl, rfl⟩, hrun⟩ := hrun
    split at hrun
    · next hend =>
      obtain ⟨rfl, rfl⟩ := pure_eq_ok.1 hrun
      have hs := State.ofTokens_ended file tokens
      exact ⟨_, (expr_sound _ _ _ _ hs he).1, hend, rfl⟩
    · exact absurd hrun unexpected_ne_ok

end BranchIR
