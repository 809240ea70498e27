import BranchIR.Proofs.Parser.Origins
import BranchIR.Proofs.Phrase.Words
import BranchIR.Proofs.Token.Places

/-!
# What is read is a phrase

Between the places where reading an expression begins and ends stand the lexemes of a phrase,
with the names that are in scope where it begins. The rules of `Reads` tell the kind of each
token only, and most kinds have one text; so what is said of the lexemes depends on the tokens
being written as those of their kinds are.
-/

namespace BranchIR

variable {s s₁ s₂ s' : State}

/-! ## Lexemes between places -/

namespace State

/-- The lexemes from the current token on. -/
def ahead (s : State) : List Lexeme := s.upcoming.map Token.lexeme

/-- From the one place to the other stand the lexemes, when all tokens from the first on are
    written as those of their kinds. -/
def Carries (s : State) (u : List Lexeme) (s' : State) : Prop :=
  (∀ w ∈ s.ahead, w.spelled = true) → s.ahead = u ++ s'.ahead

namespace Carries

variable {u v : List Lexeme} {k : Kind}

private theorem nil (s : State) : s.Carries [] s := fun _ => rfl

/-- What two stretches carry, they carry together. -/
private theorem append (h : s.Carries u s₁) (h' : s₁.Carries v s') : s.Carries (u ++ v) s' := by
  intro hs
  have hfront := h hs
  have hrest := h' fun w hw => hs w (by rw [hfront]; exact List.mem_append_right _ hw)
  rw [hfront, hrest, List.append_assoc]

/-- A token, of which the text is known when it is written as those of its kind. -/
private theorem lead {text : String} (h : s.Takes k s₁)
    (htext : Lexeme.spelled ⟨k, s.current.text⟩ = true → s.current.text = text)
    (hrest : s₁.Carries v s') : s.Carries (⟨k, text⟩ :: v) s' := by
  have hahead : s.ahead = ⟨k, s.current.text⟩ :: s₁.ahead := by
    rw [ahead, h.upcoming_eq, List.map_cons, Token.lexeme, h.kind]
    rfl
  have hfirst : s.Carries [⟨k, text⟩] s₁ := by
    intro hs
    have hspelled := hs ⟨k, s.current.text⟩ (by rw [hahead]; exact List.mem_cons_self ..)
    rw [hahead, htext hspelled]
    rfl
  exact hfirst.append hrest

/-- A token with the text that it has. -/
private theorem token (h : s.Takes k s₁) (hrest : s₁.Carries v s') :
    s.Carries (⟨k, s.current.text⟩ :: v) s' :=
  lead h (fun _ => rfl) hrest

/-- A token of a kind that has one text. -/
private theorem mark (h : s.Takes k s₁) (hk : k.spelling ≠ "") (hrest : s₁.Carries v s') :
    s.Carries (k.lexeme :: v) s' := by
  refine lead h (fun hspelled => ?_) hrest
  cases k <;> simp_all [Lexeme.spelled, Kind.spelling]

/-- A word of operations is the name of one. -/
private theorem operation (h : s.Takes .primWord s₁) (hrest : s₁.Carries v s') :
    ∃ op : PrimOp, s.Carries (⟨.primWord, op.name⟩ :: v) s' := by
  refine ⟨(PrimOp.ofName? s.current.text).getD .div, lead h (fun hspelled => ?_) hrest⟩
  obtain ⟨op, hop⟩ := Option.isSome_iff_exists.1 hspelled
  rw [hop]
  exact PrimOp.name_of_ofName? hop

end Carries

end State

/-! ## Lists and paths -/

section Parts

variable {α β : Type}

/-- The items of a list, with what each is written with. -/
private theorem Listed.phrases {phrase : β → List Lexeme} {Q : Piece α → β → Prop} {close : Kind}
    {ps : List (Piece α)} (h : Listed close s ps s')
    (each : ∀ p ∈ ps, ∃ b, p.start.Carries (phrase b) p.stop ∧ Q p b) :
    ∃ (items : List (Piece α × β)) (v : List Lexeme) (s₁ : State), items.map (·.1) = ps ∧
      (∀ i ∈ items, Q i.1 i.2) ∧ Commas (items.map fun i => phrase i.2) v ∧ s.Carries v s₁ ∧
        s₁.Takes close s' := by
  induction h with
  | @nil s s' ends => exact ⟨[], [], s, rfl, by simp, .nil, .nil s, ends⟩
  | @last p s' ends =>
    obtain ⟨b, hb, hQ⟩ := each p (by simp)
    exact ⟨[(p, b)], phrase b, p.stop, rfl, by simpa using hQ, .last, hb, ends⟩
  | @more p ps s s' comma _ ih =>
    obtain ⟨hp, hps⟩ := List.forall_mem_cons.1 each
    obtain ⟨b, hb, hQ⟩ := hp
    obtain ⟨items, v, s₁, rfl, hall, hlist, hv, ends⟩ := ih hps
    have hcarries := hb.append (.mark comma (by decide) hv)
    exact ⟨(p, b) :: items, _, s₁, rfl, List.forall_mem_cons.2 ⟨hQ, hall⟩, .more hlist, hcarries,
      ends⟩

/-- The steps of a path, with what each offset is written with. -/
private theorem ReadsPath.phrases {Q : List Lexeme → Prop} {path : List (Step (Piece α))}
    (h : ReadsPath s path s')
    (each : ∀ p ∈ path.filterMap Step.offset?, ∃ u, p.start.Carries u p.stop ∧ Q u) :
    ∃ (steps : List (Step (List Lexeme))) (v : List Lexeme), PathPhrase steps v ∧
      s.Carries v s' ∧ ∀ u ∈ steps.filterMap Step.offset?, Q u := by
  induction h with
  | nil => exact ⟨[], [], .nil, .nil _, by simp⟩
  | field dot offset _ ih =>
    obtain ⟨steps, v, hpath, hv, hall⟩ := ih (by simpa using each)
    exact ⟨_, _, .field offset.2 hpath, .mark dot (by decide) (.token offset.1 hv), hall⟩
  | element opens offset ends _ ih =>
    obtain ⟨steps, v, hpath, hv, hall⟩ := ih (by simpa using each)
    have hrest := State.Carries.token offset.1 (.mark ends (by decide) hv)
    exact ⟨_, _, .element offset.2 hpath, .mark opens (by decide) hrest, hall⟩
  | lane opens ends _ ih =>
    obtain ⟨⟨u, hu, hQ⟩, hrest⟩ := List.forall_mem_cons.1 each
    obtain ⟨steps, v, hpath, hv, hall⟩ := ih hrest
    have hcarries := hu.append (.mark ends (by decide) hv)
    exact ⟨_, _, .lane hpath, .mark opens (by decide) hcarries,
      List.forall_mem_cons.2 ⟨hQ, hall⟩⟩
  | index sign _ ih =>
    obtain ⟨⟨u, hu, hQ⟩, hrest⟩ := List.forall_mem_cons.1 each
    obtain ⟨steps, v, hpath, hv, hall⟩ := ih hrest
    exact ⟨_, _, .index hpath, .mark sign (by decide) (hu.append hv),
      List.forall_mem_cons.2 ⟨hQ, hall⟩⟩

end Parts

/-! ## Types -/

/-- The types of a list, with what each is written with. -/
private theorem Listed.types {close : Kind} {ps : List (Piece Ty)} (h : Listed close s ps s')
    (each : ∀ p ∈ ps, ∃ u, p.start.Carries u p.stop ∧ TyPhrase p.item u) :
    ∃ (tys : List (Ty × List Lexeme)) (v : List Lexeme) (s₁ : State),
      tys.map (·.1) = ps.map Piece.item ∧ (∀ t ∈ tys, TyPhrase t.1 t.2) ∧
        Commas (tys.map (·.2)) v ∧ s.Carries v s₁ ∧ s₁.Takes close s' := by
  obtain ⟨items, v, s₁, rfl, hall, hlist, hv, ends⟩ :=
    @Listed.phrases s s' _ _ id (fun p u => TyPhrase p.item u) close ps h each
  refine ⟨items.map fun i => (i.1.item, i.2), v, s₁, by simp [Function.comp_def],
    List.forall_mem_map.2 hall, ?_, hv, ends⟩
  rw [List.map_map]
  exact hlist

/-- A length carries its digits and the `x` behind them. -/
private theorem ReadsLength.carries {n : Nat} {v : List Lexeme} (h : ReadsLength s n s₁)
    (hrest : s₁.Carries v s') : ∃ digits,
      s.Carries (.number digits :: .name "x" :: v) s' ∧ Text.word? digits = some n := by
  obtain ⟨s₂, offset, cross, htext⟩ := h
  have hcross := State.Carries.token cross hrest
  rw [htext] at hcross
  exact ⟨_, .token offset.1 hcross, offset.2⟩

/-- A type that was read is a phrase. -/
theorem ReadsTy.phrase {ty : Ty} (h : ReadsTy s ty s') :
    ∃ u, s.Carries u s' ∧ TyPhrase ty u := by
  -- a type carries its opening token, what its parts carry and its closing token
  induction h with
  | word word names => exact ⟨_, .token word (.nil _), .word (Ty.ofWord?_eq_some.1 names)⟩
  | pointer sign _ ih =>
    obtain ⟨u, hu, hty⟩ := ih
    exact ⟨_, .mark sign (by decide) hu, .pointer hty⟩
  | vector opens length _ ends ih =>
    obtain ⟨u, hu, hty⟩ := ih
    obtain ⟨digits, hlength, hreads⟩ := length.carries (hu.append (.mark ends (by decide) (.nil _)))
    exact ⟨_, .mark opens (by decide) hlength, .vector hreads hty⟩
  | array opens length _ ends ih =>
    obtain ⟨u, hu, hty⟩ := ih
    obtain ⟨digits, hlength, hreads⟩ := length.carries (hu.append (.mark ends (by decide) (.nil _)))
    exact ⟨_, .mark opens (by decide) hlength, .array hreads hty⟩
  | tuple opens list _ ih =>
    -- commas stand between the phrases of the fields
    obtain ⟨fields, v, s₁, hitems, hall, hlist, hv, ends⟩ := list.types ih
    rw [← hitems]
    exact ⟨_, .mark opens (by decide) (hv.append (.mark ends (by decide) (.nil _))),
      .tuple hlist hall⟩
  | function word opens list _ arrow _ ih ihresult =>
    obtain ⟨params, v, s₁, hitems, hall, hlist, hv, ends⟩ := list.types ih
    obtain ⟨u, hu, hresult⟩ := ihresult
    have hrest := hv.append (.mark ends (by decide) (.mark arrow (by decide) hu))
    rw [← hitems]
    exact ⟨_, .mark word (by decide) (.mark opens (by decide) hrest),
      .function hlist hall hresult⟩
  | group opens _ ends ih =>
    obtain ⟨u, hu, hty⟩ := ih
    exact ⟨_, .mark opens (by decide) (hu.append (.mark ends (by decide) (.nil _))), .group hty⟩

/-! ## Arms and functions -/

/-- An arm that was read is written as a pattern, an arrow and its body. -/
private theorem ReadsArm.phrase {Γ : List String} {arm : Piece (Arm (Piece (Exp Span)))}
    (h : ReadsArm arm)
    (hbody : ∃ u, arm.item.body.start.Carries u arm.item.body.stop ∧ ExpPhrase Γ u) :
    ∃ b : Branch, arm.start.Carries b.phrase arm.stop ∧ PatternPhrase b.pattern b.mark ∧
      ExpPhrase Γ b.body := by
  obtain ⟨s₁, hpattern, harrow, hstop⟩ := h
  obtain ⟨u, hu, hphrase⟩ := hbody
  have hrest := State.Carries.mark harrow (by decide) hu
  rw [hstop] at hrest
  generalize arm.item.pattern = pattern at hpattern
  cases hpattern with
  | default sign => exact ⟨⟨_, _, u⟩, .mark sign (by decide) hrest, .default, hphrase⟩
  | literal number reads => exact ⟨⟨_, _, u⟩, .token number hrest, .literal reads, hphrase⟩

/-- A parameter that is read carries its phrase, with its name and its type. -/
private theorem ReadsParam.phrase {p : Piece (Param Span)} (h : ReadsParam p) :
    ∃ q : Parameter, p.start.Carries q.phrase p.stop ∧ q.name = p.start.current.text ∧
      TyPhrase q.ty q.type := by
  obtain ⟨s₁, s₂, s₃, name, -, colon, type, -, -, hstop⟩ := h
  obtain ⟨u, hu, hty⟩ := type.phrase
  -- binding the name leaves the place
  have hlast : s₂.Carries u p.stop := by
    rw [hstop]
    exact hu
  exact ⟨⟨_, _, u⟩, .token name (.mark colon (by decide) hlast), rfl, hty⟩

/-- A function that was read, with its name, its parameters and its body. -/
private theorem ReadsFunc.phrase {f : Func Span (Piece (Exp Span))} (h : ReadsFunc s f s')
    (hbody : ∃ u, f.body.start.Carries u f.body.stop ∧ ExpPhrase f.body.start.scopes.visible u) :
    ∃ m : Member, s.Carries m.phrase s' ∧ m.name = s.current.text ∧ m.HeadOk ∧
      ExpPhrase (m.paramNames ++ s.scopes.visible) m.body := by
  obtain ⟨w, hw, hphrase⟩ := hbody
  cases h with
  | @mk _ params s s₁ s₂ s₃ s₄ s₅ _ name opens list each items colon result assignment _ leaves =>
    obtain ⟨ps, v, s₆, hitems, hall, hlist, hv, ends⟩ :=
      @Listed.phrases s₂ s₃ _ _ Parameter.phrase _ .closeParen params list fun p hp =>
        (each p hp).phrase
    obtain ⟨u, hu, hresult⟩ := result.phrase
    -- a parameter has the name of the token that it begins with
    have hnames : ps.map (·.2.name) = params.map fun p => p.start.current.text := by
      rw [← hitems, List.map_map]
      exact List.map_congr_left fun i hi => (hall i hi).1
    -- the parameters are bound in a scope of their own, latest first
    have hscope : f.body.start.scopes.visible =
        (ps.map (·.2.name)).reverse ++ s.scopes.visible := by
      have hstart := (colon.onward.trans (result.onward.trans assignment.onward)).scopes
      rw [hstart.visible_eq, (list.params each).1, Scopes.visible_bindAll, opens.scopes_eq,
        State.scopes_withScopes, Scopes.visible_push, name.scopes_eq, hnames]
    -- from the back: the body, the result and the parameters
    have hgiven := State.Carries.mark assignment (by decide) hw
    have htype := State.Carries.mark colon (by decide) (hu.append hgiven)
    have hparams := State.Carries.mark opens (by decide) (hv.append (.mark ends (by decide) htype))
    refine ⟨⟨_, ps.map (·.2), v, _, u, w⟩, ?_, rfl, ⟨?_, ?_, ?_, hresult⟩, hphrase.mono ?_⟩
    · rw [leaves]
      exact .token name hparams
    · simpa [Function.comp_def] using hlist
    · exact List.forall_mem_map.2 fun i hi => (hall i hi).2
    · have hdistinct := (list.params_distinct each).1
      rw [← hnames] at hdistinct
      simpa [Member.paramNames, Function.comp_def] using hdistinct
    · rw [hscope]
      simp [Member.paramNames, Function.comp_def]

/-- The functions of a bundle that was read. The names they begin with are those that the
    look-ahead finds. -/
private theorem ReadsFuncs.phrases {fs : List (Func Span (Piece (Exp Span)))}
    (h : ReadsFuncs s fs s₁) (each : ∀ f ∈ fs, Reads f.body.start f.body.item f.body.stop)
    (ih : ∀ f ∈ fs, ∃ u, f.body.start.Carries u f.body.stop ∧
      ExpPhrase f.body.start.scopes.visible u) (hin : s₁.Takes .inWord s') :
    ∃ ms : List Member, ms ≠ [] ∧
      s.Carries (separated Kind.andWord.lexeme (ms.map Member.phrase)) s₁ ∧
      (∀ m ∈ ms, m.HeadOk ∧ ExpPhrase (m.paramNames ++ s.scopes.visible) m.body) ∧
      ms.map Member.name =
        (State.identifier? s.upcoming.head? ++ State.laterNames 0 s.upcoming).map (·.text) := by
  -- every function begins with its name
  have hname {f : Func Span (Piece (Exp Span))} {s s' : State} (hf : ReadsFunc s f s') :
      State.identifier? s.upcoming.head? = [s.current] := by
    cases hf with
    | mk name => simp [State.upcoming, State.identifier?, name.kind]
  induction h with
  | @last f s s₁ func =>
    obtain ⟨m, hm, htext, hok, hbody⟩ := func.phrase (ih f (by simp))
    refine ⟨[m], by simp, hm, by simpa using ⟨hok, hbody⟩, ?_⟩
    rw [hname func, func.balanced (each f (by simp)).balanced, laterNames_zero_inWord hin]
    simp [htext]
  | @more f fs s s₂ s₃ s₁ func word _ ihrest =>
    obtain ⟨hf, hfs⟩ := List.forall_mem_cons.1 each
    obtain ⟨hphrase, hphrases⟩ := List.forall_mem_cons.1 ih
    obtain ⟨m, hm, htext, hok, hbody⟩ := func.phrase hphrase
    obtain ⟨ms, hne, hms, hall, hnames⟩ := ihrest hfs hphrases hin
    -- the functions after it are read in the same scope
    have hscope : s₃.scopes.visible = s.scopes.visible := by
      rw [word.scopes_eq, (func.onward hf).scopes.visible_eq]
    rw [hscope] at hall
    refine ⟨m :: ms, by simp, ?_, List.forall_mem_cons.2 ⟨⟨hok, hbody⟩, hall⟩, ?_⟩
    · have hcarries := hm.append (.mark word (by decide) hms)
      cases ms with
      | nil => exact absurd rfl hne
      | cons => exact hcarries
    · rw [hname func, func.balanced hf.balanced, laterNames_zero_andWord word, List.map_cons,
        htext, hnames]
      rfl

/-! ## Expressions -/

/-- A phrase of the scope in which a part is read is one of the scope before it. -/
private theorem Onward.phrase {u : List Lexeme} (h : Onward s s₁)
    (hu : ExpPhrase s₁.scopes.visible u) :
    ExpPhrase s.scopes.visible u := by
  rwa [h.scopes.visible_eq] at hu

/-- The lexemes between the places are the phrase of an expression. -/
def Worded (s s' : State) : Prop := ∃ u, s.Carries u s' ∧ ExpPhrase s.scopes.visible u

/-- The expressions of a list. -/
private theorem Listed.exps {close : Kind} {ps : List (Piece (Exp Span))}
    (h : Listed close s₁ ps s') (hclose : close.counts = false)
    (each : ∀ p ∈ ps, Reads p.start p.item p.stop) (ih : ∀ p ∈ ps, Worded p.start p.stop)
    (hbefore : Onward s s₁) :
    ∃ (us : List (List Lexeme)) (v : List Lexeme) (s₂ : State), Commas us v ∧
      (∀ u ∈ us, ExpPhrase s.scopes.visible u) ∧ s₁.Carries v s₂ ∧ s₂.Takes close s' := by
  have haround := h.around along_onward hclose fun p hp => (each p hp).onward
  obtain ⟨items, v, s₂, rfl, hall, hlist, hv, ends⟩ :=
    @Listed.phrases s₁ s' _ _ id (fun _ u => ExpPhrase s.scopes.visible u) close ps h fun p hp => by
      obtain ⟨u, hu, hphrase⟩ := ih p hp
      exact ⟨u, hu, (hbefore.trans (haround p hp).1).phrase hphrase⟩
  exact ⟨items.map (·.2), v, s₂, hlist, List.forall_mem_map.2 hall, hv, ends⟩

/-- What a path starts from, and the steps of the path. -/
private theorem ReadsPath.based {base : Exp Span} {path : List (Step (Piece (Exp Span)))}
    (h : ReadsPath s₂ path s') (hbefore : Onward s s₁) (start : Reads s₁ base s₂)
    (each : ∀ p ∈ path.filterMap Step.offset?, Reads p.start p.item p.stop)
    (hbase : Worded s₁ s₂) (ih : ∀ p ∈ path.filterMap Step.offset?, Worded p.start p.stop) :
    ∃ (u : List Lexeme) (steps : List (Step (List Lexeme))) (v : List Lexeme),
      s₁.Carries u s₂ ∧ s₂.Carries v s' ∧ ExpPhrase s.scopes.visible u ∧ PathPhrase steps v ∧
        ∀ w ∈ steps.filterMap Step.offset?, ExpPhrase s.scopes.visible w := by
  obtain ⟨u, hu, hphrase⟩ := hbase
  have haround := h.around along_onward fun p hp => (each p hp).onward
  have hopen := hbefore.trans start.onward
  obtain ⟨steps, v, hpath, hv, hall⟩ := h.phrases fun p hp => by
    obtain ⟨w, hw, hoffset⟩ := ih p hp
    exact ⟨w, hw, (hopen.trans (haround p hp).1).phrase hoffset⟩
  exact ⟨u, steps, v, hu, hv, hbefore.phrase hphrase, hpath, hall⟩

section Forms

variable {s₃ s₄ s₅ s₆ s₇ s₈ : State}

/-- A let; its name is in scope of its body only. -/
private theorem Worded.letIn {ty : Ty} {value : Exp Span} (word : s.Takes .letWord s₁)
    (name : s₁.Takes .identifier s₂) (colon : s₂.Takes .colon s₃) (type : ReadsTy s₃ ty s₄)
    (assignment : s₄.Takes .assignment s₅) (given : Reads s₅ value s₆)
    (inWord : s₆.Takes .inWord s₇) (leaves : s' = s₈.withScopes s₈.scopes.pop)
    (hvalue : Worded s₅ s₆)
    (hbody : Worded (s₇.withScopes (s₇.scopes.push.bind s₁.current.text).2) s₈) : Worded s s' := by
  obtain ⟨t, ht, htype⟩ := type.phrase
  obtain ⟨u, hu, hgiven⟩ := hvalue
  obtain ⟨v, hv, hinner⟩ := hbody
  -- opening and closing the scope of the body leaves the place
  have hlast : s₇.Carries v s' := by
    rw [leaves]
    exact hv
  have hrest := hu.append (.mark inWord (by decide) hlast)
  have hhead := State.Carries.mark colon (by decide)
    (ht.append (.mark assignment (by decide) hrest))
  have hbefore := (name.onward.trans colon.onward).trans (type.onward.trans assignment.onward)
  have hopen := word.onward.trans hbefore
  have hscope := (hopen.trans (given.onward.trans inWord.onward)).scopes.visible_eq
  rw [State.scopes_withScopes, Scopes.visible_bind, Scopes.visible_push, hscope] at hinner
  exact ⟨_, .mark word (by decide) (.token name hhead),
    .letIn htype (hopen.phrase hgiven) hinner⟩

/-- A bundle; the names of the functions are in scope of all its parts. -/
private theorem Worded.recIn {fs : List (Func Span (Piece (Exp Span)))} (word : s.Takes .recWord s₁)
    (distinct : firstRepeated? (s.bundleNames.map (·.text)) = none)
    (funcs : ReadsFuncs (s₁.withScopes s.bundleScopes) fs s₂)
    (each : ∀ f ∈ fs, Reads f.body.start f.body.item f.body.stop) (inWord : s₂.Takes .inWord s₃)
    (leaves : s' = s₄.withScopes s₄.scopes.pop)
    (hfuncs : ∀ f ∈ fs, Worded f.body.start f.body.stop) (hbody : Worded s₃ s₄) : Worded s s' := by
  obtain ⟨ms, hne, hms, hall, hnames⟩ := funcs.phrases each hfuncs inWord
  obtain ⟨v, hv, hinner⟩ := hbody
  -- the names that the look-ahead finds are those of the functions
  have hfound : ms.map Member.name = s.bundleNames.map (·.text) := by
    have hafter : s.after = s₁.upcoming := (List.cons.inj word.upcoming_eq).2
    rw [State.bundleNames, hafter]
    exact hnames
  have hscope : s.bundleScopes.visible = (ms.map Member.name).reverse ++ s.scopes.visible := by
    rw [State.bundleScopes, Scopes.visible_bindAll, Scopes.visible_push, hfound]
  have hfront : s.bundleScopes.visible ⊆ ms.map Member.name ++ s.scopes.visible := by
    rw [hscope]
    simp
  have hlast : s₃.Carries v s' := by
    rw [leaves]
    exact hv
  have hlist : s₁.Carries _ s₂ := hms
  refine ⟨_, .mark word (by decide) (hlist.append (.mark inWord (by decide) hlast)),
    .recIn hne (fun m hm => (hall m hm).1) ?_ (fun m hm => (hall m hm).2.mono ?_)
      (ExpPhrase.mono hinner ?_)⟩
  · rw [hfound]
    exact firstRepeated?_eq_none.1 distinct
  · exact List.append_subset.2
      ⟨List.subset_append_left .., List.subset_append_of_subset_right _ hfront⟩
  · rw [((funcs.onward each).trans inWord.onward).scopes.visible_eq]
    exact hfront

/-- A case; the arms are read in the same scope. -/
private theorem Worded.caseOf {scrutinee : Exp Span} {arms : List (Piece (Arm (Piece (Exp Span))))}
    (word : s.Takes .caseWord s₁) (switch : Reads s₁ scrutinee s₂)
    (opens : s₂.Takes .openCurly s₃) (list : Listed .closeCurly s₃ arms s')
    (heads : ∀ a ∈ arms, ReadsArm a)
    (each : ∀ a ∈ arms, Reads a.item.body.start a.item.body.item a.item.body.stop)
    (hscrutinee : Worded s₁ s₂)
    (harms : ∀ a ∈ arms, Worded a.item.body.start a.item.body.stop) : Worded s s' := by
  obtain ⟨u, hu, hphrase⟩ := hscrutinee
  have hopen := word.onward.trans (switch.onward.trans opens.onward)
  -- an arm goes from its pattern to the end of its body
  have hspan : ∀ a ∈ arms, Onward a.start a.item.body.start ∧ Onward a.start a.stop := by
    intro a ha
    obtain ⟨_, _, _, hstop⟩ := heads a ha
    have hhead := (heads a ha).goesOn along_onward.goesOn
    exact ⟨hhead, hstop ▸ hhead.trans (each a ha).onward⟩
  have haround := list.around along_onward rfl fun a ha => (hspan a ha).2
  obtain ⟨items, v, s₄, rfl, hall, hlist, hv, ends⟩ := list.phrases fun a ha => by
    obtain ⟨w, hw, hbody⟩ := harms a ha
    have hbefore := hopen.trans ((haround a ha).1.trans (hspan a ha).1)
    exact (heads a ha).phrase ⟨w, hw, hbefore.phrase hbody⟩
  -- pattern, arrow and body of each arm, with commas between the arms
  have hbranches : Commas ((items.map (·.2)).map (·.phrase)) v := by rwa [List.map_map]
  have hcases := State.Carries.mark opens (by decide)
    (hv.append (.mark ends (by decide) (.nil s')))
  exact ⟨_, .mark word (by decide) (hu.append hcases),
    .caseOf (word.onward.phrase hphrase) hbranches
      (List.forall_mem_map.2 fun i hi => (hall i hi).1)
      (List.forall_mem_map.2 fun i hi => (hall i hi).2)⟩

end Forms

/-- An expression that was read is a phrase, with the names in scope where it begins. -/
theorem Reads.phrase {e : Exp Span} (h : Reads s e s') : Worded s s' := by
  have hend {k : Kind} (hk : k.spelling ≠ "") {s s' : State} (h : s.Takes k s') :
      s.Carries [k.lexeme] s' := .mark h hk (.nil s')
  -- a form carries its opening token, then what its parts carry, then its closing token if it has
  -- one
  induction h with
  | int token reads =>
    exact ⟨_, .token token (.nil _), .int (literal?_isSome.1 ⟨_, _, reads⟩)⟩
  | var token names =>
    exact ⟨_, .token token (.nil _), .var (Scopes.mem_visible_iff.2 ⟨_, names⟩)⟩
  | group opens _ ends ih =>
    obtain ⟨u, hu, hphrase⟩ := ih
    exact ⟨_, .mark opens (by decide) (hu.append (hend (by decide) ends)),
      .group (opens.onward.phrase hphrase)⟩
  -- each item of a list is a phrase in the scopes that are open where the list begins
  | tuple opens list each ih =>
    obtain ⟨us, v, s₂, hlist, hall, hv, ends⟩ := list.exps rfl each ih opens.onward
    exact ⟨_, .mark opens (by decide) (hv.append (hend (by decide) ends)), .tuple hlist hall⟩
  | vector opens list each ih =>
    obtain ⟨us, v, s₂, hlist, hall, hv, ends⟩ := list.exps rfl each ih opens.onward
    exact ⟨_, .mark opens (by decide) (hv.append (hend (by decide) ends)), .vector hlist hall⟩
  | prim word opens list each ih =>
    obtain ⟨us, v, s₃, hlist, hall, hv, ends⟩ :=
      list.exps rfl each ih (word.onward.trans opens.onward)
    have hargs := State.Carries.mark opens (by decide) (hv.append (hend (by decide) ends))
    -- the kind of the token tells that its word is the name of some operation
    obtain ⟨op, hop⟩ := State.Carries.operation word hargs
    exact ⟨_, hop, .prim op hlist hall⟩
  | letIn word name colon type assignment given inWord _ leaves ihvalue ihbody =>
    exact .letIn word name colon type assignment given inWord leaves ihvalue ihbody
  | recIn word distinct _ funcs each inWord _ leaves ihfuncs ihbody =>
    exact .recIn word distinct funcs each inWord leaves ihfuncs ihbody
  | caseOf word switch opens list heads each ih iharms =>
    exact .caseOf word switch opens list heads each ih iharms
  | gep word opens start steps each ends ih iheach =>
    obtain ⟨u, path, v, hu, hv, hbase, hpath, hall⟩ :=
      steps.based (word.onward.trans opens.onward) start each ih iheach
    have hbased := hu.append (hv.append (hend (by decide) ends))
    exact ⟨_, .mark word (by decide) (.mark opens (by decide) hbased), .gep hbase hpath hall⟩
  | load word opens start steps each ends ih iheach =>
    obtain ⟨u, path, v, hu, hv, hbase, hpath, hall⟩ :=
      steps.based (word.onward.trans opens.onward) start each ih iheach
    have hbased := hu.append (hv.append (hend (by decide) ends))
    exact ⟨_, .mark word (by decide) (.mark opens (by decide) hbased), .load hbase hpath hall⟩
  | store word start steps each assignment given inWord _ ih iheach ihvalue ihbody =>
    obtain ⟨u, path, v, hu, hv, hdest, hpath, hall⟩ :=
      steps.based word.onward start each ih iheach
    obtain ⟨a, ha, hvalue⟩ := ihvalue
    obtain ⟨b, hb, hbody⟩ := ihbody
    have hsteps := word.onward.trans (start.onward.trans (steps.onward each))
    have hgiven := hsteps.trans assignment.onward
    have hlast := hgiven.trans (given.onward.trans inWord.onward)
    -- no token closes a store: it ends with its body
    have hrest := State.Carries.mark assignment (by decide)
      (ha.append (.mark inWord (by decide) hb))
    exact ⟨_, .mark word (by decide) (hu.append (hv.append hrest)),
      .store hdest hpath hall (hgiven.phrase hvalue) (hlast.phrase hbody)⟩
  | update word opens start steps each comma _ ends ih iheach ihvalue =>
    have hopen := word.onward.trans opens.onward
    obtain ⟨u, path, v, hu, hv, hbase, hpath, hall⟩ := steps.based hopen start each ih iheach
    obtain ⟨a, ha, hvalue⟩ := ihvalue
    have hsteps := hopen.trans (start.onward.trans (steps.onward each))
    have hrest := State.Carries.mark comma (by decide) (ha.append (hend (by decide) ends))
    exact ⟨_, .mark word (by decide) (.mark opens (by decide) (hu.append (hv.append hrest))),
      .update hbase hpath hall ((hsteps.trans comma.onward).phrase hvalue)⟩
  | ascribe _ colon type ih =>
    obtain ⟨u, hu, hphrase⟩ := ih
    obtain ⟨t, ht, htype⟩ := type.phrase
    exact ⟨_, hu.append (.mark colon (by decide) ht), .ascribe hphrase htype⟩
  | coerce _ word type ih =>
    obtain ⟨u, hu, hphrase⟩ := ih
    -- the expression is not closed, so the word and the type stand right behind it
    obtain ⟨t, ht, htype⟩ := type.phrase
    exact ⟨_, hu.append (.mark word (by decide) ht), .coerce hphrase htype⟩
  | call inner opens list each ih iheach =>
    obtain ⟨u, hu, hphrase⟩ := ih
    obtain ⟨us, v, s₃, hlist, hall, hv, ends⟩ :=
      list.exps rfl each iheach (inner.onward.trans opens.onward)
    have hargs := State.Carries.mark opens (by decide) (hv.append (hend (by decide) ends))
    exact ⟨_, hu.append hargs, .call hphrase hlist hall⟩

end BranchIR
