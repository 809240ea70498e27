import BranchIR.Proofs.Parser.BundleText

/-!
# Reading the phrases of forms

Each form of expressions is read where its phrase stands, if the reader of expressions reads
what stands in it. After an opening form the reader is among the trailing forms; it is done where
none stands.
-/

namespace BranchIR

open BranchIR.Parser

variable {sub : Parser (Exp Span)} {bound : Nat} {σ : Scopes} {s s₁ s' : State}
  {post : Exp Span → Scopes → Prop}

/-! ## Opening forms -/

/-- A literal is read. -/
theorem readInt_run {value : Int} {width : Nat} (htakes : s.Takes .intLiteral s')
    (hread : literal? s.current.text = some (value, width))
    (hpost : post (.int s.current.span value width) σ) :
    Runs OpeningForm.readAtom s σ s' post := by
  refine Runs.bind (.kind ?_)
  rw [htakes.kind]
  refine Runs.bind (.advance htakes ?_)
  rw [hread]
  exact .pure hpost

/-- A variable in scope is read. -/
theorem readVar_run {id : VarId} (htakes : s.Takes .identifier s')
    (hfind : σ.find? s.current.text = some id) (hpost : post (.var s.current.span id) σ) :
    Runs OpeningForm.readAtom s σ s' post := by
  have hresolve : Runs (resolve s.current.text s.current.span.first) s' σ s' fun x σ' =>
      x = id ∧ σ' = σ :=
    ⟨id, σ, resolve_eq_ok.2 ⟨hfind, rfl⟩, rfl, rfl⟩
  refine Runs.bind (.kind ?_)
  rw [htakes.kind]
  refine Runs.bind (.advance htakes (.bind (hresolve.mono ?_)))
  rintro _ _ ⟨rfl, rfl⟩
  exact .pure hpost

/-- Parentheses around an expression. -/
theorem readGroup_run {u : List Lexeme} (h : Yields sub bound u σ post)
    (hshows : s.Shows (Kind.openParen.lexeme :: (u ++ [Kind.closeParen.lexeme])) s')
    (hbound : s.remaining ≤ bound + 1) :
    Runs (OpeningForm.group.read Grammar.full.ty sub) s σ s' post := by
  obtain ⟨s₁, hopens, -, hrest⟩ := hshows
  obtain ⟨s₂, hinner, hclose⟩ := State.shows_append.1 hrest
  obtain ⟨hends, -⟩ := State.shows_singleton.1 hclose
  refine Runs.bind (.advance hopens (.bind ((h s₁ s₂ hinner (hopens.below hbound)
    (hends.stops rfl)).mono ?_)))
  exact fun e σ' hpost => .bind (.expect hends (.pure hpost))

section Lists

variable {Γ : List String} {us : List (List Lexeme)} {v : List Lexeme}
  (hphrases : ∀ u ∈ us, ExpPhrase Γ u) (hlist : Commas us v)

include hphrases hlist

/-- Expressions between brackets. -/
theorem readElems_run (form : OpeningForm) {k close : Kind}
    {make : Span → List (Exp Span) → Exp Span}
    (hread : form.read Grammar.full.ty sub = do
      let start := (← advance).span.first
      let es ← listTo close sub
      return make (← spanFrom start) es)
    (hhead : Grammar.full.opening.lookup close = none) (hcomma : close ≠ .comma)
    (hclose : Grammar.full.trailing.lookup close = none)
    (h : YieldsAll sub bound us σ fun es σ' => ∀ a, post (make a es) σ')
    (hshows : s.Shows (k.lexeme :: (v ++ [close.lexeme])) s') (hbound : s.remaining ≤ bound + 1) :
    Runs (form.read Grammar.full.ty sub) s σ s' post := by
  obtain ⟨s₁, hopens, -, hrest⟩ := hshows
  obtain ⟨s₂, helems, hrest⟩ := State.shows_append.1 hrest
  obtain ⟨hends, -⟩ := State.shows_singleton.1 hrest
  have hes := exps_run hphrases hhead hcomma hclose hlist h helems hends (hopens.below hbound)
  rw [hread]
  refine Runs.bind (.advance hopens (.bind (hes.mono ?_)))
  exact fun es σ' hpost => .bind (.spanFrom (.pure (hpost _)))

/-- An operation on arguments is read. -/
theorem readPrim_run {op : PrimOp}
    (h : YieldsAll sub bound us σ fun es σ' => ∀ a, post (.prim a op es) σ')
    (hshows : s.Shows (⟨.primWord, op.name⟩ :: Kind.openParen.lexeme ::
      (v ++ [Kind.closeParen.lexeme])) s') (hbound : s.remaining ≤ bound + 1) :
    Runs (OpeningForm.prim.read Grammar.full.ty sub) s σ s' post := by
  obtain ⟨s₁, hword, htext, s₂, hopens, -, hrest⟩ := hshows
  obtain ⟨s₃, hargs, hrest⟩ := State.shows_append.1 hrest
  obtain ⟨hends, -⟩ := State.shows_singleton.1 hrest
  have hless := hword.below hbound
  have hcount := hopens.remaining
  have hes := exps_run hphrases rfl (by decide) rfl hlist h hargs hends (by omega)
  -- the name that stands there is that of the operation
  have hop : (PrimOp.ofName? s.current.text).getD .div = op := by
    rw [htext, PrimOp.ofName?_name]
    rfl
  refine Runs.bind (.advance hword (.bind (.expect hopens (.bind (hes.mono ?_)))))
  intro es σ' hpost
  refine Runs.bind (.spanFrom (.pure ?_))
  rw [hop]
  exact hpost _

/-- The arguments of a call are read. -/
theorem readCall_run {left : Exp Span}
    (h : YieldsAll sub bound us σ fun es σ' => ∀ a, post (.call a left es) σ')
    (hshows : s.Shows (Kind.openParen.lexeme :: (v ++ [Kind.closeParen.lexeme])) s')
    (hbound : s.remaining ≤ bound + 1) :
    Runs (TrailingForm.call.read Grammar.full.ty sub left) s σ s' post := by
  obtain ⟨s₁, hopens, -, hrest⟩ := hshows
  obtain ⟨s₂, hargs, hrest⟩ := State.shows_append.1 hrest
  obtain ⟨hends, -⟩ := State.shows_singleton.1 hrest
  have hes := exps_run hphrases rfl (by decide) rfl hlist h hargs hends (hopens.below hbound)
  refine Runs.bind (.advance hopens (.bind (hes.mono ?_)))
  exact fun es σ' hpost => .bind (.spanFrom (.pure (hpost _)))

end Lists

/-- A type behind its word is read. -/
theorem readTyped_run (form : TrailingForm) {k : Kind} {make : Span → Exp Span → Ty → Exp Span}
    (hread : ∀ left, form.read Grammar.full.ty sub left = do
      let _ ← advance
      let t ← Grammar.full.ty
      return make (← spanFrom left.ann.first) left t)
    {ty : Ty} {t : List Lexeme} (htype : TyPhrase ty t) {left : Exp Span}
    (hpost : ∀ a, post (make a left ty) σ) (hshows : s.Shows (k.lexeme :: t) s') :
    Runs (form.read Grammar.full.ty sub left) s σ s' post := by
  obtain ⟨s₁, hword, -, hty⟩ := hshows
  rw [hread]
  exact .bind (.advance hword (.bind (htype.ty_run hty (.bind (.spanFrom (.pure (hpost _)))))))

/-- A let is read; its name gets the next identity after those of the value. -/
theorem readLet_run {name : String} {ty : Ty} {t u v : List Lexeme} (htype : TyPhrase ty t)
    (h : Yields sub bound u σ fun value σ₁ =>
      Yields sub bound v (σ₁.push.bind name).2 fun body σ' =>
        ∀ a, post (.letIn a σ₁.size ty value body) σ'.pop)
    (hshows : s.Shows (Kind.letWord.lexeme :: .name name :: Kind.colon.lexeme ::
      (t ++ Kind.assignment.lexeme :: (u ++ Kind.inWord.lexeme :: v))) s')
    (hbound : s.remaining ≤ bound + 1) (hstops : s'.Stops) :
    Runs (OpeningForm.readLet Grammar.full.ty sub) s σ s' post := by
  -- the places between the parts, and how many tokens remain at them
  obtain ⟨s₁, hword, -, s₂, hname, htext, s₃, hcolon, -, hrest⟩ := hshows
  obtain ⟨s₄, hty, s₅, hassignment, -, hrest⟩ := State.shows_append.1 hrest
  obtain ⟨s₆, hvalue, s₇, hin, -, hbody⟩ := State.shows_append.1 hrest
  have hless := hword.below hbound
  have hcount := hname.remaining
  have hcount₂ := hcolon.remaining
  have hcount₃ := hty.remaining
  have hcount₄ := hassignment.remaining
  have hcount₅ := hvalue.remaining
  have hcount₆ := hin.remaining
  refine Runs.bind (.advance hword (.bind (.expectOr hname (.bind (.expect hcolon ?_)) _)))
  refine Runs.bind (htype.ty_run hty (.bind (.expect hassignment ?_)))
  refine Runs.bind ((h s₅ s₆ hvalue (by omega) (hin.stops rfl)).mono fun value σ₁ hinner => ?_)
  -- the body is read in a scope that knows the name as well
  obtain rfl : s₁.current.text = name := htext
  have hrun := hinner s₇ s' hbody (by omega) hstops
  have hscope : Runs (inScope do
      let id ← bindName s₁.current.text
      return (id, ← sub)) s₇ σ₁ s' fun r σ' => ∀ a, post (.letIn a r.1 ty value r.2) σ' :=
    .inScope (.bind (.bindName (.bind (hrun.mono fun body σ' hpost => .pure hpost))))
  refine Runs.bind (.expect hin (.bind (hscope.mono ?_)))
  exact fun r σ' hpost => .bind (.spanFrom (.pure (hpost _)))

/-- A case is read. -/
theorem readCase_run {arms : List Branch} {u v : List Lexeme}
    (hpatterns : ∀ arm ∈ arms, PatternPhrase arm.pattern arm.mark)
    (hlist : Commas (arms.map (·.phrase)) v)
    (h : Yields sub bound u σ fun scrutinee σ₁ =>
      YieldsAll (readArm sub) bound (arms.map (·.phrase)) σ₁ fun arms' σ' =>
        ∀ a, post (.caseOf a scrutinee arms') σ')
    (hshows : s.Shows (Kind.caseWord.lexeme :: (u ++ Kind.openCurly.lexeme ::
      (v ++ [Kind.closeCurly.lexeme]))) s') (hbound : s.remaining ≤ bound + 1) :
    Runs (OpeningForm.readCase sub) s σ s' post := by
  obtain ⟨s₁, hword, -, hrest⟩ := hshows
  obtain ⟨s₂, hswitch, s₃, hopens, -, hrest⟩ := State.shows_append.1 hrest
  obtain ⟨s₄, harms, hclose⟩ := State.shows_append.1 hrest
  obtain ⟨hends, -⟩ := State.shows_singleton.1 hclose
  have hless := hword.below hbound
  have hcount := hswitch.remaining
  have hcount₂ := hopens.remaining
  -- an arm begins with a number or an underscore
  have hheads : ∀ ws ∈ arms.map (·.phrase), ∃ w us, ws = w :: us ∧ w.kind ≠ .closeCurly := by
    rw [List.forall_mem_map]
    exact fun arm harm => ⟨_, _, rfl, (hpatterns arm harm).ne_closeCurly⟩
  have hscrutinee := h s₁ s₂ hswitch hless (hopens.stops rfl)
  refine Runs.bind (.advance hword (.bind (hscrutinee.mono fun scrutinee σ₁ hall => ?_)))
  have hrun := listTo_run (by decide) rfl hlist hheads hall harms hends (by omega)
  refine Runs.bind (.expect hopens (.bind (hrun.mono ?_)))
  exact fun arms' σ' hpost => .bind (.spanFrom (.pure (hpost _)))

section Paths

variable {path : List (Step (List Lexeme))} {v : List Lexeme} (hpath : PathPhrase path v)

include hpath

/-- What a path starts from is read, and the path after it. -/
private theorem based_run {α : Type} {u : List Lexeme} {post : α → Scopes → Prop}
    {next : Exp Span → List (Step (Exp Span)) → Parser α} {s₂ : State}
    (h : Yields sub bound u σ fun base σ₁ => YieldsPath sub bound path σ₁ fun steps σ₂ =>
      Runs (next base steps) s₂ σ₂ s' post)
    (hstart : s.Shows u s₁) (hsteps : s₁.Shows v s₂) (hend : s₂.EndsPath)
    (hbound : s.remaining ≤ bound) :
    Runs (do
      let base ← sub
      let steps ← readPath sub
      next base steps) s σ s' post := by
  have hcount := hstart.remaining
  have hless : s₁.remaining ≤ bound := by omega
  refine Runs.bind ((h s s₁ hstart hbound (hpath.stops hsteps hend)).mono fun base σ₁ hrest => ?_)
  exact .bind (readPath_run hpath hrest hsteps hend hless)

/-- A word applied to a parenthesized base and path is read. -/
theorem readAddress_run (form : OpeningForm) {k : Kind}
    {make : Span → Exp Span → List (Step (Exp Span)) → Exp Span}
    (hread : form.read Grammar.full.ty sub = do
      let start := (← advance).span.first
      let (b, p) ← OpeningForm.readBased sub
      return make (← spanFrom start) b p) {u : List Lexeme}
    (h : Yields sub bound u σ fun base σ₁ => YieldsPath sub bound path σ₁ fun steps σ' =>
      ∀ a, post (make a base steps) σ')
    (hshows : s.Shows (k.lexeme :: Kind.openParen.lexeme ::
      (u ++ (v ++ [Kind.closeParen.lexeme]))) s') (hbound : s.remaining ≤ bound + 1) :
    Runs (form.read Grammar.full.ty sub) s σ s' post := by
  obtain ⟨s₁, hword, -, s₂, hopens, -, hrest⟩ := hshows
  obtain ⟨s₃, hstart, hrest⟩ := State.shows_append.1 hrest
  obtain ⟨s₄, hsteps, hclose⟩ := State.shows_append.1 hrest
  obtain ⟨hends, -⟩ := State.shows_singleton.1 hclose
  have hless := hword.below hbound
  have hcount := hopens.remaining
  have hless₂ : s₂.remaining ≤ bound := by omega
  -- the closing parenthesis begins no further step
  have hend : s₄.EndsPath := hends.endsPath (by decide)
  have hbased : Runs (OpeningForm.readBased sub) s₁ σ s' fun r σ' =>
      ∀ a, post (make a r.1 r.2) σ' := by
    refine Runs.bind (.expect hopens (based_run hpath ?_ hstart hsteps hend hless₂))
    refine h.mono fun base σ₁ hrest => hrest.mono fun steps σ' hpost => ?_
    exact .bind (.expect hends (.pure hpost))
  -- the word in front, and the span around the whole
  rw [hread]
  refine Runs.bind (.advance hword (.bind (hbased.mono ?_)))
  exact fun r σ' hpost => .bind (.spanFrom (.pure (hpost _)))

/-- A store is read. -/
theorem readStore_run {u a b : List Lexeme}
    (h : Yields sub bound u σ fun dest σ₁ => YieldsPath sub bound path σ₁ fun steps σ₂ =>
      Yields sub bound a σ₂ fun value σ₃ => Yields sub bound b σ₃ fun body σ' =>
        ∀ span, post (.store span dest steps value body) σ')
    (hshows : s.Shows (Kind.storeWord.lexeme :: (u ++ (v ++ Kind.assignment.lexeme ::
      (a ++ Kind.inWord.lexeme :: b)))) s') (hbound : s.remaining ≤ bound + 1)
    (hstops : s'.Stops) : Runs (OpeningForm.readStore sub) s σ s' post := by
  obtain ⟨s₁, hword, -, hrest⟩ := hshows
  obtain ⟨s₂, hstart, hrest⟩ := State.shows_append.1 hrest
  obtain ⟨s₃, hsteps, s₄, hassignment, -, hrest⟩ := State.shows_append.1 hrest
  obtain ⟨s₅, hvalue, s₆, hin, -, hbody⟩ := State.shows_append.1 hrest
  have hless := hword.below hbound
  have hcount := hstart.remaining
  have hcount₂ := hsteps.remaining
  have hcount₃ := hassignment.remaining
  have hcount₄ := hvalue.remaining
  have hcount₅ := hin.remaining
  have hend : s₃.EndsPath := hassignment.endsPath (by decide)
  refine Runs.bind (.advance hword (based_run hpath ?_ hstart hsteps hend hless))
  refine h.mono fun dest σ₁ hrest => hrest.mono fun steps σ₂ hgiven => ?_
  -- the value and the body are read in the scopes that the parts before them leave
  have hvalues := hgiven s₄ s₅ hvalue (by omega) (hin.stops rfl)
  refine Runs.bind (.expect hassignment (.bind (hvalues.mono fun value σ₃ hinner => ?_)))
  have hbodies := hinner s₆ s' hbody (by omega) hstops
  refine Runs.bind (.expect hin (.bind (hbodies.mono ?_)))
  exact fun body σ' hpost => .bind (.spanFrom (.pure (hpost _)))

/-- An update is read. -/
theorem readUpdate_run {u a : List Lexeme}
    (h : Yields sub bound u σ fun base σ₁ => YieldsPath sub bound path σ₁ fun steps σ₂ =>
      Yields sub bound a σ₂ fun value σ' => ∀ span, post (.update span base steps value) σ')
    (hshows : s.Shows (Kind.updateWord.lexeme :: Kind.openParen.lexeme ::
      (u ++ (v ++ Kind.comma.lexeme :: (a ++ [Kind.closeParen.lexeme])))) s')
    (hbound : s.remaining ≤ bound + 1) : Runs (OpeningForm.readUpdate sub) s σ s' post := by
  obtain ⟨s₁, hword, -, s₂, hopens, -, hrest⟩ := hshows
  obtain ⟨s₃, hstart, hrest⟩ := State.shows_append.1 hrest
  obtain ⟨s₄, hsteps, s₅, hcomma, -, hrest⟩ := State.shows_append.1 hrest
  obtain ⟨s₆, hvalue, hclose⟩ := State.shows_append.1 hrest
  obtain ⟨hends, -⟩ := State.shows_singleton.1 hclose
  have hless := hword.below hbound
  have hcount := hopens.remaining
  have hcount₂ := hstart.remaining
  have hcount₃ := hsteps.remaining
  have hcount₄ := hcomma.remaining
  have hless₂ : s₂.remaining ≤ bound := by omega
  -- the comma begins no further step
  have hend : s₄.EndsPath := hcomma.endsPath (by decide)
  refine Runs.bind (.advance hword (.bind (.expect hopens ?_)))
  refine based_run hpath ?_ hstart hsteps hend hless₂
  refine h.mono fun base σ₁ hrest => hrest.mono fun steps σ₂ hgiven => ?_
  have hvalues := hgiven s₅ s₆ hvalue (by omega) (hends.stops rfl)
  refine Runs.bind (.expect hcomma (.bind (hvalues.mono fun value σ' hpost => ?_)))
  exact .bind (.expect hends (.bind (.spanFrom (.pure (hpost _)))))

end Paths

/-! ## Trailing forms -/

section Expressions

variable {fuel k : Nat}

/-- Where no trailing form stands, the reader is done. -/
theorem trail_nil {e : Exp Span} (hstops : s.Stops) (hpost : post e σ) (k : Nat) :
    Runs (Grammar.full.trail sub k e) s σ s post := by
  cases k with
  | zero => exact .pure hpost
  | succ k =>
    refine Runs.bind (.kind ?_)
    rw [show Grammar.full.trailing.lookup s.current.kind = none from hstops]
    exact .pure hpost

/-- A trailing form is read, and after it the others. -/
theorem trail_cons (form : TrailingForm) {kind : Kind} {left : Exp Span} {s₂ : State}
    (htakes : s.Takes kind s₁) (hform : Grammar.full.trailing.lookup kind = some form)
    (h : Runs (form.read Grammar.full.ty sub left) s σ s₂ fun e σ₁ =>
      Runs (Grammar.full.trail sub k e) s₂ σ₁ s' post) :
    Runs (Grammar.full.trail sub (k + 1) left) s σ s' post := by
  refine Runs.bind (.kind ?_)
  rw [htakes.kind, hform]
  exact .bind h

/-- An opening form is read, and the trailing forms after it. -/
theorem exprAt_of_form (form : OpeningForm) {kind : Kind} {s₂ : State} (htakes : s.Takes kind s₁)
    (hform : Grammar.full.opening.lookup kind = some form)
    (h : Runs (form.read Grammar.full.ty (Grammar.full.exprAt fuel .loose)) s σ s₂ fun e σ₁ =>
      Runs (Grammar.full.trail (Grammar.full.exprAt fuel .loose) s₂.remaining e) s₂ σ₁ s' post) :
    Runs (Grammar.full.exprAt (fuel + 1) .loose) s σ s' post := by
  have hhead : Runs (Grammar.full.head (Grammar.full.exprAt fuel .loose)) s σ s₂ fun e σ₁ =>
      Runs (Grammar.full.trail (Grammar.full.exprAt fuel .loose) s₂.remaining e) s₂ σ₁ s' post := by
    refine Runs.bind (.kind ?_)
    rw [htakes.kind, hform]
    exact h
  exact .bind (hhead.mono fun e σ₁ hrest => .bind (.get hrest))

end Expressions

/-! ## Programs -/

/-- An expression does not go on at the end of the input. -/
theorem State.Stops.of_endOfInput (h : s.current.kind = .endOfInput) : s.Stops := by
  rw [Stops, h]
  rfl

/-- Where the tokens begin with the lexemes and go on, the lexemes are shown. -/
private theorem State.shows_of_map {ws vs : List Lexeme} {w : Lexeme} {s : State}
    (h : s.upcoming.map Token.lexeme = ws ++ w :: vs) :
    ∃ s', s.Shows ws s' ∧ s'.current.kind = w.kind := by
  induction ws generalizing s with
  | nil =>
    -- the token that is left stands here
    obtain ⟨hfirst, -⟩ := List.cons.inj h
    exact ⟨s, rfl, congrArg Lexeme.kind hfirst⟩
  | cons u ws ih =>
    obtain ⟨hfirst, hrest⟩ := List.cons.inj h
    cases hafter : s.after with
    | nil =>
      rw [hafter] at hrest
      simp at hrest
    | cons t ts =>
      have htakes : s.Takes u.kind s.next :=
        ⟨congrArg Lexeme.kind hfirst, by simp [hafter], rfl⟩
      have hupcoming : s.next.upcoming = s.after := (List.cons.inj htakes.upcoming_eq).2.symm
      rw [← hupcoming] at hrest
      obtain ⟨s', hshows, hkind⟩ := ih hrest
      exact ⟨s', ⟨s.next, htakes, congrArg Lexeme.text hfirst, hshows⟩, hkind⟩

/-- The tokens of a file show their lexemes up to the end of the input. -/
theorem State.shows_ofTokens {ws : List Lexeme} {tokens : List Token}
    (h : tokens.map Token.lexeme = ws ++ [Kind.endOfInput.lexeme]) (file : String) :
    ∃ s', (ofTokens file tokens).Shows ws s' ∧ s'.current.kind = .endOfInput := by
  have hlast : (tokens.map Token.lexeme).getLast? = some Kind.endOfInput.lexeme := by simp [h]
  rw [List.getLast?_map, Option.map_eq_some_iff] at hlast
  obtain ⟨last, hlast, hlexeme⟩ := hlast
  rw [← upcoming_ofTokens hlast (congrArg Lexeme.kind hlexeme) file] at h
  exact shows_of_map h

/-- An expression up to the end of the input is a program. -/
theorem ofTokens_of_runs {file : String} {tokens : List Token}
    (h : Runs (Grammar.full.exprAt (State.ofTokens file tokens).remaining .loose)
      (State.ofTokens file tokens) .empty s' post) (hend : s'.current.kind = .endOfInput) :
    ∃ program, Program.ofTokens file tokens = .ok program ∧ post program.tree program.scopes := by
  obtain ⟨tree, σ', hrun, hpost⟩ := h
  -- nothing is in scope at the first token
  rw [← State.scopes_ofTokens file tokens, State.withScopes_scopes] at hrun
  have hprogram : Grammar.full.program (State.ofTokens file tokens) =
      .ok tree (s'.withScopes σ') := by
    simp only [Grammar.program, Grammar.expr, bind_eq_ok, get_eq_ok, kind_eq_ok]
    refine ⟨tree, _, ⟨_, _, ⟨rfl, rfl⟩, hrun⟩, _, _, ⟨rfl, rfl⟩, ?_⟩
    simp only [State.current_withScopes, hend, if_true]
    rfl
  rw [Program.ofTokens, hprogram]
  exact ⟨⟨tree, σ'⟩, rfl, hpost⟩

end BranchIR
