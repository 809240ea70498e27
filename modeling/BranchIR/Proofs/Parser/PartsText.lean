import BranchIR.Proofs.Parser.TyText

/-!
# Reading the phrases of lists, paths and arms

What a reader of expressions gives for the phrases in a list, a path or an arm is put together to
what the reader of the list, the path or the arm gives. Nothing closes the last offset of a path,
so it has to stop in front of what stands behind the path.
-/

namespace BranchIR

open BranchIR.Parser

variable {sub : Parser (Exp Span)} {bound : Nat} {σ : Scopes} {s s₁ s' : State}

/-! ## Lists -/

/-- The phrase of an expression begins with a token that begins a form. -/
private theorem ExpPhrase.eq_cons {Γ : List String} {u : List Lexeme} (h : ExpPhrase Γ u) :
    ∃ w us, u = w :: us ∧ Grammar.full.opening.lookup w.kind ≠ none := by
  induction h with
  | int | var | prim => exact ⟨_, _, rfl, by simp [Grammar.full, Lexeme.name]⟩
  | ascribe _ _ ih | coerce _ _ ih | call _ _ _ ih =>
    -- a trailing form begins with what stands in front of it
    obtain ⟨w, us, heq, hw⟩ := ih
    exact ⟨w, _, by rw [heq, List.cons_append], hw⟩
  | _ => exact ⟨_, _, rfl, by decide⟩

/-- A list of expressions, up to the closing token. -/
theorem exps_run {Γ : List String} {us : List (List Lexeme)} {v : List Lexeme}
    (hphrases : ∀ u ∈ us, ExpPhrase Γ u) {close : Kind}
    (hhead : Grammar.full.opening.lookup close = none) (hcomma : close ≠ .comma)
    (hclose : Grammar.full.trailing.lookup close = none) (hlist : Commas us v)
    {post : List (Exp Span) → Scopes → Prop} (h : YieldsAll sub bound us σ post)
    (hshows : s.Shows v s₁) (hends : s₁.Takes close s') (hbound : s.remaining ≤ bound) :
    Runs (listTo close sub) s σ s' post := by
  refine listTo_run hcomma hclose hlist ?_ h hshows hends hbound
  intro u hu
  obtain ⟨w, us, heq, hw⟩ := (hphrases u hu).eq_cons
  refine ⟨w, us, heq, fun hk => hw ?_⟩
  rw [hk, hhead]

/-! ## Paths -/

/-- What may stand behind a path. -/
def State.EndsPath (s : State) : Prop := s.current.kind ∈ [Kind.closeParen, .assignment, .comma]

/-- What ends a path ends the expression in front of it. -/
private theorem State.EndsPath.stops (h : s.EndsPath) : s.Stops := by
  simp only [EndsPath, List.mem_cons, List.not_mem_nil, or_false] at h
  rcases h with h | h | h <;>
    · rw [Stops, h]
      rfl

/-- A closing parenthesis, an equals sign or a comma ends a path. -/
theorem State.Takes.endsPath {k : Kind} (h : s.Takes k s')
    (hk : k ∈ [Kind.closeParen, .assignment, .comma]) : s.EndsPath := by
  rw [EndsPath, h.kind]
  exact hk

/-- An expression ends in front of a path. -/
theorem PathPhrase.stops {path : List (Step (List Lexeme))} {v : List Lexeme}
    (h : PathPhrase path v) (hshows : s.Shows v s') (hend : s'.EndsPath) : s.Stops := by
  cases h with
  | nil =>
    obtain rfl := hshows
    exact hend.stops
  | field | element | lane | index =>
    obtain ⟨_, htakes, -⟩ := hshows
    exact htakes.stops rfl

/-- On places that show the offsets of a path the reader gives results one after the other, with
    the property of the path of them. -/
def YieldsPath (p : Parser (Exp Span)) (bound : Nat) :
    List (Step (List Lexeme)) → Scopes → (List (Step (Exp Span)) → Scopes → Prop) → Prop
  | [], σ, post => post [] σ
  | .field n :: path, σ, post =>
    YieldsPath p bound path σ fun steps σ' => post (.field n :: steps) σ'
  | .element n :: path, σ, post =>
    YieldsPath p bound path σ fun steps σ' => post (.element n :: steps) σ'
  | .lane ws :: path, σ, post =>
    Yields p bound ws σ fun e σ₁ =>
      YieldsPath p bound path σ₁ fun steps σ' => post (.lane e :: steps) σ'
  | .index ws :: path, σ, post =>
    Yields p bound ws σ fun e σ₁ =>
      YieldsPath p bound path σ₁ fun steps σ' => post (.index e :: steps) σ'

/-- What is known of the path that is read may be weakened. -/
theorem YieldsPath.mono {p : Parser (Exp Span)} {path : List (Step (List Lexeme))}
    {post post' : List (Step (Exp Span)) → Scopes → Prop} (h : YieldsPath p bound path σ post)
    (himp : ∀ steps σ', post steps σ' → post' steps σ') : YieldsPath p bound path σ post' := by
  induction path generalizing σ post post' with
  | nil => exact himp _ _ h
  | cons step path ih =>
    cases step with
    | field | element => exact ih h fun steps σ' => himp _ σ'
    | lane | index => exact Yields.mono h fun e σ₁ hrest => ih hrest fun steps σ' => himp _ σ'

/-- The digits of a number are read as the number, which has to be within a word. -/
private theorem readOffset_run {n : Nat} {digits : String} (hn : Text.word? digits = some n)
    (h : s.Takes .number s') (htext : s.current.text = digits) {post : Nat → Scopes → Prop}
    (hpost : post n σ) : Runs readOffset s σ s' post := by
  rw [← htext] at hn
  exact .bind (.expectOr h (.wordOf hn hpost) _)

section Steps

variable {post : List (Step (Exp Span)) → Scopes → Prop} {fuel : Nat}

/-- No step begins behind a path. -/
private theorem readSteps_nil (hend : s.EndsPath) (hpost : post [] σ) (fuel : Nat) :
    Runs (readSteps sub fuel) s σ s post := by
  cases fuel with
  | zero => exact .pure hpost
  | succ fuel =>
    refine Runs.bind (.kind ?_)
    simp only [State.EndsPath, List.mem_cons, List.not_mem_nil, or_false] at hend
    rcases hend with hk | hk | hk <;>
      · rw [hk]
        exact .pure hpost

/-- The path is read as far as it goes. -/
private theorem readSteps_run {path : List (Step (List Lexeme))} {v : List Lexeme}
    (hpath : PathPhrase path v) (h : YieldsPath sub bound path σ post) (hshows : s.Shows v s')
    (hend : s'.EndsPath) (hbound : s.remaining ≤ bound) (hfuel : s.remaining ≤ fuel) :
    Runs (readSteps sub fuel) s σ s' post := by
  -- every step takes a token, so fuel and bound go down by one at least
  induction hpath generalizing s σ fuel post with
  | nil =>
    obtain rfl := hshows
    exact readSteps_nil hend h fuel
  | field offset _ ih =>
    obtain ⟨s₁, hdot, -, s₂, hnumber, htext, hrest⟩ := hshows
    obtain ⟨fuel, rfl, hless⟩ := hdot.fuel hfuel
    have hcount := hdot.remaining
    have hcount₂ := hnumber.remaining
    have hothers := ih h hrest (by omega) (show s₂.remaining ≤ fuel by omega)
    refine Runs.bind (.kind ?_)
    -- the kind of the token selects the kind of the step
    rw [hdot.kind]
    refine Runs.bind (.advance hdot ?_)
    refine Runs.bind (readOffset_run offset hnumber htext (.bind (hothers.mono ?_)))
    exact fun steps σ' hpost => .pure hpost
  | element offset _ ih =>
    obtain ⟨s₁, hopens, -, s₂, hnumber, htext, s₃, hends, -, hrest⟩ := hshows
    obtain ⟨fuel, rfl, hless⟩ := hopens.fuel hfuel
    have hcount := hopens.remaining
    have hcount₂ := hnumber.remaining
    have hcount₃ := hends.remaining
    have hothers := ih h hrest (by omega) (show s₃.remaining ≤ fuel by omega)
    refine Runs.bind (.kind ?_)
    rw [hopens.kind]
    refine Runs.bind (.advance hopens ?_)
    refine Runs.bind (readOffset_run offset hnumber htext ?_)
    refine Runs.bind (.expect hends (.bind (hothers.mono ?_)))
    exact fun steps σ' hpost => .pure hpost
  | lane _ ih =>
    obtain ⟨s₁, hopens, -, hinner⟩ := hshows
    obtain ⟨s₂, hoffset, s₃, hends, -, hrest⟩ := State.shows_append.1 hinner
    obtain ⟨fuel, rfl, hless⟩ := hopens.fuel hfuel
    have hcount := hopens.remaining
    have hcount₂ := hoffset.remaining
    have hcount₃ := hends.remaining
    -- the offset ends in front of its bracket
    refine Runs.bind (.kind ?_)
    rw [hopens.kind]
    refine Runs.bind (.advance hopens ?_)
    refine Runs.bind ((h s₁ s₂ hoffset (by omega) (hends.stops rfl)).mono ?_)
    intro e σ₁ hpath
    have hothers := ih hpath hrest (by omega) (show s₃.remaining ≤ fuel by omega)
    refine Runs.bind (.expect hends (.bind (hothers.mono ?_)))
    exact fun steps σ' hpost => .pure hpost
  | index hpath ih =>
    obtain ⟨s₁, hsign, -, hinner⟩ := hshows
    obtain ⟨s₂, hoffset, hrest⟩ := State.shows_append.1 hinner
    obtain ⟨fuel, rfl, hless⟩ := hsign.fuel hfuel
    have hcount := hsign.remaining
    have hcount₂ := hoffset.remaining
    -- nothing closes the offset, so what follows must not go on with it
    refine Runs.bind (.kind ?_)
    rw [hsign.kind]
    refine Runs.bind (.advance hsign ?_)
    refine Runs.bind ((h s₁ s₂ hoffset (by omega) (hpath.stops hrest hend)).mono ?_)
    intro e σ₁ hothers
    have hothers := ih hothers hrest (by omega) (show s₂.remaining ≤ fuel by omega)
    refine Runs.bind (hothers.mono ?_)
    exact fun steps σ' hpost => .pure hpost

/-- The path is read as far as it goes. -/
theorem readPath_run {path : List (Step (List Lexeme))} {v : List Lexeme}
    (hpath : PathPhrase path v) (h : YieldsPath sub bound path σ post) (hshows : s.Shows v s')
    (hend : s'.EndsPath) (hbound : s.remaining ≤ bound) : Runs (readPath sub) s σ s' post :=
  .bind (.get (readSteps_run hpath h hshows hend hbound (Nat.le_refl _)))

end Steps

/-! ## Arms -/

/-- No pattern is the brace that closes a case. -/
theorem PatternPhrase.ne_closeCurly {pattern : Pattern} {w : Lexeme} (h : PatternPhrase pattern w) :
    w.kind ≠ .closeCurly := by
  cases h <;> simp [Lexeme.number]

/-- A pattern that is written is read again. -/
private theorem readPattern_run {pattern : Pattern} {w : Lexeme} (h : PatternPhrase pattern w)
    (htakes : s.Takes w.kind s') (htext : s.current.text = w.text)
    {post : Pattern → Scopes → Prop} (hpost : post pattern σ) :
    Runs readPattern s σ s' post := by
  refine Runs.bind (.kind ?_)
  rw [htakes.kind]
  cases h with
  | default => exact .bind (.advance htakes (.pure hpost))
  | literal reads =>
    refine Runs.bind (.advance htakes ?_)
    obtain rfl : s.current.text = _ := htext
    rw [reads]
    exact .pure hpost

/-- An arm is read up to the end of its body. -/
theorem readArm_yields {b : Branch} (hpattern : PatternPhrase b.pattern b.mark)
    {post : Arm (Exp Span) → Scopes → Prop}
    (h : Yields sub bound b.body σ fun body σ' => post ⟨b.pattern, body⟩ σ') :
    Yields (readArm sub) bound b.phrase σ post := by
  intro s s' hshows hbound hstops
  obtain ⟨s₁, htakes, htext, s₂, harrow, -, hbody⟩ := hshows
  have hcount := htakes.remaining
  have hcount₂ := harrow.remaining
  refine Runs.bind (readPattern_run hpattern htakes htext (.bind (.expect harrow ?_)))
  refine Runs.bind ((h s₂ s' hbody (by omega) hstops).mono ?_)
  exact fun body σ' hpost => .pure hpost

end BranchIR
