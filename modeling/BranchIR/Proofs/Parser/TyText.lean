import BranchIR.Proofs.Parser.Shows
import BranchIR.Proofs.Phrase.Words

/-!
# Reading the phrase of a type

Where the tokens are a phrase of a type, the reader of types gives that type, ends behind the
phrase and leaves the scopes alone.
-/

namespace BranchIR

open BranchIR.Parser

variable {ty : Ty} {u : List Lexeme} {fuel : Nat} {s s₁ s₂ s' : State} {σ : Scopes}
  {post : Ty → Scopes → Prop}

/-! ## Single forms -/

/-- A type is read where its first token begins the form. -/
private theorem tyAt_of_form (form : TypeForm) {k : Kind} (htakes : s.Takes k s₁)
    (hform : Grammar.full.types.lookup k = some form)
    (h : Runs (form.read (Grammar.full.tyAt fuel)) s σ s' post) :
    Runs (Grammar.full.tyAt (fuel + 1)) s σ s' post := by
  refine Runs.bind (.kind ?_)
  rw [htakes.kind, hform]
  exact h

/-- A type word is read as its type. -/
private theorem readWord_run (h : s.Takes .identifier s')
    (hty : Ty.ofWord? s.current.text = some ty)
    (hpost : post ty σ) : Runs TypeForm.readWord s σ s' post := by
  refine Runs.bind (.expect h ?_)
  rw [hty]
  exact .pure hpost

/-- A length that is written is read again. -/
private theorem readLength_run {n : Nat} {digits : String} (hn : Text.word? digits = some n)
    (h : s.Shows [.number digits, .name "x"] s') {post : Nat → Scopes → Prop} (hpost : post n σ) :
    Runs TypeForm.readLength s σ s' post := by
  obtain ⟨s₁, hnumber, htext, s₂, htimes, hx, rfl⟩ := h
  obtain rfl : s.current.text = digits := htext
  refine Runs.bind (.expectOr hnumber (.bind (.wordOf hn (.bind (.expectOr htimes ?_ _)))) _)
  rw [if_pos (show s₁.current.text = "x" from hx)]
  exact .pure hpost

/-- A vector type that is written is read again, if the type of its lanes is. -/
private theorem readVector_run {sub : Parser Ty} {n : Nat} {digits : String} {lane : PrimTy}
    {s₃ : State} (hn : Text.word? digits = some n) (hopens : s.Takes .less s₁)
    (hlength : s₁.Shows [.number digits, .name "x"] s₂)
    (hlane : Runs sub s₂ σ s₃ fun t σ' => t = .prim lane ∧ σ' = σ) (hends : s₃.Takes .greater s')
    (hpost : post (.vector n lane) σ) : Runs (TypeForm.readVector sub) s σ s' post := by
  refine Runs.bind (.advance hopens (.bind (readLength_run hn hlength ?_)))
  refine Runs.bind (.position (.bind (hlane.mono ?_)))
  rintro _ _ ⟨rfl, rfl⟩
  exact .bind (.expect hends (.pure hpost))

/-! ## Types -/

/-- The phrase of a type begins with a token that begins a form. -/
private theorem TyPhrase.eq_cons (h : TyPhrase ty u) :
    ∃ w us, u = w :: us ∧ Grammar.full.types.lookup w.kind ≠ none := by
  cases h with
  | word => exact ⟨_, _, rfl, by simp [Grammar.full, Lexeme.name]⟩
  | pointer | vector | array | tuple | function | group => exact ⟨_, _, rfl, by decide⟩

/-- Where the lexemes stand, the type is read, with the scopes as they were. -/
def TyRuns (ty : Ty) (u : List Lexeme) : Prop :=
  ∀ {fuel : Nat} {s s' : State} {σ : Scopes}, s.Shows u s' → s.remaining ≤ fuel →
    Runs (Grammar.full.tyAt fuel) s σ s' fun t σ' => t = ty ∧ σ' = σ

/-- A list of types is read up to the closing token. -/
private theorem tys_run {items : List (Ty × List Lexeme)} (hphrases : ∀ i ∈ items, TyPhrase i.1 i.2)
    (h : ∀ i ∈ items, TyRuns i.1 i.2) {close : Kind} (hcomma : close ≠ .comma)
    (hclose : Grammar.full.trailing.lookup close = none)
    (hhead : Grammar.full.types.lookup close = none) (hlist : Commas (items.map (·.2)) u)
    (hshows : s.Shows u s₁) (hends : s₁.Takes close s') (hbound : s.remaining ≤ fuel) :
    Runs (listTo close (Grammar.full.tyAt fuel)) s σ s' fun ts σ' =>
      ts = items.map (·.1) ∧ σ' = σ := by
  have hheads : ∀ ws ∈ items.map (·.2), ∃ w us, ws = w :: us ∧ w.kind ≠ close := by
    rw [List.forall_mem_map]
    intro i hi
    obtain ⟨w, us, heq, hw⟩ := (hphrases i hi).eq_cons
    refine ⟨w, us, heq, fun hk => hw ?_⟩
    rw [hk, hhead]
  refine listTo_run hcomma hclose hlist hheads ?_ hshows hends hbound
  -- one type is read after the other, always in the same scopes
  clear hphrases hlist hheads
  induction items with
  | nil => exact ⟨rfl, rfl⟩
  | cons i items ih =>
    obtain ⟨hi, hitems⟩ := List.forall_mem_cons.1 h
    intro s s' hshows hbound _
    refine (hi hshows hbound).mono ?_
    rintro _ _ ⟨rfl, rfl⟩
    exact (ih hitems).mono fun ts σ' ⟨hts, hσ⟩ => ⟨by rw [hts, List.map_cons], hσ⟩

/-- The phrase of a type is read as the type. -/
theorem TyPhrase.runs (h : TyPhrase ty u) : TyRuns ty u := by
  -- a part has fewer tokens than the type it stands in, so one level of fuel less is enough for it
  induction h with
  | word names =>
    intro fuel s s' σ hshows hfuel
    obtain ⟨htakes, htext⟩ := State.shows_singleton.1 hshows
    obtain ⟨fuel, rfl, -⟩ := htakes.fuel hfuel
    -- the token has the text of the phrase, which is the word of the type
    obtain rfl : s.current.text = _ := htext
    have hread := Ty.ofWord?_eq_some.2 names
    exact tyAt_of_form .word htakes rfl (readWord_run htakes hread ⟨rfl, rfl⟩)
  | pointer _ ih =>
    intro fuel s s' σ hshows hfuel
    obtain ⟨s₁, hmark, -, hrest⟩ := hshows
    obtain ⟨fuel, rfl, hless⟩ := hmark.fuel hfuel
    refine tyAt_of_form .pointer hmark rfl
      (.bind (.advance hmark (.bind ((ih hrest hless).mono ?_))))
    rintro _ _ ⟨rfl, rfl⟩
    exact .pure ⟨rfl, rfl⟩
  | vector length _ ih =>
    -- `<`, the length and the `x`, the type of the lanes, `>`
    intro fuel s s' σ hshows hfuel
    obtain ⟨s₁, hopens, -, hrest⟩ := hshows
    obtain ⟨fuel, rfl, hless⟩ := hopens.fuel hfuel
    obtain ⟨s₂, hlength, hrest⟩ := State.shows_append.1
      (show s₁.Shows ([.number _, .name "x"] ++ _) s' from hrest)
    obtain ⟨s₃, hlane, hclose⟩ := State.shows_append.1 hrest
    obtain ⟨hends, -⟩ := State.shows_singleton.1 hclose
    have hcount := hlength.remaining
    have hread := @ih fuel s₂ s₃ σ hlane (by omega)
    exact tyAt_of_form .vector hopens rfl
      (readVector_run length hopens hlength hread hends ⟨rfl, rfl⟩)
  | array length _ ih =>
    -- `[`, the length and the `x`, the type of the elements, `]`
    intro fuel s s' σ hshows hfuel
    obtain ⟨s₁, hopens, -, hrest⟩ := hshows
    obtain ⟨fuel, rfl, hless⟩ := hopens.fuel hfuel
    obtain ⟨s₂, hlength, hrest⟩ := State.shows_append.1
      (show s₁.Shows ([.number _, .name "x"] ++ _) s' from hrest)
    obtain ⟨s₃, helement, hclose⟩ := State.shows_append.1 hrest
    obtain ⟨hends, -⟩ := State.shows_singleton.1 hclose
    have hcount := hlength.remaining
    have hread := @ih fuel s₂ s₃ σ helement (by omega)
    refine tyAt_of_form .array hopens rfl (.bind (.advance hopens ?_))
    refine Runs.bind (readLength_run length hlength (.bind (hread.mono ?_)))
    rintro _ _ ⟨rfl, rfl⟩
    exact .bind (.expect hends (.pure ⟨rfl, rfl⟩))
  | tuple list each ih =>
    intro fuel s s' σ hshows hfuel
    obtain ⟨s₁, hopens, -, hrest⟩ := hshows
    obtain ⟨fuel, rfl, hless⟩ := hopens.fuel hfuel
    -- what the list shows ends in front of its closing token
    obtain ⟨s₂, hfields, hclose⟩ := State.shows_append.1 hrest
    obtain ⟨hends, -⟩ := State.shows_singleton.1 hclose
    have hread := @tys_run _ fuel s₁ s₂ s' σ _ each ih _ (by decide) rfl rfl list hfields hends
      hless
    refine tyAt_of_form .tuple hopens rfl (.bind (.advance hopens (.bind (hread.mono ?_))))
    rintro _ _ ⟨rfl, rfl⟩
    exact .pure ⟨rfl, rfl⟩
  | function list each _ ih ihresult =>
    intro fuel s s' σ hshows hfuel
    obtain ⟨s₁, hword, -, s₂, hopens, -, hrest⟩ := hshows
    obtain ⟨fuel, rfl, hless⟩ := hword.fuel hfuel
    obtain ⟨s₃, hparams, s₄, hends, -, s₅, harrow, -, hresult⟩ := State.shows_append.1 hrest
    have hcount := hopens.remaining
    have hcount₂ := hparams.remaining
    have hcount₃ := hends.remaining
    have hcount₄ := harrow.remaining
    -- the parameters and the result are one level down, with fewer tokens left
    have hread := @tys_run _ fuel s₂ s₃ s₄ σ _ each ih _ (by decide) rfl rfl list hparams hends
      (by omega)
    have hgives := @ihresult fuel s₅ s' σ hresult (by omega)
    refine tyAt_of_form .function hword rfl (.bind (.advance hword ?_))
    refine Runs.bind (.expect hopens (.bind (hread.mono ?_)))
    rintro _ _ ⟨rfl, rfl⟩
    refine Runs.bind (.expect harrow (.bind (hgives.mono ?_)))
    rintro _ _ ⟨rfl, rfl⟩
    exact .pure ⟨rfl, rfl⟩
  | group _ ih =>
    intro fuel s s' σ hshows hfuel
    obtain ⟨s₁, hopens, -, hrest⟩ := hshows
    obtain ⟨fuel, rfl, hless⟩ := hopens.fuel hfuel
    obtain ⟨s₂, hinner, hclose⟩ := State.shows_append.1 hrest
    obtain ⟨hends, -⟩ := State.shows_singleton.1 hclose
    -- parentheses are read over and give the type in them
    refine tyAt_of_form .group hopens rfl (.bind (.advance hopens ?_))
    refine Runs.bind ((ih hinner hless).mono ?_)
    rintro _ _ ⟨rfl, rfl⟩
    exact .bind (.expect hends (.pure ⟨rfl, rfl⟩))

/-- A type that is written is read again, at any depth that its tokens allow. -/
theorem TyPhrase.ty_run (h : TyPhrase ty u) (hshows : s.Shows u s') (hpost : post ty σ) :
    Runs Grammar.full.ty s σ s' post := by
  refine Runs.bind (.get ((h.runs hshows (Nat.le_refl _)).mono ?_))
  rintro _ _ ⟨rfl, rfl⟩
  exact hpost

end BranchIR
