import BranchIR.Proofs.Parser.Inversion
import BranchIR.Proofs.Parser.Reads

/-!
# Types that are read follow the grammar

A reader of types that succeeds has read what the rules of `ReadsTy` describe. Only one thing
is asked of the state: the last token is the end of the input, so that no token that is read
is the last one.
-/

namespace BranchIR

open BranchIR.Parser

/-! ## The end of the input -/

namespace State

/-- The last token is the end of the input. -/
def Ended (s : State) : Prop := ∃ t, s.upcoming.getLast? = some t ∧ t.kind = .endOfInput

@[simp] theorem ended_withScopes {s : State} {scopes : Scopes} :
    (s.withScopes scopes).Ended ↔ s.Ended := Iff.rfl

/-- Any token but the end of the input can be taken. -/
theorem Ended.takes {s : State} (hs : s.Ended) (hend : s.current.kind ≠ .endOfInput) :
    s.Takes s.current.kind s.next := by
  refine ⟨rfl, ?_, rfl⟩
  -- if no token came after it, the current one would be the end of the input
  intro hafter
  obtain ⟨t, ht, hkind⟩ := hs
  simp only [upcoming, hafter, List.getLast?_singleton, Option.some.injEq] at ht
  exact hend (ht ▸ hkind)

/-- Behind any token the end of the input is still ahead, or has been reached. -/
theorem Ended.next {s : State} (hs : s.Ended) : s.next.Ended := by
  cases hafter : s.after with
  | nil => rwa [State.next, hafter]
  | cons t ts =>
    obtain ⟨u, hu, hkind⟩ := hs
    rw [upcoming, hafter, List.getLast?_cons_cons] at hu
    rw [State.next, hafter]
    exact ⟨u, hu, hkind⟩

end State

/-! ## Single tokens -/

section Tokens

variable {s s' : State} {t : Token} {k : Kind}

/-- To advance is to take the next token. -/
theorem advance_sound (hs : s.Ended) (hk : s.current.kind = k) (hend : k ≠ .endOfInput)
    (h : advance s = .ok t s') : s.Takes k s' ∧ s.current = t ∧ s'.Ended := by
  obtain ⟨ht, rfl⟩ := advance_eq_ok.1 h
  subst hk
  exact ⟨hs.takes hend, ht, hs.next⟩

/-- What is expected is taken. -/
theorem expect_sound (hs : s.Ended) (hend : k ≠ .endOfInput) (h : expect k s = .ok t s') :
    s.Takes k s' ∧ s.current = t ∧ s'.Ended := by
  obtain ⟨hk, ht, rfl⟩ := expect_eq_ok.1 h
  exact advance_sound hs hk hend (advance_eq_ok.2 ⟨ht, rfl⟩)

/-- What is expected is taken, whatever the message. -/
theorem expectOr_sound {message : String} (hs : s.Ended) (hend : k ≠ .endOfInput)
    (h : expectOr k message s = .ok t s') : s.Takes k s' ∧ s.current = t ∧ s'.Ended := by
  obtain ⟨hk, ht, rfl⟩ := expectOr_eq_ok.1 h
  exact advance_sound hs hk hend (advance_eq_ok.2 ⟨ht, rfl⟩)

/-- What is read as a constant offset is a number. -/
theorem readOffset_sound {n : Nat} (hs : s.Ended) (h : readOffset s = .ok n s') :
    ReadsOffset s n s' ∧ s'.Ended := by
  simp only [readOffset, bind_eq_ok, wordOf_eq_ok] at h
  obtain ⟨t, s₁, hnumber, hword, rfl⟩ := h
  obtain ⟨htoken, rfl, hs'⟩ := expectOr_sound hs (by decide) hnumber
  exact ⟨⟨htoken, hword⟩, hs'⟩

end Tokens

/-! ## Lists -/

/-- Whatever the reader reads, the relation holds of it. -/
def Sound {α : Type} (p : Parser α) (R : State → α → State → Prop) : Prop :=
  ∀ s a s', s.Ended → p s = .ok a s' → R s a s' ∧ s'.Ended

section Lists

variable {α : Type} {R : State → α → State → Prop} {item : Parser α} {close : Kind}

/-- What is read as items before a closing token is a list of them. Each item is kept with the
    states between which it was read. -/
private theorem itemsBefore_sound (hitem : Sound item R) (hclose : close ≠ .endOfInput)
    {fuel : Nat} {s s' : State} {xs : List α} (hs : s.Ended)
    (h : itemsBefore close item fuel s = .ok xs s') (hk : s'.current.kind = close) :
    s'.Ended ∧ ∃ ps : List (Piece α), ps.map Piece.item = xs ∧ Listed close s ps s'.next ∧
      ∀ p ∈ ps, R p.start p.item p.stop := by
  -- wherever the items end, what should be the closing token is read next
  have hnil (s : State) (hs : s.Ended) (hk : s.current.kind = close) :
      Listed close s ([] : List (Piece α)) s.next := .nil (hk ▸ hs.takes (hk ▸ hclose))
  induction fuel generalizing s xs with
  | zero =>
    obtain ⟨rfl, rfl⟩ := pure_eq_ok.1 h
    exact ⟨hs, [], rfl, hnil s hs hk, by simp⟩
  | succ fuel ih =>
    simp only [itemsBefore, bind_eq_ok, kind_eq_ok] at h
    obtain ⟨_, _, ⟨rfl, rfl⟩, h⟩ := h
    split at h
    · -- the closing token stands here
      obtain ⟨rfl, rfl⟩ := pure_eq_ok.1 h
      exact ⟨hs, [], rfl, hnil s hs hk, by simp⟩
    · -- an item, and after it a comma or the end of the items
      simp only [bind_eq_ok, kind_eq_ok] at h
      obtain ⟨first, s₁, hfirst, _, _, ⟨rfl, rfl⟩, h⟩ := h
      obtain ⟨hR, hs₁⟩ := hitem _ _ _ hs hfirst
      split at h
      · next hcomma =>
        simp only [bind_eq_ok, pure_eq_ok] at h
        obtain ⟨_, s₂, hadvance, rest, _, hrest, rfl, rfl⟩ := h
        obtain ⟨hcomma, -, hs₂⟩ := advance_sound hs₁ hcomma (by decide) hadvance
        -- the items behind the comma are read with less fuel
        obtain ⟨hs', ps, rfl, hlist, hall⟩ := ih hs₂ hrest
        refine ⟨hs', ⟨s, first, s₁⟩ :: ps, rfl, ?_, List.forall_mem_cons.2 ⟨hR, hall⟩⟩
        exact Listed.more (p := ⟨s, first, s₁⟩) hcomma hlist
      · obtain ⟨rfl, rfl⟩ := pure_eq_ok.1 h
        refine ⟨hs₁, [⟨s, first, s₁⟩], rfl, ?_, by simpa using hR⟩
        exact Listed.last (p := ⟨s, first, s₁⟩) (hk ▸ hs₁.takes (hk ▸ hclose))

/-- What is read as a list is a list of pieces, and the relation holds of each. -/
theorem listTo_sound (hitem : Sound item R) (hclose : close ≠ .endOfInput) {s s' : State}
    {xs : List α} (hs : s.Ended) (h : listTo close item s = .ok xs s') :
    ∃ ps : List (Piece α), ps.map Piece.item = xs ∧ Listed close s ps s' ∧
      (∀ p ∈ ps, R p.start p.item p.stop) ∧ s'.Ended := by
  simp only [listTo, bind_eq_ok, get_eq_ok, pure_eq_ok] at h
  obtain ⟨_, _, ⟨rfl, rfl⟩, xs, s₁, hitems, t, s₂, hclosed, rfl, rfl⟩ := h
  obtain ⟨hk, -, rfl⟩ := expect_eq_ok.1 hclosed
  obtain ⟨hs₁, ps, hps, hlist, hall⟩ := itemsBefore_sound hitem hclose hs hitems hk
  exact ⟨ps, hps, hlist, hall, hs₁.next⟩

end Lists

/-! ## Types -/

namespace TypeForm

variable {s s' : State}

/-- What is read as a length is a number and an `x`. -/
private theorem readLength_sound {n : Nat} (hs : s.Ended) (h : readLength s = .ok n s') :
    ReadsLength s n s' ∧ s'.Ended := by
  simp only [readLength, bind_eq_ok, wordOf_eq_ok] at h
  obtain ⟨t, s₁, hnumber, _, _, ⟨hword, rfl⟩, times, s₂, htimes, h⟩ := h
  obtain ⟨hfirst, rfl, hs₁⟩ := expectOr_sound hs (by decide) hnumber
  obtain ⟨hsecond, rfl, hs₂⟩ := expectOr_sound hs₁ (by decide) htimes
  split at h
  · next hx =>
    obtain ⟨rfl, rfl⟩ := pure_eq_ok.1 h
    exact ⟨⟨s₁, ⟨hfirst, hword⟩, hsecond, hx⟩, hs₂⟩
  · exact absurd h refuseToken_ne_ok

/-- The kind of the tokens that begin types of the form. -/
def kind : TypeForm → Kind
  | .word => .identifier
  | .pointer => .ampersand
  | .vector => .less
  | .array => .openBracket
  | .tuple => .openCurly
  | .function => .funWord
  | .group => .openParen

/-- The table of type forms gives each kind the form that it begins. -/
theorem kind_of_lookup {k : Kind} {form : TypeForm}
    (h : Grammar.full.types.lookup k = some form) : k = form.kind := by
  obtain ⟨_, _, hlist, -⟩ := List.lookup_eq_some_iff.1 h
  have hmem : (k, form) ∈ Grammar.full.types := by simp [hlist]
  cases form <;> simpa [Grammar.full, kind] using hmem

/-- Every form of types reads a type, if it is chosen by the kind of the next token. -/
private theorem read_sound {sub : Parser Ty} (hsub : Sound sub ReadsTy) {form : TypeForm} {ty : Ty}
    (hs : s.Ended) (hk : s.current.kind = form.kind) (h : form.read sub s = .ok ty s') :
    ReadsTy s ty s' ∧ s'.Ended := by
  cases form with
  | word =>
    -- `void`, `i32`, `float`
    simp only [read, readWord, bind_eq_ok] at h
    obtain ⟨t, s₁, hword, h⟩ := h
    obtain ⟨htoken, rfl, hs₁⟩ := expect_sound hs (by decide) hword
    cases hty : Ty.ofWord? s.current.text with
    | none =>
      rw [hty] at h
      exact absurd h throw_ne_ok
    | some ty' =>
      rw [hty] at h
      obtain ⟨rfl, rfl⟩ := pure_eq_ok.1 h
      exact ⟨.word htoken hty, hs₁⟩
  | pointer =>
    -- `&T`
    simp only [read, bind_eq_ok, pure_eq_ok] at h
    obtain ⟨_, s₁, hmark, target, _, htarget, rfl, rfl⟩ := h
    obtain ⟨hmark, -, hs₁⟩ := advance_sound hs hk (by decide) hmark
    obtain ⟨htarget, hs'⟩ := hsub _ _ _ hs₁ htarget
    exact ⟨.pointer hmark htarget, hs'⟩
  | vector =>
    -- `<n x T>`
    simp only [read, readVector, bind_eq_ok, position_eq_ok] at h
    obtain ⟨_, s₁, hopens, n, s₂, hlength, _, _, ⟨rfl, rfl⟩, lane, s₃, hlane, _, s₄, hends, h⟩ := h
    obtain ⟨hopens, -, hs₁⟩ := advance_sound hs hk (by decide) hopens
    obtain ⟨hlength, hs₂⟩ := readLength_sound hs₁ hlength
    obtain ⟨hlane, hs₃⟩ := hsub _ _ _ hs₂ hlane
    obtain ⟨hends, -, hs₄⟩ := expect_sound hs₃ (by decide) hends
    -- only primitive types are lanes
    cases lane with
    | prim p =>
      obtain ⟨rfl, rfl⟩ := pure_eq_ok.1 h
      exact ⟨.vector hopens hlength hlane hends, hs₄⟩
    | _ => exact absurd h throw_ne_ok
  | array =>
    -- `[n x T]`
    simp only [read, bind_eq_ok, pure_eq_ok] at h
    obtain ⟨_, s₁, hopens, n, s₂, hlength, element, s₃, helement, _, s₄, hends, rfl, rfl⟩ := h
    obtain ⟨hopens, -, hs₁⟩ := advance_sound hs hk (by decide) hopens
    obtain ⟨hlength, hs₂⟩ := readLength_sound hs₁ hlength
    obtain ⟨helement, hs₃⟩ := hsub _ _ _ hs₂ helement
    obtain ⟨hends, -, hs₄⟩ := expect_sound hs₃ (by decide) hends
    exact ⟨.array hopens hlength helement hends, hs₄⟩
  | tuple =>
    -- `{T, ...}`
    simp only [read, bind_eq_ok, pure_eq_ok] at h
    obtain ⟨_, s₁, hopens, fields, s₂, hfields, rfl, rfl⟩ := h
    obtain ⟨hopens, -, hs₁⟩ := advance_sound hs hk (by decide) hopens
    obtain ⟨ps, rfl, hlist, heach, hs₂⟩ := listTo_sound hsub (by decide) hs₁ hfields
    exact ⟨.tuple hopens hlist heach, hs₂⟩
  | function =>
    -- `fun(T, ...) -> U`
    simp only [read, bind_eq_ok, pure_eq_ok] at h
    obtain ⟨_, s₁, hword, _, s₂, hopens, params, s₃, hparams, _, s₄, harrow, result, s₅, hresult,
      rfl, rfl⟩ := h
    obtain ⟨hword, -, hs₁⟩ := advance_sound hs hk (by decide) hword
    obtain ⟨hopens, -, hs₂⟩ := expect_sound hs₁ (by decide) hopens
    obtain ⟨ps, rfl, hlist, heach, hs₃⟩ := listTo_sound hsub (by decide) hs₂ hparams
    obtain ⟨harrow, -, hs₄⟩ := expect_sound hs₃ (by decide) harrow
    obtain ⟨hresult, hs₅⟩ := hsub _ _ _ hs₄ hresult
    exact ⟨.function hword hopens hlist heach harrow hresult, hs₅⟩
  | group =>
    -- `(T)`
    simp only [read, bind_eq_ok, pure_eq_ok] at h
    obtain ⟨_, s₁, hopens, inner, s₂, hinner, _, s₃, hends, rfl, rfl⟩ := h
    obtain ⟨hopens, -, hs₁⟩ := advance_sound hs hk (by decide) hopens
    obtain ⟨hinner, hs₂⟩ := hsub _ _ _ hs₁ hinner
    obtain ⟨hends, -, hs₃⟩ := expect_sound hs₂ (by decide) hends
    exact ⟨.group hopens hinner hends, hs₃⟩

end TypeForm

/-- What is read as a type is one, at every depth. -/
private theorem tyAt_sound (fuel : Nat) : Sound (Grammar.full.tyAt fuel) ReadsTy := by
  induction fuel with
  | zero =>
    intro s ty s' hs h
    exact absurd h unexpected_ne_ok
  | succ fuel ih =>
    intro s ty s' hs h
    simp only [Grammar.tyAt, bind_eq_ok, kind_eq_ok] at h
    obtain ⟨_, _, ⟨rfl, rfl⟩, h⟩ := h
    -- the types inside are read with one level less, so the hypothesis is about them
    cases hform : Grammar.full.types.lookup s.current.kind with
    | none =>
      rw [hform] at h
      exact absurd h unexpected_ne_ok
    | some form =>
      rw [hform] at h
      exact TypeForm.read_sound ih hs (TypeForm.kind_of_lookup hform) h

/-- What is read as a type is a type of the grammar. -/
theorem ty_sound : Sound Grammar.full.ty ReadsTy := by
  intro s ty s' hs h
  simp only [Grammar.ty, bind_eq_ok, get_eq_ok] at h
  obtain ⟨_, _, ⟨rfl, rfl⟩, h⟩ := h
  exact tyAt_sound _ s ty s' hs h

end BranchIR
