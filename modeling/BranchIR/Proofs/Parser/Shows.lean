import BranchIR.Proofs.Parser.Inversion
import BranchIR.Proofs.Parser.Lookahead
import BranchIR.Proofs.Phrase.Grammar

/-!
# Running a reader on given tokens

A reader is run on a state of which the next tokens are known. The tokens do not depend on the
scopes, which change while reading, so a state is taken apart into a place among the tokens and
the scopes put to it. What is wanted of the result of a step is what the steps after it need.
-/

namespace BranchIR

open BranchIR.Parser

namespace State

/-! ## Places -/

/-- From the one place to the other the tokens have these kinds and texts. -/
def Shows : State → List Lexeme → State → Prop
  | s, [], s' => s = s'
  | s, w :: ws, s' => ∃ s₁, s.Takes w.kind s₁ ∧ s.current.text = w.text ∧ s₁.Shows ws s'

/-- Lexemes stand one after the other. -/
theorem shows_append {us vs : List Lexeme} {s s' : State} :
    s.Shows (us ++ vs) s' ↔ ∃ s₁, s.Shows us s₁ ∧ s₁.Shows vs s' := by
  induction us generalizing s with
  | nil => simp [Shows]
  | cons u us ih =>
    simp only [List.cons_append, Shows, ih]
    constructor
    · intro ⟨s₁, htakes, htext, s₂, hus, hvs⟩
      exact ⟨s₂, ⟨s₁, htakes, htext, hus⟩, hvs⟩
    · intro ⟨s₂, ⟨s₁, htakes, htext, hus⟩, hvs⟩
      exact ⟨s₁, htakes, htext, s₂, hus, hvs⟩

/-- One lexeme stands where a token of its kind and its text does. -/
theorem shows_singleton {w : Lexeme} {s s' : State} :
    s.Shows [w] s' ↔ s.Takes w.kind s' ∧ s.current.text = w.text := by
  simp [Shows]

/-- A place that shows lexemes has tokens left, and one fewer behind the first. -/
theorem Takes.fuel {k : Kind} {s s' : State} (h : s.Takes k s') {fuel : Nat}
    (hfuel : s.remaining ≤ fuel) : ∃ f, fuel = f + 1 ∧ s'.remaining ≤ f := by
  have hcount := h.remaining
  exact ⟨fuel - 1, by omega, by omega⟩

/-- A token that is read leaves fewer than the levels that there are. -/
theorem Takes.below {k : Kind} {s s' : State} (h : s.Takes k s') {fuel : Nat}
    (hfuel : s.remaining ≤ fuel + 1) : s'.remaining ≤ fuel := by
  have hcount := h.remaining
  omega

/-- So many lexemes leave so many tokens less. -/
theorem Shows.remaining {ws : List Lexeme} {s s' : State} (h : s.Shows ws s') :
    s'.remaining + ws.length = s.remaining := by
  induction ws generalizing s with
  | nil =>
    obtain rfl := h
    rfl
  | cons w ws ih =>
    obtain ⟨s₁, htakes, -, hrest⟩ := h
    have hfirst := htakes.remaining
    have hlater := ih hrest
    rw [List.length_cons]
    omega

/-! ## Places and scopes -/

@[simp] theorem current_withScopes (s : State) (σ : Scopes) :
    (s.withScopes σ).current = s.current := rfl

@[simp] theorem withScopes_scopes (s : State) : s.withScopes s.scopes = s := rfl

/-- Which token is taken does not depend on the scopes. -/
private theorem Takes.withScopes {k : Kind} {s s' : State} (h : s.Takes k s') (σ : Scopes) :
    (s.withScopes σ).Takes k (s'.withScopes σ) := by
  obtain ⟨hkind, hmore, rfl⟩ := h
  refine ⟨hkind, hmore, ?_⟩
  -- moving on looks at the tokens only
  cases hafter : s.after with
  | nil => exact absurd hafter hmore
  | cons t ts =>
    show State.next _ = _
    simp only [State.next, State.withScopes, hafter]

/-- Which lexemes stand ahead does not depend on the scopes. -/
theorem Shows.withScopes {ws : List Lexeme} {s s' : State} (h : s.Shows ws s') (σ : Scopes) :
    (s.withScopes σ).Shows ws (s'.withScopes σ) := by
  induction ws generalizing s with
  | nil => exact congrArg (State.withScopes · σ) h
  | cons w ws ih =>
    obtain ⟨s₁, htakes, htext, hrest⟩ := h
    exact ⟨s₁.withScopes σ, htakes.withScopes σ, htext, ih hrest⟩

end State

/-! ## Steps -/

/-- In the scopes the reader goes from the one place to the other, and what it gives has the
    property, together with the scopes that it leaves. -/
def Runs {α : Type} (p : Parser α) (s : State) (σ : Scopes) (s' : State)
    (post : α → Scopes → Prop) : Prop :=
  ∃ a σ', p (s.withScopes σ) = .ok a (s'.withScopes σ') ∧ post a σ'

namespace Runs

variable {α β : Type} {s s₁ s' : State} {σ : Scopes}

/-- What is known of the result may be weakened. -/
theorem mono {p : Parser α} {post post' : α → Scopes → Prop} (h : Runs p s σ s' post)
    (himp : ∀ a σ', post a σ' → post' a σ') : Runs p s σ s' post' := by
  obtain ⟨a, σ', hrun, hpost⟩ := h
  exact ⟨a, σ', hrun, himp a σ' hpost⟩

/-- A chain of two steps: the second runs on what the first gives. -/
theorem bind {p : Parser α} {f : α → Parser β} {post : β → Scopes → Prop}
    (h : Runs p s σ s₁ fun a σ₁ => Runs (f a) s₁ σ₁ s' post) : Runs (p >>= f) s σ s' post := by
  obtain ⟨a, σ₁, hrun, b, σ', hrest, hpost⟩ := h
  exact ⟨b, σ', bind_eq_ok.2 ⟨a, _, hrun, hrest⟩, hpost⟩

theorem pure {a : α} {post : α → Scopes → Prop} (h : post a σ) :
    Runs (Pure.pure a) s σ s post :=
  ⟨a, σ, rfl, h⟩

theorem kind {post : Kind → Scopes → Prop} (h : post s.current.kind σ) :
    Runs Parser.kind s σ s post :=
  ⟨_, σ, rfl, h⟩

theorem position {post : Position → Scopes → Prop} (h : post s.position σ) :
    Runs Parser.position s σ s post :=
  ⟨_, σ, rfl, h⟩

theorem get {post : State → Scopes → Prop} (h : post (s.withScopes σ) σ) :
    Runs (MonadState.get : Parser State) s σ s post :=
  ⟨_, σ, rfl, h⟩

theorem spanFrom {start : Position} {post : Span → Scopes → Prop}
    (h : post (s.spanFrom start) σ) : Runs (Parser.spanFrom start) s σ s post :=
  ⟨_, σ, rfl, h⟩

theorem bindName {name : String} {post : VarId → Scopes → Prop}
    (h : post σ.size (σ.bind name).2) : Runs (Parser.bindName name) s σ s post :=
  ⟨_, _, rfl, h⟩

/-- A run in a scope of its own is one in the scopes with a new one, which is closed again. -/
theorem inScope {p : Parser α} {post : α → Scopes → Prop}
    (h : Runs p s σ.push s' fun a σ' => post a σ'.pop) : Runs (Parser.inScope p) s σ s' post := by
  obtain ⟨a, σ', hrun, hpost⟩ := h
  exact ⟨a, σ'.pop, inScope_eq_ok.2 ⟨_, hrun, rfl⟩, hpost⟩

section Tokens

variable {k : Kind} {post : Token → Scopes → Prop} (htakes : s.Takes k s') (h : post s.current σ)

include htakes h

theorem advance : Runs Parser.advance s σ s' post :=
  ⟨_, σ, advance_eq_ok.2 ⟨rfl, (htakes.withScopes σ).next⟩, h⟩

theorem expect : Runs (Parser.expect k) s σ s' post :=
  ⟨_, σ, expect_eq_ok.2 ⟨htakes.kind, rfl, (htakes.withScopes σ).next⟩, h⟩

theorem expectOr (message : String) : Runs (Parser.expectOr k message) s σ s' post :=
  ⟨_, σ, expectOr_eq_ok.2 ⟨htakes.kind, rfl, (htakes.withScopes σ).next⟩, h⟩

end Tokens

/-- A number that fits a word is read from a token. -/
theorem wordOf {t : Token} {n : Nat} {post : Nat → Scopes → Prop}
    (hword : Text.word? t.text = some n) (h : post n σ) : Runs (Parser.wordOf t) s σ s post :=
  ⟨n, σ, wordOf_eq_ok.2 ⟨hword, rfl⟩, h⟩

end Runs

/-! ## Lists -/

/-- An expression that ends in front of the state does not go on there. -/
def State.Stops (s : State) : Prop := Grammar.full.trailing.lookup s.current.kind = none

/-- A token that begins no trailing form ends an expression. -/
theorem State.Takes.stops {k : Kind} {s s' : State} (h : s.Takes k s')
    (hk : Grammar.full.trailing.lookup k = none) : s.Stops := by
  rw [Stops, h.kind]
  exact hk

section Lists

variable {α : Type}

/-- Wherever the lexemes stand, with at most so many tokens left and nothing behind them that
    goes on with an expression, the reader gives a result with the property. -/
def Yields (p : Parser α) (bound : Nat) (ws : List Lexeme) (σ : Scopes)
    (post : α → Scopes → Prop) : Prop :=
  ∀ s s' : State, s.Shows ws s' → s.remaining ≤ bound → s'.Stops → Runs p s σ s' post

/-- What is known of the result may be weakened. -/
theorem Yields.mono {p : Parser α} {bound : Nat} {ws : List Lexeme} {σ : Scopes}
    {post post' : α → Scopes → Prop} (h : Yields p bound ws σ post)
    (himp : ∀ a σ', post a σ' → post' a σ') : Yields p bound ws σ post' :=
  fun s s' hshows hbound hstops => (h s s' hshows hbound hstops).mono himp

/-- On places that show the lexemes of items, the reader of an item gives results one after
    the other, with the property of the list of them. -/
def YieldsAll (p : Parser α) (bound : Nat) :
    List (List Lexeme) → Scopes → (List α → Scopes → Prop) → Prop
  | [], σ, post => post [] σ
  | ws :: wss, σ, post =>
    Yields p bound ws σ fun a σ₁ => YieldsAll p bound wss σ₁ fun as σ' => post (a :: as) σ'

/-- What is known of the results may be weakened. -/
theorem YieldsAll.mono {p : Parser α} {bound : Nat} {wss : List (List Lexeme)} {σ : Scopes}
    {post post' : List α → Scopes → Prop} (h : YieldsAll p bound wss σ post)
    (himp : ∀ as σ', post as σ' → post' as σ') : YieldsAll p bound wss σ post' := by
  induction wss generalizing σ post post' with
  | nil => exact himp _ _ h
  | cons ws wss ih =>
    exact Yields.mono h fun a σ₁ hrest => ih hrest fun as σ' => himp (a :: as) σ'

/-- The list ends where the closing token is. -/
private theorem itemsBefore_nil {p : Parser α} {close : Kind} {s : State} {σ : Scopes}
    {post : List α → Scopes → Prop} (hk : s.current.kind = close) (h : post [] σ) (fuel : Nat) :
    Runs (itemsBefore close p fuel) s σ s post := by
  cases fuel with
  | zero => exact .pure h
  | succ fuel =>
    refine Runs.bind (.kind ?_)
    rw [if_pos hk]
    exact .pure h

/-- An item is read, and after it the others or none. -/
private theorem itemsBefore_cons {p : Parser α} {bound fuel : Nat} {close : Kind} {s s₁ s' : State}
    {σ : Scopes} {post : List α → Scopes → Prop} {u : List Lexeme} (hu : s.Shows u s₁)
    (hhead : ∃ w us, u = w :: us ∧ w.kind ≠ close) (hbound : s.remaining ≤ bound)
    (hstops : s₁.Stops)
    (h : Yields p bound u σ fun a σ₁ => Runs (do
      if (← Parser.kind) = .comma then
        let _ ← Parser.advance
        return a :: (← itemsBefore close p fuel)
      else return [a]) s₁ σ₁ s' post) :
    Runs (itemsBefore close p (fuel + 1)) s σ s' post := by
  obtain ⟨w, us, rfl, hw⟩ := hhead
  refine Runs.bind (.kind ?_)
  -- the first token of an item does not close the list
  obtain ⟨_, htakes, -⟩ := id hu
  rw [if_neg (by rwa [htakes.kind])]
  exact .bind (h s s₁ hu hbound hstops)

/-- Items with commas between them are read one after the other, up to the closing token. The fuel
    is enough, since each item has a token. -/
private theorem itemsBefore_run {p : Parser α} {bound : Nat} {close : Kind}
    (hcomma : close ≠ .comma) (hclose : Grammar.full.trailing.lookup close = none)
    {wss : List (List Lexeme)} {w : List Lexeme} (hlist : Commas wss w)
    (hheads : ∀ ws ∈ wss, ∃ w us, ws = w :: us ∧ w.kind ≠ close)
    {σ : Scopes} {post : List α → Scopes → Prop} (h : YieldsAll p bound wss σ post)
    {s s' : State} (hshows : s.Shows w s') (hk : s'.current.kind = close)
    (hbound : s.remaining ≤ bound) {fuel : Nat} (hfuel : s.remaining ≤ fuel) :
    Runs (itemsBefore close p fuel) s σ s' post := by
  have hpos := s.remaining_pos
  induction hlist generalizing s fuel σ post with
  | nil =>
    -- no items: the closing token stands next
    obtain rfl := hshows
    exact itemsBefore_nil hk h fuel
  | last =>
    -- the last item, with the closing token behind it
    obtain ⟨fuel, rfl⟩ : ∃ f, fuel = f + 1 := ⟨fuel - 1, by omega⟩
    have hstops : s'.Stops := by rw [State.Stops, hk, hclose]
    refine itemsBefore_cons hshows (hheads _ (by simp)) hbound hstops (Yields.mono h ?_)
    intro a σ' hpost
    refine Runs.bind (.kind ?_)
    rw [if_neg (by rwa [hk])]
    exact .pure hpost
  | more _ ih =>
    -- an item with a comma behind it
    obtain ⟨fuel, rfl⟩ : ∃ f, fuel = f + 1 := ⟨fuel - 1, by omega⟩
    obtain ⟨hhead, hlater⟩ := List.forall_mem_cons.1 hheads
    obtain ⟨s₁, hitem, s₂, htakes, -, hrest⟩ := State.shows_append.1 hshows
    refine itemsBefore_cons hitem hhead hbound (htakes.stops rfl) (Yields.mono h ?_)
    intro a σ₁ hall
    have hcount := hitem.remaining
    have hcount' := htakes.remaining
    have hk : s₁.current.kind = .comma := htakes.kind
    refine Runs.bind (.kind ?_)
    rw [if_pos hk]
    have hless : s₂.remaining ≤ fuel := by omega
    have hothers := ih hlater hall hrest (by omega) hless s₂.remaining_pos
    exact Runs.bind (.advance htakes (.bind (hothers.mono fun as σ' hpost => .pure hpost)))

/-- A list of items with commas between is read up to the closing token. -/
theorem listTo_run {p : Parser α} {bound : Nat} {close : Kind} (hcomma : close ≠ .comma)
    (hclose : Grammar.full.trailing.lookup close = none) {wss : List (List Lexeme)}
    {w : List Lexeme} (hlist : Commas wss w)
    (hheads : ∀ ws ∈ wss, ∃ w us, ws = w :: us ∧ w.kind ≠ close) {σ : Scopes}
    {post : List α → Scopes → Prop} (h : YieldsAll p bound wss σ post) {s s₁ s' : State}
    (hshows : s.Shows w s₁) (hends : s₁.Takes close s') (hbound : s.remaining ≤ bound) :
    Runs (listTo close p) s σ s' post := by
  have hitems := itemsBefore_run hcomma hclose hlist hheads h hshows hends.kind hbound
    (Nat.le_refl _)
  refine Runs.bind (.get (.bind (hitems.mono ?_)))
  intro as σ' hpost
  exact .bind (.expect hends (.pure hpost))

end Lists

end BranchIR
