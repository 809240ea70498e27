import BranchIR.Parser.Basic

/-!
# What a successful read consists of

A reader is a chain of steps on a state. For every single step one lemma says exactly when it
succeeds, with what, and in which state it ends, so that the proof about a reader takes the
chain apart step by step.
-/

namespace BranchIR

namespace Parser

variable {α β : Type} {s s' : State}

/-- A chain of two steps succeeds when both steps do. -/
theorem bind_eq_ok {p : Parser α} {f : α → Parser β} {b : β} :
    (p >>= f) s = .ok b s' ↔ ∃ a s₁, p s = .ok a s₁ ∧ f a s₁ = .ok b s' := by
  show EStateM.bind p f s = .ok b s' ↔ _
  unfold EStateM.bind
  cases p s with
  | ok a s₁ =>
    constructor
    · intro h
      exact ⟨a, s₁, rfl, h⟩
    · intro ⟨_, _, heq, h⟩
      cases heq
      exact h
  | error e s₁ => simp

theorem pure_eq_ok {a b : α} : (pure a : Parser α) s = .ok b s' ↔ a = b ∧ s = s' := by
  show EStateM.Result.ok a s = .ok b s' ↔ _
  simp

theorem get_eq_ok {t : State} : (get : Parser State) s = .ok t s' ↔ s = t ∧ s = s' := by
  show EStateM.Result.ok s s = .ok t s' ↔ _
  simp

/-- A failure is no success. -/
theorem throw_ne_ok {e : Error} {a : α} : (throw e : Parser α) s ≠ .ok a s' := by
  show EStateM.Result.error e s ≠ .ok a s'
  simp

/-- To look at the next token changes nothing. -/
private theorem current_eq_ok {t : Token} : current s = .ok t s' ↔ s.current = t ∧ s = s' := by
  show EStateM.Result.ok s.current s = .ok t s' ↔ _
  simp

/-- To look at the next kind changes nothing. -/
theorem kind_eq_ok {k : Kind} : kind s = .ok k s' ↔ s.current.kind = k ∧ s = s' := by
  show EStateM.Result.ok s.current.kind s = .ok k s' ↔ _
  simp

/-- To ask for the place changes nothing. -/
theorem position_eq_ok {pos : Position} : position s = .ok pos s' ↔ s.position = pos ∧ s = s' := by
  show EStateM.Result.ok s.position s = .ok pos s' ↔ _
  simp

/-- To ask for a span changes nothing. -/
theorem spanFrom_eq_ok {start : Position} {span : Span} :
    spanFrom start s = .ok span s' ↔ s.spanFrom start = span ∧ s = s' := by
  show EStateM.Result.ok (s.spanFrom start) s = .ok span s' ↔ _
  simp

/-- To advance gives the next token and leaves the state behind it. -/
theorem advance_eq_ok {t : Token} : advance s = .ok t s' ↔ s.current = t ∧ s.next = s' := by
  show EStateM.Result.ok s.current s.next = .ok t s' ↔ _
  simp

theorem refuseToken_ne_ok {t : Token} {message : String} {a : α} :
    refuseToken t message s ≠ .ok a s' :=
  throw_ne_ok

/-- To refuse the next token gives no result. -/
theorem unexpected_ne_ok {message : String} {a : α} : unexpected message s ≠ .ok a s' := by
  rw [unexpected, Ne, bind_eq_ok]
  intro ⟨t, s₁, _, h⟩
  exact refuseToken_ne_ok h

/-- An expected token is taken exactly if it has the kind. -/
theorem expect_eq_ok {k : Kind} {t : Token} :
    expect k s = .ok t s' ↔ s.current.kind = k ∧ s.current = t ∧ s.next = s' := by
  simp only [expect, bind_eq_ok, current_eq_ok]
  constructor
  · intro ⟨_, _, ⟨rfl, rfl⟩, h⟩
    split at h
    · next hk => exact ⟨hk, advance_eq_ok.1 h⟩
    · exact absurd h throw_ne_ok
  · intro ⟨hk, h⟩
    exact ⟨_, _, ⟨rfl, rfl⟩, by simpa [hk] using advance_eq_ok.2 h⟩

/-- An expected token is taken exactly if it has the kind, whatever the message. -/
theorem expectOr_eq_ok {k : Kind} {message : String} {t : Token} :
    expectOr k message s = .ok t s' ↔ s.current.kind = k ∧ s.current = t ∧ s.next = s' := by
  simp only [expectOr, bind_eq_ok, kind_eq_ok]
  constructor
  · intro ⟨_, _, ⟨rfl, rfl⟩, h⟩
    split at h
    · next hk => exact ⟨hk, advance_eq_ok.1 h⟩
    · exact absurd h unexpected_ne_ok
  · intro ⟨hk, h⟩
    exact ⟨_, _, ⟨rfl, rfl⟩, by simpa [hk] using advance_eq_ok.2 h⟩

/-- To bind a name gives it the next identity. -/
theorem bindName_eq_ok {name : String} {id : VarId} :
    bindName name s = .ok id s' ↔
      id = s.scopes.size ∧ s' = { s with scopes := (s.scopes.bind name).2 } := by
  show EStateM.Result.ok s.scopes.size { s with scopes := (s.scopes.bind name).2 } = .ok id s' ↔ _
  simp [eq_comm]

/-- A name is resolved exactly if the scopes hold it; this changes nothing. -/
theorem resolve_eq_ok {name : String} {use : Position} {id : VarId} :
    resolve name use s = .ok id s' ↔ s.scopes.find? name = some id ∧ s = s' := by
  simp only [resolve, bind_eq_ok, get_eq_ok, Scopes.resolve]
  constructor
  · intro ⟨_, _, ⟨rfl, rfl⟩, h⟩
    -- a name that is not in scope is refused
    cases hfind : s.scopes.find? name with
    | none =>
      rw [hfind] at h
      exact absurd h throw_ne_ok
    | some id' =>
      rw [hfind] at h
      obtain ⟨rfl, rfl⟩ := pure_eq_ok.1 h
      exact ⟨rfl, rfl⟩
  · intro ⟨hfind, hs⟩
    refine ⟨s, s, ⟨rfl, rfl⟩, ?_⟩
    rw [hfind, ← hs]
    rfl

/-- A run in a scope of its own opens one before and closes it behind. -/
theorem inScope_eq_ok {p : Parser α} {a : α} :
    inScope p s = .ok a s' ↔
      ∃ s₁, p { s with scopes := s.scopes.push } = .ok a s₁ ∧
        s' = { s₁ with scopes := s₁.scopes.pop } := by
  unfold inScope
  cases p { s with scopes := s.scopes.push } with
  | ok b s₁ =>
    constructor
    · intro h
      cases h
      exact ⟨s₁, rfl, rfl⟩
    · intro ⟨_, heq, h⟩
      cases heq
      rw [h]
  | error e s₁ => simp

/-- The number of a token is the one that its text spells within a word. -/
theorem wordOf_eq_ok {t : Token} {n : Nat} :
    wordOf t s = .ok n s' ↔ Text.word? t.text = some n ∧ s = s' := by
  unfold wordOf
  cases Text.word? t.text with
  | none => simp [throw_ne_ok]
  | some n => simp [pure_eq_ok]

end Parser

end BranchIR
