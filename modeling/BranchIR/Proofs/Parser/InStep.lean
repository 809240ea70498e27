import BranchIR.Parser.Basic
import BranchIR.Proofs.Parser.Renaming
import BranchIR.Proofs.Token.Lexemes
import Mathlib.Data.List.Forall2

/-!
# Two runs in step

A comparison says in what the tokens of two runs may differ: identifiers may have other names in
the second run, and spans may be different. Two states are alike when their tokens match one by
one and their scopes are the same under the new names. Two parsers run in step when, from states
that are alike, both succeed with related results in states that are alike, or both refuse a place
where matching tokens begin, for the same cause or, where names differ, for one of the same kind.
-/

namespace BranchIR

variable {α β γ δ : Type}

/-! ## What is compared -/

/-- In what the tokens of two runs may differ. -/
structure Comparison where
  /-- What is known of the tokens of the first run. -/
  known : Token → Prop
  /-- What the second run has for an identifier of the first. -/
  rename : String → String
  /-- Whether the spans are the same. -/
  spans : Bool
  rename_injective : Function.Injective rename
  /-- Words for types keep their meaning, and other words do not become such words. -/
  ofWord?_rename : ∀ word, Ty.ofWord? (rename word) = Ty.ofWord? word
  /-- So does the word between the length and the type. -/
  rename_times : rename "x" = "x"

namespace Comparison

variable (c : Comparison)

/-- What counts of a span. -/
def span (s : Span) : Option Span := if c.spans then some s else none

/-- The places are the same, if spans are. -/
def SamePlace (p p' : Position) : Prop := c.spans = true → p = p'

/-- The name is the text of an identifier of the first run. -/
def Named (name : String) : Prop := ∃ t, c.known t ∧ t.kind = .identifier ∧ t.text = name

/-- Some name is another one in the second run. -/
def Renames : Prop := ∃ name, c.rename name ≠ name

/-- The texts are the same, unless names differ. -/
def SameText (text text' : String) : Prop := text = text' ∨ c.Renames

/-- The causes are the same or, where names differ, of one kind. -/
def SameCause (cause cause' : Cause) : Prop :=
  cause = cause' ∨ c.Renames ∧ cause.name = cause'.name

variable {c}

/-- Spans are compared by the runs only if places count. -/
theorem span_eq_iff {s s' : Span} : c.span s = c.span s' ↔ (c.spans = true → s = s') := by
  unfold span
  cases c.spans <;> simp

/-- What is made of a name is the same text up to its new name. -/
theorem sameText_rename (f : String → String) (name : String) :
    c.SameText (f name) (f (c.rename name)) := by
  by_cases h : c.rename name = name
  · exact .inl (by rw [h])
  · exact .inr ⟨name, h⟩

/-- Causes of one class that are made of such texts are the same. -/
theorem SameCause.of_text {f : String → Cause} (hname : ∀ a b, (f a).name = (f b).name)
    {text text' : String} (h : c.SameText text text') : c.SameCause (f text) (f text') := by
  rcases h with rfl | hrenames
  · exact .inl rfl
  · exact .inr ⟨hrenames, hname text text'⟩

/-- A token that is not the expected one is refused for the same cause. -/
private theorem SameCause.unexpectedAs {text text' message message' : String}
    (h : c.SameText text text') (hmessage : c.SameText message message') :
    c.SameCause (.unexpectedAs text message) (.unexpectedAs text' message') := by
  rcases h with rfl | hrenames
  · exact .of_text (fun _ _ => rfl) hmessage
  · exact .inr ⟨hrenames, rfl⟩

end Comparison

variable {c : Comparison}

/-- The tokens are of one kind, with the same text or, if they are identifiers, with the name and
    the new name. -/
structure Token.Matches (c : Comparison) (t t' : Token) : Prop where
  kind : t.kind = t'.kind
  name : t.kind = .identifier → t'.text = c.rename t.text
  text : t.kind ≠ .identifier → t'.text = t.text
  span : c.span t.span = c.span t'.span
  known : c.known t

/-- The tokens match and are of the kind. -/
structure Token.MatchesAs (c : Comparison) (k : Kind) (t t' : Token) : Prop
    extends Token.Matches c t t' where
  kind_eq : t.kind = k

/-- Two places where matching tokens begin. -/
def Firsts (c : Comparison) (p p' : Position) : Prop :=
  ∃ t t', Token.Matches c t t' ∧ p = t.span.first ∧ p' = t'.span.first

/-- Places where tokens begin are the same, as far as places are compared. -/
theorem Firsts.samePlace {p p' : Position} (h : Firsts c p p') : c.SamePlace p p' := by
  obtain ⟨t, t', ht, rfl, rfl⟩ := h
  exact fun hspans => congrArg Span.first (Comparison.span_eq_iff.1 ht.span hspans)

namespace Token.Matches

variable {t t' : Token}

theorem firsts (h : Matches c t t') : Firsts c t.span.first t'.span.first := ⟨t, t', h, rfl, rfl⟩

theorem samePlace (h : Matches c t t') : c.SamePlace t.span.first t'.span.first :=
  h.firsts.samePlace

/-- Tokens that match have the same text up to a name. -/
theorem sameText (h : Matches c t t') : c.SameText t.text t'.text := by
  by_cases hk : t.kind = .identifier
  · rw [h.name hk]
    exact Comparison.sameText_rename id t.text
  · exact .inl (h.text hk).symm

/-- Matching tokens are words for the same type. -/
theorem ofWord?_eq (h : Matches c t t') : Ty.ofWord? t'.text = Ty.ofWord? t.text := by
  by_cases hk : t.kind = .identifier
  · rw [h.name hk, c.ofWord?_rename]
  · rw [h.text hk]

/-- The `x` of a type stands where it stands in the other run, since no name becomes one. -/
theorem eq_times_iff (h : Matches c t t') : t'.text = "x" ↔ t.text = "x" := by
  by_cases hk : t.kind = .identifier
  · rw [h.name hk]
    constructor
    · intro htimes
      exact c.rename_injective (htimes.trans c.rename_times.symm)
    · intro htimes
      rw [htimes, c.rename_times]
  · rw [h.text hk]

end Token.Matches

namespace Token.MatchesAs

variable {k : Kind} {t t' : Token}

/-- Only the texts of identifiers may differ. -/
theorem text_eq (h : MatchesAs c k t t') (hk : k ≠ .identifier) : t'.text = t.text :=
  h.text (h.kind_eq ▸ hk)

/-- The name of an identifier is the renamed one. -/
theorem name_eq (h : MatchesAs c .identifier t t') : t'.text = c.rename t.text :=
  h.name h.kind_eq

theorem named (h : MatchesAs c .identifier t t') : c.Named t.text := ⟨t, h.known, h.kind_eq, rfl⟩

end Token.MatchesAs

/-- Two states have matching tokens, and the same scopes under the new names. -/
structure State.Alike (c : Comparison) (s s' : State) : Prop where
  behind : List.Forall₂ (Token.Matches c) s.behind s'.behind
  current : Token.Matches c s.current s'.current
  after : List.Forall₂ (Token.Matches c) s.after s'.after
  scopes : s'.scopes = s.scopes.rename c.rename
  named : ∀ name ∈ s.scopes.names, c.Named name

/-- Both runs succeed with related results in states that are alike, or both fail where matching
    tokens begin. -/
inductive SameResult (c : Comparison) (R : α → β → Prop) :
    EStateM.Result Error State α → EStateM.Result Error State β → Prop
  | ok {a b s s'} (related : R a b) (alike : State.Alike c s s') :
      SameResult c R (.ok a s) (.ok b s')
  | error {e e' : Error} {s s'} (cause : c.SameCause e.cause e'.cause)
      (places : Firsts c e.position e'.position) : SameResult c R (.error e s) (.error e' s')

/-- From states that are alike, both parsers have the same result. -/
def InStep (c : Comparison) (R : α → β → Prop) (p : Parser α) (q : Parser β) : Prop :=
  ∀ s s', State.Alike c s s' → SameResult c R (p s) (q s')

/-- They have where the current tokens are of the kind. -/
def InStepAt (c : Comparison) (k : Kind) (R : α → β → Prop) (p : Parser α) (q : Parser β) :
    Prop :=
  ∀ s s', State.Alike c s s' → s.current.kind = k → SameResult c R (p s) (q s')

/-- Two values have the same image. -/
abbrev Same (f : α → β) (a a' : α) : Prop := f a = f a'

/-! ## States that are alike -/

namespace State.Alike

variable {s s' : State}

/-- States in step have equally many tokens left. -/
theorem remaining_eq (h : Alike c s s') : s.remaining = s'.remaining := by
  rw [remaining, remaining, h.after.length_eq]

/-- States that are alike stay alike behind the next token. -/
private theorem next (h : Alike c s s') : Alike c s.next s'.next := by
  obtain ⟨behind, current, after, scopes⟩ := s
  obtain ⟨behind', current', after', scopes'⟩ := s'
  obtain ⟨hbehind, hcurrent, hafter, hscopes, hnamed⟩ := h
  cases hafter with
  | nil => exact ⟨hbehind, hcurrent, .nil, hscopes, hnamed⟩
  | cons hfirst hrest => exact ⟨.cons hcurrent hbehind, hfirst, hrest, hscopes, hnamed⟩

/-- States that are alike stay alike when both open a scope. -/
private theorem push (h : Alike c s s') :
    Alike c { s with scopes := s.scopes.push } { s' with scopes := s'.scopes.push } :=
  ⟨h.behind, h.current, h.after, by rw [h.scopes, Scopes.push_rename], h.named⟩

/-- States that are alike stay alike when both close a scope. -/
private theorem pop (h : Alike c s s') :
    Alike c { s with scopes := s.scopes.pop } { s' with scopes := s'.scopes.pop } := by
  refine ⟨h.behind, h.current, h.after, by rw [h.scopes, Scopes.pop_rename], ?_⟩
  have hnames : s.scopes.pop.names = s.scopes.names := by
    unfold Scopes.pop
    split <;> rfl
  exact hnames ▸ h.named

/-- States that are alike stay alike when a name and its new name are bound. -/
private theorem bind {name : String} (h : Alike c s s') (hname : c.Named name) :
    Alike c { s with scopes := (s.scopes.bind name).2 }
      { s' with scopes := (s'.scopes.bind (c.rename name)).2 } := by
  refine ⟨h.behind, h.current, h.after, by rw [h.scopes, Scopes.bind_rename], ?_⟩
  intro other hother
  rcases Array.mem_push.1 hother with hother | rfl
  · exact h.named other hother
  · exact hname

end State.Alike

/-! ## Where the kind of the current token is known -/

namespace InStepAt

variable {k : Kind} {S : γ → δ → Prop}

private theorem advance : InStepAt c k (Token.MatchesAs c k) Parser.advance Parser.advance :=
  fun _ _ hs hk => .ok ⟨hs.current, hk⟩ hs.next

/-- What follows the current token may use that the token is of the kind. -/
theorem advanceThen {f : Token → Parser γ} {g : Token → Parser δ}
    (hrest : ∀ t t', Token.MatchesAs c k t t' → InStep c S (f t) (g t')) :
    InStepAt c k S (Parser.advance >>= f) (Parser.advance >>= g) :=
  fun _ _ hs hk => hrest _ _ ⟨hs.current, hk⟩ _ _ hs.next

end InStepAt

namespace InStep

variable {R : α → β → Prop} {S : γ → δ → Prop} {k : Kind}

/-- What runs in step runs in step at any kind of token. -/
theorem atKind {p : Parser α} {q : Parser β} (h : InStep c R p q) : InStepAt c k R p q :=
  fun s s' hs _ => h s s' hs

/-! ## Chains -/

theorem pure {a : α} {b : β} (h : R a b) : InStep c R (Pure.pure a) (Pure.pure b) :=
  fun _ _ hs => .ok h hs

/-- A chain runs in step when its first parsers do, and the rest does on related results. -/
theorem bind {p : Parser α} {q : Parser β} {f : α → Parser γ} {g : β → Parser δ}
    (h : InStep c R p q) (hrest : ∀ a b, R a b → InStep c S (f a) (g b)) :
    InStep c S (p >>= f) (q >>= g) := by
  intro s s' hs
  show SameResult c S (EStateM.bind p f s) (EStateM.bind q g s')
  unfold EStateM.bind
  have hfirst := h s s' hs
  generalize p s = r at hfirst
  generalize q s' = r' at hfirst
  cases hfirst with
  | ok related alike => exact hrest _ _ related _ _ alike
  | error cause places => exact .error cause places

/-- What is said of the two results may be weakened. -/
theorem mono {R' : α → β → Prop} {p : Parser α} {q : Parser β} (h : InStep c R p q)
    (hR : ∀ a b, R a b → R' a b) : InStep c R' p q := by
  intro s s' hs
  have hresult := h s s' hs
  generalize p s = r at hresult
  generalize q s' = r' at hresult
  cases hresult with
  | ok related alike => exact .ok (hR _ _ related) alike
  | error cause places => exact .error cause places

/-! ## Single steps -/

theorem get : InStep c (State.Alike c) (MonadState.get : Parser State) MonadState.get :=
  fun _ _ hs => .ok hs hs

private theorem current : InStep c (Token.Matches c) Parser.current Parser.current :=
  fun _ _ hs => .ok hs.current hs

theorem kind : InStep c Eq Parser.kind Parser.kind :=
  fun _ _ hs => .ok hs.current.kind hs

/-- What follows a look at the kind may use that the current token is of the kind. -/
theorem kindThen {f : Kind → Parser γ} {g : Kind → Parser δ}
    (hrest : ∀ k, InStepAt c k S (f k) (g k)) :
    InStep c S (Parser.kind >>= f) (Parser.kind >>= g) := by
  intro s s' hs
  have hresult := hrest _ s s' hs rfl
  show SameResult c S (f s.current.kind s) (g s'.current.kind s')
  rwa [← hs.current.kind]

theorem position : InStep c (Firsts c) Parser.position Parser.position :=
  fun _ _ hs => .ok hs.current.firsts hs

theorem advance : InStep c (Token.Matches c) Parser.advance Parser.advance :=
  fun _ _ hs => .ok hs.current hs.next

/-- The spans from one place on are the same, if spans are. -/
theorem spanFrom {start start' : Position} (h : c.SamePlace start start') :
    InStep c (Same c.span) (Parser.spanFrom start) (Parser.spanFrom start') := by
  refine fun s s' hs => .ok (Comparison.span_eq_iff.2 fun hspans => ?_) hs
  obtain rfl := h hspans
  unfold State.spanFrom
  have hbehind := hs.behind
  generalize s.behind = ts at hbehind
  generalize s'.behind = ts' at hbehind
  cases hbehind with
  | nil => rfl
  | cons ht _ =>
    dsimp only
    rw [Comparison.span_eq_iff.1 ht.span hspans]

/-- Binding a name is in step with binding its new name: both get one identity. -/
theorem bindName {name : String} (h : c.Named name) :
    InStep c Eq (Parser.bindName name) (Parser.bindName (c.rename name)) := by
  intro s s' hs
  have hid : (s.scopes.bind name).1 = (s'.scopes.bind (c.rename name)).1 := by
    rw [hs.scopes, Scopes.bind_rename]
  exact .ok hid (hs.bind h)

/-- Failing is in step for the same cause at the same place. -/
theorem throw {cause cause' : Cause} {p p' : Position} (hcause : c.SameCause cause cause')
    (h : Firsts c p p') :
    InStep c R (MonadExcept.throw ⟨cause, p⟩) (MonadExcept.throw ⟨cause', p'⟩) :=
  fun _ _ _ => .error hcause h

/-- A run in a scope of its own is in step. -/
theorem inScope {p : Parser α} {q : Parser β} (h : InStep c R p q) :
    InStep c R (Parser.inScope p) (Parser.inScope q) := by
  intro s s' hs
  unfold Parser.inScope
  have hinner := h _ _ hs.push
  generalize p { s with scopes := s.scopes.push } = r at hinner
  generalize q { s' with scopes := s'.scopes.push } = r' at hinner
  cases hinner with
  | ok related alike => exact .ok related alike.pop
  | error cause places => exact .error cause places

section Tokens

variable {t t' : Token}

/-- Tokens that match are refused in step. -/
theorem refuseToken (h : Token.Matches c t t') {message message' : String}
    (hmessage : c.SameText message message') :
    InStep c R (Parser.refuseToken t message) (Parser.refuseToken t' message') :=
  .throw (.unexpectedAs h.sameText hmessage) h.firsts

/-- The next token is refused in step. -/
theorem unexpected {message message' : String} (hmessage : c.SameText message message') :
    InStep c R (Parser.unexpected message) (Parser.unexpected message') :=
  .bind .current fun _ _ ht => .refuseToken ht hmessage

/-- Expecting a kind is in step, with a message of its own. -/
theorem expectOr (k : Kind) (message : String) :
    InStep c (Token.MatchesAs c k) (Parser.expectOr k message) (Parser.expectOr k message) := by
  refine .kindThen fun k₁ => ?_
  split
  · next hk =>
    subst hk
    exact .advance
  · exact atKind (.unexpected (.inl rfl))

/-- Expecting a kind is in step. -/
theorem expect (k : Kind) : InStep c (Token.Matches c) (Parser.expect k) (Parser.expect k) := by
  refine .bind .current fun t t' ht => ?_
  rw [← ht.kind]
  split
  · exact .advance
  · exact .throw (.of_text (fun _ _ => rfl) ht.sameText) ht.firsts

/-- A name is looked up in step: it leads to one identity in both runs, or to none. -/
theorem resolve (h : Token.MatchesAs c .identifier t t') :
    InStep c Eq (Parser.resolve t.text t.span.first) (Parser.resolve t'.text t'.span.first) := by
  refine .bind .get fun s s' hs => ?_
  rw [hs.scopes, h.name_eq, Scopes.resolve, Scopes.resolve,
    Scopes.find?_rename c.rename_injective]
  cases s.scopes.find? t.text with
  | some id => exact .pure rfl
  | none => exact .throw (.of_text (fun _ _ => rfl) (Comparison.sameText_rename id _)) h.firsts

/-- The number of a token is read in step, since numbers are not renamed. -/
theorem wordOf (h : Token.MatchesAs c k t t') (hk : k ≠ .identifier) :
    InStep c Eq (Parser.wordOf t) (Parser.wordOf t') := by
  rw [Parser.wordOf, Parser.wordOf, h.text_eq hk]
  cases Text.word? t.text with
  | some n => exact .pure rfl
  | none => exact .throw (.inl rfl) h.firsts

end Tokens

/-! ## Lists -/

section Lists

variable {f : α → β} {item : Parser α} {close : Kind}

/-- Items before a closing token are read in step if each of them is. -/
private theorem itemsBefore (h : InStep c (Same f) item item) (fuel : Nat) :
    InStep c (Same (List.map f)) (Parser.itemsBefore close item fuel)
      (Parser.itemsBefore close item fuel) := by
  induction fuel with
  | zero => exact .pure rfl
  | succ fuel ih =>
    refine .bind .kind fun k _ hk => ?_
    subst hk
    split
    · exact .pure rfl
    · refine .bind h fun a a' ha => .bind .kind fun k _ hk => ?_
      subst hk
      have hhead : f a = f a' := ha
      split
      · -- more items may follow the comma
        refine .bind .advance fun _ _ _ => .bind ih fun as as' has => .pure ?_
        have htail : as.map f = as'.map f := has
        simp [Same, hhead, htail]
      · exact .pure (by simp [Same, hhead])

/-- Lists run in step when their items do. -/
theorem listTo (h : InStep c (Same f) item item) :
    InStep c (Same (List.map f)) (Parser.listTo close item) (Parser.listTo close item) := by
  refine .bind .get fun s s' hs => ?_
  rw [hs.remaining_eq]
  exact .bind (itemsBefore h _) fun _ _ hitems => .bind (.expect close) fun _ _ _ => .pure hitems

end Lists

end InStep

end BranchIR
