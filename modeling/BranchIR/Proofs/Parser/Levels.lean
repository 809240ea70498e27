import BranchIR.Proofs.Parser.Restored

/-!
# Reading level by level

An expression or a type that stands in another is one level deeper, and stands behind a token that
the outer one begins with. So there are no more levels than tokens remain: a reader that may go so
deep reads what it has to, whatever is put in the place of the levels below.
-/

namespace BranchIR

open BranchIR.Parser

variable {α β : Type} {n m : Nat} {s : State}

/-! ## Levels -/

namespace Grammar

variable (g : Grammar)

/-- Reads a type, with `sub` for the types inside it. -/
def tyLevel (sub : Parser Ty) : Parser Ty := do
  match g.types.lookup (← kind) with
  | some form => form.read sub
  | none => unexpected "expected a type"

/-- Reads an expression, with `sub` for the expressions inside it. -/
def exprLevel (bp : BindingPower) (sub : Parser (Exp Span)) : Parser (Exp Span) :=
  match bp with
  | .loose => do
    let first ← g.head sub
    g.trail sub (← get).remaining first
  | .trailing => g.head sub

end Grammar

/-- Reads `n` levels, one inside the other, and `out` below them. -/
def Parser.levels (level : Parser α → Parser α) (out : Parser α) : (n : Nat) → Parser α
  | 0 => out
  | n + 1 => level (levels level out n)

/-- So many levels of types are what is read at this depth. -/
private theorem levels_tyLevel (g : Grammar) (n : Nat) :
    levels g.tyLevel (unexpected "expected a type") n = g.tyAt n := by
  induction n with
  | zero => rfl
  | succ n ih =>
    rw [levels, ih]
    rfl

/-- One level more of expressions is read by the level below. -/
private theorem exprLevel_exprAt (g : Grammar) (bp : BindingPower) (n : Nat) :
    g.exprLevel bp (g.exprAt n .loose) = g.exprAt (n + 1) bp := by
  cases bp <;> rfl

/-- So many levels of expressions are what is read at this depth. -/
private theorem levels_exprLevel (g : Grammar) (n : Nat) :
    levels (g.exprLevel .loose) (unexpected "expected an expression") n = g.exprAt n .loose := by
  induction n with
  | zero => rfl
  | succ n ih => rw [levels, ih, exprLevel_exprAt]

/-! ## Parsers that agree -/

/-- No more tokens remain than before. -/
def Shrinks (s s' : State) : Prop := s'.remaining ≤ s.remaining

/-- Every token that is taken leaves fewer tokens. -/
private theorem moves_shrinks : Moves Shrinks where
  refl _ := Nat.le_refl _
  trans h h' := Nat.le_trans h' h
  next := State.remaining_next_le

/-- What has shrunk stays so, whatever is read after it. -/
private theorem lasting_shrinks : Lasting Shrinks Shrinks where
  outer := moves_shrinks
  inner := moves_shrinks
  weaken h := h
  bind _ _ := Nat.le_refl _
  leave h := h

/-- The runs come to the same and, unless they fail, end where at most `n` tokens remain. -/
inductive SameWithin (n : Nat) :
    EStateM.Result Error State α → EStateM.Result Error State α → Prop
  | ok {a s'} (ended : s'.Ended) (few : s'.remaining ≤ n) : SameWithin n (.ok a s') (.ok a s')
  | error {e s'} : SameWithin n (.error e s') (.error e s')

/-- The parsers come to the same wherever at most `n` tokens remain. -/
def AgreeUpTo (n : Nat) (p q : Parser α) : Prop :=
  ∀ s, s.Ended → s.remaining ≤ n → SameWithin s.remaining (p s) (q s)

namespace SameWithin

/-- Results that are the same with some tokens left are the same. -/
theorem eq {r r' : EStateM.Result Error State α} (h : SameWithin n r r') : r = r' := by
  cases h <;> rfl

/-- Runs that agree within more tokens agree within fewer. -/
private theorem mono {r r' : EStateM.Result Error State α} (h : SameWithin n r r') (hnm : n ≤ m) :
    SameWithin m r r' := by
  cases h with
  | ok ended few => exact .ok ended (Nat.le_trans few hnm)
  | error => exact .error

/-- Where the first runs agree on a state, the rest has to agree only on what they leave. -/
private theorem bind {p q : Parser α} {f g : α → Parser β} (h : SameWithin n (p s) (q s))
    (hrest : ∀ a, AgreeUpTo n (f a) (g a)) : SameWithin n ((p >>= f) s) ((q >>= g) s) := by
  show SameWithin n (EStateM.bind p f s) (EStateM.bind q g s)
  unfold EStateM.bind
  generalize p s = r at h
  generalize q s = r' at h
  cases h with
  | ok ended few => exact (hrest _ _ ended few).mono few
  | error => exact .error

end SameWithin

namespace AgreeUpTo

/-- What agrees up to a bound agrees up to a lower one. -/
private theorem mono {p q : Parser α} (h : AgreeUpTo m p q) (hnm : n ≤ m) : AgreeUpTo n p q :=
  fun s hs hn => h s hs (Nat.le_trans hn hnm)

/-- A steady parser agrees with itself. -/
private theorem of_steady {p : Parser α} (h : Steady Shrinks p) : AgreeUpTo n p p := by
  intro s hs _
  have hfares := h s hs
  generalize p s = r at hfares
  cases hfares with
  | ok keeps ended => exact .ok ended keeps
  | error => exact .error

private theorem pure (a : α) : AgreeUpTo n (Pure.pure a) (Pure.pure a) :=
  of_steady (.pure moves_shrinks a)

private theorem throw (e : Error) :
    AgreeUpTo n (MonadExcept.throw e : Parser α) (MonadExcept.throw e) :=
  fun _ _ _ => .error

private theorem unexpected (message : String) :
    AgreeUpTo n (Parser.unexpected message : Parser α) (Parser.unexpected message) :=
  fun _ _ _ => .error

/-- Chains agree when their first parsers do, and the rest does. -/
theorem bind {p q : Parser α} {f g : α → Parser β} (h : AgreeUpTo n p q)
    (hrest : ∀ a, AgreeUpTo n (f a) (g a)) : AgreeUpTo n (p >>= f) (q >>= g) :=
  fun s hs hn => (h s hs hn).bind fun a => (hrest a).mono hn

/-- Chains with the same first parser agree when the rest does. -/
private theorem step {p : Parser α} {f g : α → Parser β} (h : Steady Shrinks p)
    (hrest : ∀ a, AgreeUpTo n (f a) (g a)) : AgreeUpTo n (p >>= f) (p >>= g) :=
  (of_steady h).bind hrest

/-- To note a span is the same on both sides. -/
private theorem spanned (f : Span → α) (start : Position) :
    AgreeUpTo n (do return f (← spanFrom start)) (do return f (← spanFrom start)) :=
  .step (.spanFrom moves_shrinks start) fun _ => .pure _

/-- Runs in scopes of their own agree if the runs do: a scope is no token. -/
private theorem inScope {p q : Parser α} (h : AgreeUpTo n p q) :
    AgreeUpTo n (Parser.inScope p) (Parser.inScope q) := by
  intro s hs hn
  unfold Parser.inScope
  have hinner := h { s with scopes := s.scopes.push } hs hn
  generalize p { s with scopes := s.scopes.push } = r at hinner
  generalize q { s with scopes := s.scopes.push } = r' at hinner
  cases hinner with
  | ok ended few => exact .ok ended few
  | error => exact .error

/-- Lists agree when their items do. -/
theorem listTo {item item' : Parser α} (h : AgreeUpTo n item item') (close : Kind) :
    AgreeUpTo n (Parser.listTo close item) (Parser.listTo close item') := by
  have hM := moves_shrinks
  have hitems (fuel : Nat) :
      AgreeUpTo n (itemsBefore close item fuel) (itemsBefore close item' fuel) := by
    induction fuel with
    | zero => exact .pure _
    | succ fuel ih =>
      refine .step (.kind hM) fun k => ?_
      split
      · exact .pure _
      · refine h.bind fun first => .step (.kind hM) fun k => ?_
        split
        · exact .step (.advance hM) fun _ => ih.bind fun _ => .pure _
        · exact .pure _
  exact .step (.get hM) fun _ => (hitems _).bind fun _ => .step (.expect hM close) fun _ => .pure _

end AgreeUpTo

namespace SameWithin

/-- What follows a token is read where fewer tokens remain. -/
theorem advanceThen {f g : Token → Parser α} (hs : s.Ended)
    (hend : s.current.kind ≠ .endOfInput) (hn : s.remaining = n + 1)
    (hrest : ∀ t, AgreeUpTo n (f t) (g t)) :
    SameWithin n ((advance >>= f) s) ((advance >>= g) s) := by
  obtain rfl : s.next.remaining = n := by
    have hless := (hs.takes hend).remaining
    omega
  exact hrest s.current s.next hs.next (Nat.le_refl _)

/-- Behind a token that both take, they have to agree only within one token less. -/
private theorem expectThen {k : Kind} {f g : Token → Parser α} (hs : s.Ended)
    (hk : s.current.kind = k) (hend : k ≠ .endOfInput) (hn : s.remaining = n + 1)
    (hrest : ∀ t, AgreeUpTo n (f t) (g t)) :
    SameWithin n ((expect k >>= f) s) ((expect k >>= g) s) := by
  show SameWithin n (((if s.current.kind = k then advance else throw _) >>= f) s)
    (((if s.current.kind = k then advance else throw _) >>= g) s)
  rw [if_pos hk]
  exact advanceThen hs (hk ▸ hend) hn hrest

private theorem getThen {f g : State → Parser α} (h : SameWithin n (f s s) (g s s)) :
    SameWithin n ((get >>= f) s) ((get >>= g) s) :=
  h

/-- To look at the next kind is the same on both sides. -/
private theorem kindThen {f g : Kind → Parser α}
    (h : SameWithin n (f s.current.kind s) (g s.current.kind s)) :
    SameWithin n ((kind >>= f) s) ((kind >>= g) s) :=
  h

end SameWithin

/-! ## Levels that agree -/

/-- What the level reads with another parser stands behind a token: where the parsers agree, the
    levels agree at one more token. -/
def Deepens (level : Parser α → Parser α) : Prop :=
  ∀ n sub sub', AgreeUpTo n sub sub' →
    ∀ s : State, s.Ended → s.remaining = n + 1 → SameWithin n (level sub s) (level sub' s)

namespace Deepens

variable {level : Parser α → Parser α}

/-- One level more agrees within one token more. -/
theorem agrees (h : Deepens level) {sub sub' : Parser α} (hsub : AgreeUpTo n sub sub') :
    AgreeUpTo (n + 1) (level sub) (level sub') := by
  intro s hs hn
  have hless : s.after.length ≤ n := Nat.le_of_succ_le_succ hn
  exact (h _ _ _ (hsub.mono hless) s hs rfl).mono (Nat.le_succ _)

/-- As long as there may be so many levels as tokens remain, it does not matter how many more
    there may be and what is put below them. -/
theorem levels (h : Deepens level) (out out' : Parser α) {k : Nat} (hn : m ≤ n) (hk : m ≤ k) :
    AgreeUpTo m (Parser.levels level out n) (Parser.levels level out' k) := by
  induction m generalizing n k with
  | zero => exact fun s _ hnone => absurd s.remaining_pos (by omega)
  | succ m ih =>
    obtain ⟨n, rfl⟩ := Nat.exists_eq_add_of_le' (Nat.le_trans (Nat.le_add_left 1 m) hn)
    obtain ⟨k, rfl⟩ := Nat.exists_eq_add_of_le' (Nat.le_trans (Nat.le_add_left 1 m) hk)
    exact h.agrees (ih (Nat.le_of_succ_le_succ hn) (Nat.le_of_succ_le_succ hk))

end Deepens

/-! ## Types -/

/-- A form of types takes its first token before it reads a type in it, so one more token may be
    left. -/
private theorem TypeForm.read_agrees {sub sub' : Parser Ty} (h : AgreeUpTo n sub sub')
    {form : TypeForm} (hs : s.Ended) (hk : s.current.kind = form.kind) (hn : s.remaining = n + 1) :
    SameWithin n (form.read sub s) (form.read sub' s) := by
  have hM := moves_shrinks
  -- no form begins at the end of the input
  have hend : s.current.kind ≠ .endOfInput := by
    rw [hk]
    cases form <;> decide
  -- behind the first token less is left, and there the two readers agree
  cases form with
  | word =>
    refine .expectThen hs hk (by decide) hn fun t => ?_
    cases Ty.ofWord? t.text with
    | some ty => exact .pure ty
    | none => exact .throw _
  | pointer => exact .advanceThen hs hend hn fun _ => h.bind fun _ => .pure _
  | vector =>
    refine .advanceThen hs hend hn fun _ => .step (.readLength hM) fun length => ?_
    refine .step (.position hM) fun start => h.bind fun lane => .step (.expect hM _) fun _ => ?_
    cases lane.prim? with
    | some p => exact .pure _
    | none => exact .throw _
  | array =>
    refine .advanceThen hs hend hn fun _ => .step (.readLength hM) fun _ => ?_
    exact h.bind fun _ => .step (.expect hM _) fun _ => .pure _
  | tuple => exact .advanceThen hs hend hn fun _ => (h.listTo _).bind fun _ => .pure _
  | function =>
    refine .advanceThen hs hend hn fun _ => .step (.expect hM _) fun _ => ?_
    exact (h.listTo _).bind fun _ => .step (.expect hM _) fun _ => h.bind fun _ => .pure _
  | group =>
    exact .advanceThen hs hend hn fun _ => h.bind fun _ => .step (.expect hM _) fun _ => .pure _

/-- One level of types takes a token before it goes deeper. -/
theorem deepens_tyLevel : Deepens Grammar.full.tyLevel := by
  intro n sub sub' h s hs hn
  refine .kindThen ?_
  cases hform : Grammar.full.types.lookup s.current.kind with
  | some form => exact form.read_agrees h hs (TypeForm.kind_of_lookup hform) hn
  | none => exact .error

/-! ## Parts of expressions -/

section Parts

variable {sub sub' : Parser (Exp Span)} (h : AgreeUpTo n sub sub')

include h

/-- A path agrees if its offsets do. -/
private theorem readPath_agrees : AgreeUpTo n (readPath sub) (readPath sub') := by
  have hM := moves_shrinks
  have hsteps (fuel : Nat) : AgreeUpTo n (readSteps sub fuel) (readSteps sub' fuel) := by
    induction fuel with
    | zero => exact .pure _
    | succ fuel ih =>
      have hrest (step : Step (Exp Span)) :
          AgreeUpTo n (do return step :: (← readSteps sub fuel))
            (do return step :: (← readSteps sub' fuel)) :=
        ih.bind fun _ => .pure _
      refine .step (.kind hM) fun k => ?_
      split
      · exact .step (.advance hM) fun _ => .step (.readOffset hM) fun _ => hrest _
      · exact .step (.advance hM) fun _ => .step (.readOffset hM) fun _ =>
          .step (.expect hM _) fun _ => hrest _
      · exact .step (.advance hM) fun _ => h.bind fun _ => .step (.expect hM _) fun _ => hrest _
      · exact .step (.advance hM) fun _ => h.bind fun _ => hrest _
      · exact .pure _
  exact .step (.get hM) fun _ => hsteps _

private theorem readArm_agrees : AgreeUpTo n (readArm sub) (readArm sub') :=
  .step (.readPattern moves_shrinks) fun _ => .step (.expect moves_shrinks _) fun _ =>
    h.bind fun _ => .pure _

variable {ty : Parser Ty} (hty : Steady Shrinks ty)

include hty

/-- A function agrees if its body does. -/
private theorem readFunc_agrees (id : VarId) (start : Position) :
    AgreeUpTo n (readFunc ty sub id start) (readFunc ty sub' id start) := by
  have hM := moves_shrinks
  have hparams := Steady.listTo hM (.readParam lasting_shrinks hty) .closeParen
  refine .step (.expect hM _) fun _ => .step hparams fun _ => .step (.expect hM _) fun _ => ?_
  exact .step hty fun _ => .step (.expect hM _) fun _ => h.bind fun _ => .spanned _ _

/-- Further functions agree if their bodies do. -/
private theorem readFuncs_agrees (ids : List VarId) :
    AgreeUpTo n (readFuncs ty sub ids) (readFuncs ty sub' ids) := by
  have hM := moves_shrinks
  induction ids with
  | nil => exact .step (.expectOr hM _ (by decide)) fun _ => .unexpected _
  | cons id ids ih =>
    refine .step (.expectOr hM _ (by decide)) fun name => ?_
    refine (readFunc_agrees h hty id name.span.first).inScope.bind fun func => ?_
    refine .step (.kind hM) fun k => ?_
    split
    · exact .step (.advance hM) fun _ => ih.bind fun _ => .pure _
    · exact .pure _

/-- A bundle agrees if its bodies do. -/
private theorem readBundle_agrees (names : List String) :
    AgreeUpTo n (readBundle ty sub names) (readBundle ty sub' names) := by
  have hM := moves_shrinks
  unfold readBundle
  cases firstRepeated? names with
  | some name => exact .unexpected _
  | none =>
    refine .step (.bindNames lasting_shrinks names) fun ids => ?_
    refine (readFuncs_agrees h hty ids).bind fun _ => .step (.expect hM _) fun _ => ?_
    exact h.bind fun _ => .pure _

end Parts

/-! ## Forms of expressions -/

section Forms

variable {sub sub' : Parser (Exp Span)} (h : AgreeUpTo n sub sub') {ty : Parser Ty}
  (hty : Steady Shrinks ty)

include h

/-- A base and a path agree if their expressions do. -/
private theorem readBased_agrees :
    AgreeUpTo n (OpeningForm.readBased sub) (OpeningForm.readBased sub') := by
  have hM := moves_shrinks
  refine .step (.expect hM _) fun _ => h.bind fun _ => (readPath_agrees h).bind fun _ => ?_
  exact .step (.expect hM _) fun _ => .pure _

include hty

/-- An opening form takes its first token before it reads an expression in it, so one more token may
    be left. -/
private theorem OpeningForm.read_agrees {form : OpeningForm} (hs : s.Ended)
    (hk : s.current.kind ∈ form.kinds) (hn : s.remaining = n + 1) :
    SameWithin n (form.read ty sub s) (form.read ty sub' s) := by
  -- every form takes a token before it reads an expression, so the readers of expressions agree on
  -- what is left
  have hM := moves_shrinks
  -- no form begins at the end of the input
  have hend : s.current.kind ≠ .endOfInput := by
    intro hk'
    rw [hk'] at hk
    cases form <;> revert hk <;> decide
  cases form with
  | atom =>
    refine .kindThen ?_
    generalize s.current.kind = k
    split
    · refine .advanceThen hs hend hn fun t => ?_
      cases literal? t.text with
      | some literal => exact .pure _
      | none => exact .throw _
    · exact .advanceThen hs hend hn fun t => .step (.resolve hM _ _) fun _ => .pure _
    · exact .error
  | group =>
    exact .advanceThen hs hend hn fun _ => h.bind fun _ => .step (.expect hM _) fun _ => .pure _
  | tuple | vector =>
    exact .advanceThen hs hend hn fun _ => (h.listTo _).bind fun _ => .spanned _ _
  | prim =>
    refine .advanceThen hs hend hn fun _ => .step (.expect hM _) fun _ => ?_
    exact (h.listTo _).bind fun _ => .spanned _ _
  | letIn =>
    refine .advanceThen hs hend hn fun start => .step (.expectOr hM _ (by decide)) fun name => ?_
    refine .step (.expect hM _) fun _ => .step hty fun t => .step (.expect hM _) fun _ => ?_
    refine h.bind fun value => .step (.expect hM _) fun _ => ?_
    -- what agrees as it is agrees in a scope of its own, too
    have hbody : AgreeUpTo n (do
          let id ← bindName name.text
          return (id, ← sub)) (do
          let id ← bindName name.text
          return (id, ← sub')) :=
      .step (.bindName lasting_shrinks _) fun _ => h.bind fun _ => .pure _
    exact hbody.inScope.bind fun _ => .spanned _ _
  | recIn =>
    refine .getThen (.advanceThen hs hend hn fun start => ?_)
    exact (readBundle_agrees h hty _).inScope.bind fun _ => .spanned _ _
  | caseOf =>
    refine .advanceThen hs hend hn fun start => h.bind fun _ => .step (.expect hM _) fun _ => ?_
    exact ((readArm_agrees h).listTo _).bind fun _ => .spanned _ _
  | gep | load =>
    exact .advanceThen hs hend hn fun _ => (readBased_agrees h).bind fun _ => .spanned _ _
  | store =>
    refine .advanceThen hs hend hn fun _ => h.bind fun _ => (readPath_agrees h).bind fun _ => ?_
    refine .step (.expect hM _) fun _ => h.bind fun _ => .step (.expect hM _) fun _ => ?_
    exact h.bind fun _ => .spanned _ _
  | update =>
    refine .advanceThen hs hend hn fun _ => .step (.expect hM _) fun _ => h.bind fun _ => ?_
    refine (readPath_agrees h).bind fun _ => .step (.expect hM _) fun _ => h.bind fun _ => ?_
    exact .step (.expect hM _) fun _ => .spanned _ _

/-- A trailing form agrees if the expressions in it do. -/
private theorem TrailingForm.read_agrees (form : TrailingForm) (left : Exp Span) :
    AgreeUpTo n (form.read ty sub left) (form.read ty sub' left) := by
  have hM := moves_shrinks
  cases form with
  | ascription | coercion =>
    exact .step (.advance hM) fun _ => .step hty fun _ => .spanned _ _
  | call => exact .step (.advance hM) fun _ => (h.listTo _).bind fun _ => .spanned _ _

end Forms

/-! ## Expressions -/

/-- A head agrees within one token more than what is deeper. -/
private theorem head_agrees {sub sub' : Parser (Exp Span)} (h : AgreeUpTo n sub sub') (hs : s.Ended)
    (hn : s.remaining = n + 1) :
    SameWithin n (Grammar.full.head sub s) (Grammar.full.head sub' s) := by
  refine .kindThen ?_
  cases hform : Grammar.full.opening.lookup s.current.kind with
  | some form =>
    have hk := OpeningForm.mem_kinds_of_lookup hform
    exact form.read_agrees h (.ty moves_shrinks _) hs hk hn
  | none => exact .error

/-- Trailing forms agree if the expressions in them do. -/
private theorem trail_agrees {sub sub' : Parser (Exp Span)} (h : AgreeUpTo n sub sub') (fuel : Nat)
    (left : Exp Span) :
    AgreeUpTo n (Grammar.full.trail sub fuel left) (Grammar.full.trail sub' fuel left) := by
  induction fuel generalizing left with
  | zero => exact .pure left
  | succ fuel ih =>
    refine .step (.kind moves_shrinks) fun k => ?_
    cases Grammar.full.trailing.lookup k with
    | some form => exact (form.read_agrees h (.ty moves_shrinks _) left).bind fun e => ih e
    | none => exact .pure left

/-- One level of expressions takes a token before it goes deeper. -/
theorem deepens_exprLevel (bp : BindingPower) : Deepens (Grammar.full.exprLevel bp) := by
  intro n sub sub' h s hs hn
  have hhead := head_agrees h hs hn
  cases bp with
  | trailing => exact hhead
  | loose =>
    -- the trailing forms stand behind the opening form, where fewer tokens remain
    exact hhead.bind fun first => .step (.get moves_shrinks) fun _ => trail_agrees h _ first

/-! ## Without a bound -/

/-- Types are read by as many levels as tokens remain. -/
theorem tyLevels_agree (out : Parser Ty) (n : Nat) :
    AgreeUpTo n (levels Grammar.full.tyLevel out n) Grammar.full.ty := by
  intro s hs hn
  have hlevels := deepens_tyLevel.levels out (unexpected "expected a type") hn
    (Nat.le_refl s.remaining)
  rw [levels_tyLevel _ s.remaining] at hlevels
  exact hlevels s hs (Nat.le_refl _)

/-- Expressions are read by as many levels as tokens remain. -/
theorem exprLevels_agree (out : Parser (Exp Span)) (n : Nat) :
    AgreeUpTo n (levels (Grammar.full.exprLevel .loose) out n) (Grammar.full.expr .loose) := by
  intro s hs hn
  have hlevels := (deepens_exprLevel .loose).levels out (unexpected "expected an expression") hn
    (Nat.le_refl s.remaining)
  rw [levels_exprLevel _ s.remaining] at hlevels
  exact hlevels s hs (Nat.le_refl _)

/-- A type is read with the reader of types for the types inside it. -/
theorem ty_eq_tyLevel (hs : s.Ended) :
    Grammar.full.ty s = Grammar.full.tyLevel Grammar.full.ty s := by
  have hsub := tyLevels_agree (unexpected "expected a type") s.after.length
  rw [levels_tyLevel] at hsub
  exact (deepens_tyLevel _ _ _ hsub s hs rfl).eq

/-- An expression is read with the reader of expressions for the expressions inside it. -/
theorem expr_eq_exprLevel (hs : s.Ended) (bp : BindingPower) :
    Grammar.full.expr bp s = Grammar.full.exprLevel bp (Grammar.full.expr .loose) s := by
  have hsub := exprLevels_agree (unexpected "expected an expression") s.after.length
  rw [levels_exprLevel] at hsub
  have hlevel := deepens_exprLevel bp _ _ _ hsub s hs rfl
  rw [exprLevel_exprAt] at hlevel
  exact hlevel.eq

end BranchIR
