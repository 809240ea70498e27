import BranchIR.Proofs.Parser.Reads
import Mathlib.Data.List.Forall2

/-!
# The look-ahead over a bundle

The names of a bundle are found ahead of reading it, by a pass over the tokens that only counts
forms with an `in` of their own. An expression of the grammar is balanced for this pass: it
leaves the count as it was and hides all `and` tokens in it. So the pass finds one name for
each function of the bundle.
-/

namespace BranchIR

namespace State

/-! ## Single tokens -/

/-- What stands ahead of a token is the token and what stands ahead of the state behind it. -/
theorem Takes.upcoming_eq {k : Kind} {s s' : State} (h : s.Takes k s') :
    s.upcoming = s.current :: s'.upcoming := by
  -- a token that is taken is not the last one
  cases hafter : s.after with
  | nil => exact absurd hafter h.more
  | cons t ts =>
    obtain rfl := h.next
    simp [upcoming, State.next, hafter]

/-- A token that is taken is the last of those left behind. -/
theorem Takes.behind_eq {k : Kind} {s s' : State} (h : s.Takes k s') :
    s'.behind = s.current :: s.behind := by
  cases hafter : s.after with
  | nil => exact absurd hafter h.more
  | cons t ts =>
    obtain rfl := h.next
    simp [State.next, hafter]

/-- The current token is always left. -/
theorem remaining_pos (s : State) : 1 ≤ s.remaining := Nat.le_add_left ..

/-- Every token read is one fewer that remains. -/
theorem Takes.remaining {k : Kind} {s s' : State} (h : s.Takes k s') :
    s'.remaining + 1 = s.remaining := by
  have hupcoming := congrArg List.length h.upcoming_eq
  simp only [upcoming, List.length_cons] at hupcoming
  simp only [State.remaining]
  omega

/-- Taking a token leaves the scopes alone. -/
theorem Takes.scopes_eq {k : Kind} {s s' : State} (h : s.Takes k s') : s'.scopes = s.scopes := by
  rw [← h.next, scopes_next]

@[simp] theorem scopes_withScopes (s : State) (scopes : Scopes) :
    (s.withScopes scopes).scopes = scopes := rfl

@[simp] theorem withScopes_withScopes (s : State) (scopes scopes' : Scopes) :
    (s.withScopes scopes).withScopes scopes' = s.withScopes scopes' := rfl

/-- A span begins where it is said to. -/
@[simp] theorem first_spanFrom (s : State) (start : Position) :
    (s.spanFrom start).first = start := by
  unfold spanFrom
  split <;> rfl

@[simp] theorem upcoming_withScopes (s : State) (scopes : Scopes) :
    (s.withScopes scopes).upcoming = s.upcoming := rfl

end State

/-- An identifier that stands next is found ahead. -/
theorem State.identifier?_upcoming {s : State} (h : s.current.kind = .identifier) :
    State.identifier? s.upcoming.head? = [s.current] := by
  simp [upcoming, identifier?, h]

/-- Whether the pass over a bundle takes notice of tokens of the kind. -/
def Kind.counts : Kind → Bool
  | .recWord | .letWord | .storeWord | .inWord | .andWord | .endOfInput => true
  | _ => false

/-! ## Relations that go on from token to token -/

/-- The relation goes on over tokens that the pass takes no notice of, and can be put
    together. -/
structure GoesOn (C : State → State → Prop) : Prop where
  refl : ∀ s, C s s
  trans : ∀ {s s₁ s'}, C s s₁ → C s₁ s' → C s s'
  takes : ∀ {k s s'}, k.counts = false → s.Takes k s' → C s s'

section GoesOn

variable {C : State → State → Prop} {α : Type}

/-- The relation goes on over a list if it does over its items: commas do not count. -/
theorem Listed.goesOn (hC : GoesOn C) {close : Kind} {s s' : State} {ps : List (Piece α)}
    (hclose : close.counts = false) (h : Listed close s ps s')
    (each : ∀ p ∈ ps, C p.start p.stop) : C s s' := by
  induction h with
  | nil ends => exact hC.takes hclose ends
  | @last p s' ends => exact hC.trans (each p (by simp)) (hC.takes hclose ends)
  | more comma _ ih =>
    obtain ⟨hp, hps⟩ := List.forall_mem_cons.1 each
    exact hC.trans hp (hC.trans (hC.takes rfl comma) (ih hps))

/-- The relation goes on over a path if it does over its computed offsets. -/
theorem ReadsPath.goesOn (hC : GoesOn C) {s s' : State} {path : List (Step (Piece α))}
    (h : ReadsPath s path s') (each : ∀ p ∈ path.filterMap Step.offset?, C p.start p.stop) :
    C s s' := by
  induction h with
  | nil => exact hC.refl _
  | field dot offset _ ih =>
    have hrest := ih (by simpa using each)
    exact hC.trans (hC.takes rfl dot) (hC.trans (hC.takes rfl offset.1) hrest)
  | element opens offset ends _ ih =>
    have hrest := ih (by simpa using each)
    have hends := hC.trans (hC.takes rfl ends) hrest
    exact hC.trans (hC.takes rfl opens) (hC.trans (hC.takes rfl offset.1) hends)
  | lane opens ends _ ih =>
    obtain ⟨hp, hps⟩ := List.forall_mem_cons.1 each
    have hends := hC.trans (hC.takes rfl ends) (ih hps)
    exact hC.trans (hC.takes rfl opens) (hC.trans hp hends)
  | index sign _ ih =>
    obtain ⟨hp, hps⟩ := List.forall_mem_cons.1 each
    exact hC.trans (hC.takes rfl sign) (hC.trans hp (ih hps))

/-- The relation goes on over a length. -/
theorem ReadsLength.goesOn (hC : GoesOn C) {n : Nat} {s s' : State} (h : ReadsLength s n s') :
    C s s' := by
  obtain ⟨s₁, offset, times, -⟩ := h
  exact hC.trans (hC.takes rfl offset.1) (hC.takes rfl times)

/-- The relation goes on over a type: no token of a type counts. -/
theorem ReadsTy.goesOn (hC : GoesOn C) {ty : Ty} {s s' : State} (h : ReadsTy s ty s') :
    C s s' := by
  induction h with
  | word word => exact hC.takes rfl word
  | pointer mark _ ih => exact hC.trans (hC.takes rfl mark) ih
  | vector opens length _ ends ih =>
    have hends := hC.trans ih (hC.takes rfl ends)
    exact hC.trans (hC.takes rfl opens) (hC.trans (length.goesOn hC) hends)
  | array opens length _ ends ih =>
    have hends := hC.trans ih (hC.takes rfl ends)
    exact hC.trans (hC.takes rfl opens) (hC.trans (length.goesOn hC) hends)
  | tuple opens list _ ih => exact hC.trans (hC.takes rfl opens) (list.goesOn hC rfl ih)
  | function word opens list _ arrow _ ih ihresult =>
    have hresult := hC.trans (hC.takes rfl arrow) ihresult
    have hparams := hC.trans (list.goesOn hC rfl ih) hresult
    exact hC.trans (hC.takes rfl word) (hC.trans (hC.takes rfl opens) hparams)
  | group opens _ ends ih =>
    exact hC.trans (hC.takes rfl opens) (hC.trans ih (hC.takes rfl ends))

/-- The relation goes on over a pattern and the arrow behind it. -/
theorem ReadsArm.goesOn (hC : GoesOn C) {arm : Piece (Arm (Piece α))} (h : ReadsArm arm) :
    C arm.start arm.item.body.start := by
  obtain ⟨s₁, hpattern, harrow, -⟩ := h
  have htoken : C arm.start s₁ := by
    generalize arm.item.pattern = pattern at hpattern
    cases hpattern with
    | default mark => exact hC.takes rfl mark
    | literal number => exact hC.takes rfl number
  exact hC.trans htoken (hC.takes rfl harrow)

end GoesOn

/-! ## Balance -/

/-- The pass over a bundle goes from the one state to the other without a trace. -/
def Balanced (s s' : State) : Prop :=
  ∀ depth, State.laterNames depth s.upcoming = State.laterNames depth s'.upcoming

/-- A pass without a trace may go on without one. -/
theorem Balanced.trans {s s₁ s' : State} (h : Balanced s s₁) (h' : Balanced s₁ s') :
    Balanced s s' :=
  fun depth => (h depth).trans (h' depth)

section Counted

variable {s s' : State} (depth : Nat)

/-- A token that does not count leaves no trace. -/
theorem State.Takes.balanced {k : Kind} (h : s.Takes k s') (hk : k.counts = false) :
    Balanced s s' := by
  intro depth
  rw [h.upcoming_eq, State.laterNames.eq_def]
  simp only [h.kind]
  -- six kinds are excluded, and for all others the pass just goes on
  cases k <;> first | rfl | cases hk

/-- A `let` goes one deeper, since it has an `in` of its own. -/
theorem laterNames_letWord (h : s.Takes .letWord s') :
    State.laterNames depth s.upcoming = State.laterNames (depth + 1) s'.upcoming := by
  rw [h.upcoming_eq, State.laterNames.eq_def]
  simp only [h.kind]

/-- A bundle inside goes one deeper, since it has an `in` of its own. -/
theorem laterNames_recWord (h : s.Takes .recWord s') :
    State.laterNames depth s.upcoming = State.laterNames (depth + 1) s'.upcoming := by
  rw [h.upcoming_eq, State.laterNames.eq_def]
  simp only [h.kind]

/-- A `store` goes one deeper, since it has an `in` of its own. -/
theorem laterNames_storeWord (h : s.Takes .storeWord s') :
    State.laterNames depth s.upcoming = State.laterNames (depth + 1) s'.upcoming := by
  rw [h.upcoming_eq, State.laterNames.eq_def]
  simp only [h.kind]

/-- The `in` of a form inside comes back from it. -/
theorem laterNames_inWord (h : s.Takes .inWord s') :
    State.laterNames (depth + 1) s.upcoming = State.laterNames depth s'.upcoming := by
  rw [h.upcoming_eq, State.laterNames.eq_def]
  simp only [h.kind]

/-- The bundle's own `in` ends the pass. -/
theorem laterNames_zero_inWord (h : s.Takes .inWord s') :
    State.laterNames 0 s.upcoming = [] := by
  rw [h.upcoming_eq, State.laterNames.eq_def]
  simp only [h.kind]

/-- The `and` of a bundle inside names no function of this one. -/
theorem laterNames_andWord (h : s.Takes .andWord s') :
    State.laterNames (depth + 1) s.upcoming = State.laterNames (depth + 1) s'.upcoming := by
  rw [h.upcoming_eq, State.laterNames.eq_def]
  simp only [h.kind]

/-- The bundle's own `and` stands in front of a further name. -/
theorem laterNames_zero_andWord (h : s.Takes .andWord s') :
    State.laterNames 0 s.upcoming =
      State.identifier? s'.upcoming.head? ++ State.laterNames 0 s'.upcoming := by
  rw [h.upcoming_eq, State.laterNames.eq_def]
  simp only [h.kind]

end Counted

/-- To leave no trace is a relation that goes on. -/
private theorem goesOn_balanced : GoesOn Balanced where
  refl _ _ := rfl
  trans := Balanced.trans
  takes hk h := h.balanced hk

/-! ## Functions -/

section Functions

variable {α : Type} {s s' : State}

/-- A parameter leaves no trace. -/
private theorem ReadsParam.balanced {p : Piece (Param Span)} (h : ReadsParam p) :
    Balanced p.start p.stop := by
  obtain ⟨s₁, s₂, s₃, hname, -, hcolon, hty, -, -, hstop⟩ := h
  have hrest := (hcolon.balanced rfl).trans (hty.goesOn goesOn_balanced)
  rw [hstop]
  exact (hname.balanced rfl).trans hrest

/-- A function leaves no trace if its body leaves none. -/
theorem ReadsFunc.balanced {f : Func Span (Piece α)} (h : ReadsFunc s f s')
    (hbody : Balanced f.body.start f.body.stop) : Balanced s s' := by
  cases h with
  | mk name opens list each items colon result assignment ann leaves =>
    have hparams := list.goesOn goesOn_balanced rfl fun p hp => (each p hp).balanced
    have hresult := (colon.balanced rfl).trans (result.goesOn goesOn_balanced)
    have hrest := hresult.trans ((assignment.balanced rfl).trans hbody)
    have hlist := (opens.balanced rfl).trans (hparams.trans hrest)
    rw [leaves]
    exact (name.balanced rfl).trans hlist

/-- Inside another form the pass goes over all functions of a bundle. -/
private theorem ReadsFuncs.laterNames {fs : List (Func Span (Piece α))} (h : ReadsFuncs s fs s')
    (each : ∀ f ∈ fs, Balanced f.body.start f.body.stop) (depth : Nat) :
    State.laterNames (depth + 1) s.upcoming = State.laterNames (depth + 1) s'.upcoming := by
  induction h with
  | @last f s s' func => exact func.balanced (each f (by simp)) _
  | more func word _ ih =>
    obtain ⟨hf, hfs⟩ := List.forall_mem_cons.1 each
    rw [func.balanced hf, laterNames_andWord _ word, ih hfs]

/-- From the first function on, the pass finds the names that the functions begin with. -/
private theorem ReadsFuncs.names {fs : List (Func Span (Piece α))} (h : ReadsFuncs s fs s')
    (each : ∀ f ∈ fs, Balanced f.body.start f.body.stop) {s₁ : State} (hin : s'.Takes .inWord s₁) :
    List.Forall₂ (fun f t => f.ann.first = t.span.first) fs
      (State.identifier? s.upcoming.head? ++ State.laterNames 0 s.upcoming) := by
  -- every function begins with its name
  have hhead {f : Func Span (Piece α)} {s s' : State} (hf : ReadsFunc s f s') :
      State.identifier? s.upcoming.head? = [s.current] ∧ f.ann.first = s.current.span.first := by
    cases hf with
    | mk name _ _ _ _ _ _ _ ann =>
      refine ⟨State.identifier?_upcoming name.kind, ?_⟩
      rw [ann, State.first_spanFrom]
      rfl
  induction h with
  | @last f s s' func =>
    obtain ⟨hname, hfirst⟩ := hhead func
    rw [hname, func.balanced (each f (by simp)), laterNames_zero_inWord hin]
    exact .cons hfirst .nil
  | more func word _ ih =>
    obtain ⟨hf, hfs⟩ := List.forall_mem_cons.1 each
    obtain ⟨hname, hfirst⟩ := hhead func
    rw [hname, func.balanced hf, laterNames_zero_andWord word]
    exact .cons hfirst (ih hfs hin)

end Functions

/-! ## Expressions -/

/-- The pass over a bundle goes over an expression without a trace. -/
theorem Reads.balanced {e : Exp Span} {s s' : State} (h : Reads s e s') : Balanced s s' := by
  have hC := goesOn_balanced
  -- the forms with an `in` of their own raise the count and lower it again; over all the others
  -- the count goes on from token to token
  induction h with
  | int token | var token => exact token.balanced rfl
  | group opens _ ends ih => exact (opens.balanced rfl).trans (ih.trans (ends.balanced rfl))
  | tuple opens list _ ih | vector opens list _ ih =>
    exact (opens.balanced rfl).trans (list.goesOn hC rfl ih)
  | prim word opens list _ ih =>
    exact (word.balanced rfl).trans ((opens.balanced rfl).trans (list.goesOn hC rfl ih))
  | letIn word name colon type assignment _ inWord _ leaves ihvalue ihbody =>
    intro depth
    have hty := (colon.balanced rfl).trans (type.goesOn hC)
    have hvalue := hty.trans ((assignment.balanced rfl).trans ihvalue)
    have hbody := ihbody depth
    rw [State.upcoming_withScopes] at hbody
    rw [laterNames_letWord _ word, (name.balanced rfl).trans hvalue, laterNames_inWord _ inWord,
      hbody, leaves, State.upcoming_withScopes]
  | recIn word _ _ funcs _ inWord _ leaves ihfuncs ihbody =>
    intro depth
    have hfuncs := funcs.laterNames ihfuncs depth
    rw [State.upcoming_withScopes] at hfuncs
    rw [laterNames_recWord _ word, hfuncs, laterNames_inWord _ inWord, ihbody, leaves,
      State.upcoming_withScopes]
  | caseOf word _ opens list heads _ ihscrutinee iharms =>
    have harms := list.goesOn hC rfl fun arm ha => by
      -- an arm ends where its body does
      obtain ⟨_, _, _, hstop⟩ := heads arm ha
      rw [← hstop]
      exact ((heads arm ha).goesOn hC).trans (iharms arm ha)
    have hlist := (opens.balanced rfl).trans harms
    exact (word.balanced rfl).trans (ihscrutinee.trans hlist)
  | gep word opens _ steps _ ends ihbase ihpath | load word opens _ steps _ ends ihbase ihpath =>
    have hpath := (steps.goesOn hC ihpath).trans (ends.balanced rfl)
    exact (word.balanced rfl).trans ((opens.balanced rfl).trans (ihbase.trans hpath))
  | store word _ steps _ assignment _ inWord _ ihdest ihpath ihvalue ihbody =>
    intro depth
    have hpath := ihdest.trans (steps.goesOn hC ihpath)
    have hvalue := (assignment.balanced rfl).trans ihvalue
    -- the `in` stands between the value and the body
    rw [laterNames_storeWord _ word, hpath.trans hvalue, laterNames_inWord _ inWord, ihbody]
  | update word opens _ steps _ comma _ ends ihbase ihpath ihvalue =>
    have hvalue := (comma.balanced rfl).trans (ihvalue.trans (ends.balanced rfl))
    have hpath := ihbase.trans ((steps.goesOn hC ihpath).trans hvalue)
    exact (word.balanced rfl).trans ((opens.balanced rfl).trans hpath)
  | ascribe _ colon type ih => exact ih.trans ((colon.balanced rfl).trans (type.goesOn hC))
  | coerce _ word type ih => exact ih.trans ((word.balanced rfl).trans (type.goesOn hC))
  | call _ opens list _ ih iheach =>
    exact ih.trans ((opens.balanced rfl).trans (list.goesOn hC rfl iheach))

section Bundle

variable {s s₁ s₂ s₃ : State} {scopes : Scopes} {fs : List (Func Span (Piece (Exp Span)))}

/-- The look-ahead finds the names that the functions of the bundle begin with. -/
theorem ReadsFuncs.bundleNames (hrec : s.Takes .recWord s₁)
    (h : ReadsFuncs (s₁.withScopes scopes) fs s₂)
    (each : ∀ f ∈ fs, Reads f.body.start f.body.item f.body.stop) (hin : s₂.Takes .inWord s₃) :
    List.Forall₂ (fun f t => f.ann.first = t.span.first) fs s.bundleNames := by
  have hnames := h.names (fun f hf => (each f hf).balanced) hin
  have hafter : s.after = s₁.upcoming := (List.cons.inj hrec.upcoming_eq).2
  rw [State.bundleNames, hafter]
  exact hnames

/-- The look-ahead finds as many names as the bundle has functions. -/
theorem ReadsFuncs.length_bundleNames (hrec : s.Takes .recWord s₁)
    (h : ReadsFuncs (s₁.withScopes scopes) fs s₂)
    (each : ∀ f ∈ fs, Reads f.body.start f.body.item f.body.stop) (hin : s₂.Takes .inWord s₃) :
    s.bundleNames.length = fs.length :=
  (h.bundleNames hrec each hin).length_eq.symm

end Bundle

end BranchIR
