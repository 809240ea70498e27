import BranchIR.Proofs.Parser.ExpSound
import BranchIR.Proofs.Parser.Onward

/-!
# What is read is consumed

An expression, a type, a parameter and an arm each begin with a token of their own, so reading one
goes forward by at least one token. None of the tokens on the way marks the end of the input: such
a token begins no form, closes none and separates nothing.
-/

namespace BranchIR

open BranchIR.Parser

variable {α : Type} {s s₁ s' : State}

/-- The tokens are those from the one state to the other, and none of them marks the end of the
    input. -/
structure Between (s : State) (ts : List Token) (s' : State) : Prop where
  upcoming : s.upcoming = ts ++ s'.upcoming
  behind : s'.behind = ts.reverse ++ s.behind
  inside : ∀ t ∈ ts, t.kind ≠ .endOfInput

/-- No token from the one state to the other marks the end of the input. -/
def GoesOver (s s' : State) : Prop := ∃ ts, Between s ts s'

/-- From the one state to the other there is a token at least, and none marks the end of the
    input. -/
def Consumes (s s' : State) : Prop := ∃ t ts, Between s (t :: ts) s'

/-- Whatever the parser reads is consumed. -/
def Consuming (p : Parser α) : Prop := Sound p fun s _ s' => Consumes s s'

/-! ## Tokens between places -/

/-- Tokens that are taken one after the other stand between the outer states. -/
theorem Between.append {ts us : List Token} (h : Between s ts s₁) (h' : Between s₁ us s') :
    Between s (ts ++ us) s' where
  upcoming := by rw [h.upcoming, h'.upcoming, List.append_assoc]
  behind := by rw [h'.behind, h.behind, List.reverse_append, List.append_assoc]
  inside := List.forall_mem_append.2 ⟨h.inside, h'.inside⟩

/-- A token that is taken stands between the states. -/
theorem State.Takes.between {k : Kind} (h : s.Takes k s') (hk : k ≠ .endOfInput) :
    Between s [s.current] s' where
  upcoming := h.upcoming_eq
  behind := h.behind_eq
  inside := by
    rw [List.forall_mem_singleton, h.kind]
    exact hk

/-- Going over tokens is kept from state to state. -/
theorem along_goesOver : Along GoesOver where
  refl s := ⟨[], rfl, rfl, by simp⟩
  trans := fun ⟨_, h⟩ ⟨_, h'⟩ => ⟨_, h.append h'⟩
  takes h hk := ⟨_, h.between hk⟩

theorem goesOver_withScopes (s : State) (scopes : Scopes) : GoesOver s (s.withScopes scopes) :=
  ⟨[], rfl, rfl, by simp⟩

/-- What begins with a token and goes on is consumed. -/
theorem Begins.consumes (h : Begins GoesOver s s') : Consumes s s' := by
  obtain ⟨k, s₁, hk, htakes, ts, hrest⟩ := h
  exact ⟨s.current, ts, (htakes.between hk).append hrest⟩

namespace Consumes

/-- To consume tokens is to go over them. -/
theorem goesOver (h : Consumes s s') : GoesOver s s' := by
  obtain ⟨t, ts, h⟩ := h
  exact ⟨t :: ts, h⟩

/-- After a token has been consumed anything may follow. -/
theorem trans (h : Consumes s s₁) (h' : GoesOver s₁ s') : Consumes s s' := by
  obtain ⟨t, ts, h⟩ := h
  obtain ⟨us, h'⟩ := h'
  exact ⟨t, ts ++ us, h.append h'⟩

/-- Fewer tokens remain. -/
theorem remaining_lt (h : Consumes s s') : s'.remaining < s.remaining := by
  obtain ⟨t, ts, h⟩ := h
  have hlength := congrArg List.length h.upcoming
  simp only [State.upcoming, List.length_append, List.length_cons] at hlength
  unfold State.remaining
  omega

end Consumes

/-! ## What the readers consume -/

/-- An expression that is read takes at least one token. -/
theorem Reads.consumes {e : Exp Span} (h : Reads s e s') : Consumes s s' :=
  (h.begins along_goesOver goesOver_withScopes).consumes

/-- A type takes a token at least. -/
theorem ReadsTy.consumes {ty : Ty} (h : ReadsTy s ty s') : Consumes s s' := by
  have hA := along_goesOver
  have hC := hA.goesOn
  apply Begins.consumes
  cases h with
  | word word _ => exact .of_takes word (hA.refl _)
  | pointer mark target => exact .of_takes mark (target.goesOn hC)
  | vector opens length lane ends | array opens length lane ends =>
    have hlane := hA.trans (lane.goesOn hC) (hA.takes ends)
    exact .of_takes opens (hA.trans (length.goesOn hC) hlane)
  | tuple opens list each =>
    exact .of_takes opens (list.goesOn hC rfl fun p hp => (each p hp).goesOn hC)
  | function word opens list each arrow gives =>
    have hparams := list.goesOn hC rfl fun p hp => (each p hp).goesOn hC
    have hresult := hA.trans (hA.takes arrow) (gives.goesOn hC)
    exact .of_takes word (hA.trans (hA.takes opens) (hA.trans hparams hresult))
  | group opens inner ends => exact .of_takes opens (hA.trans (inner.goesOn hC) (hA.takes ends))

/-- A pattern begins with the token that stands next. -/
theorem ReadsPattern.begins {pattern : Pattern} (h : ReadsPattern s pattern s') :
    Begins GoesOver s s' := by
  cases h with
  | default mark => exact .of_takes mark (along_goesOver.refl _)
  | literal number _ => exact .of_takes number (along_goesOver.refl _)

/-- Reading an expression takes a token at least. -/
theorem expr_consumes (bp : BindingPower) : Consuming (Grammar.full.expr bp) := by
  intro s e s' hs h
  obtain ⟨hreads, hs'⟩ := expr_sound bp s e s' hs h
  exact ⟨hreads.consumes, hs'⟩

/-- Reading a type takes a token at least. -/
theorem ty_consumes : Consuming Grammar.full.ty := by
  intro s ty s' hs h
  obtain ⟨hreads, hs'⟩ := ty_sound s ty s' hs h
  exact ⟨hreads.consumes, hs'⟩

/-- Reading a parameter takes a token at least. -/
theorem readParam_consumes : Consuming (readParam Grammar.full.ty) := by
  intro s param s' hs h
  obtain ⟨hreads, hs'⟩ := readParam_sound s param s' hs h
  exact ⟨(hreads.begins along_goesOver goesOver_withScopes).consumes, hs'⟩

/-- Reading an arm takes a token at least. -/
theorem readArm_consumes {sub : Parser (Exp Span)} (hsub : Sound sub Reads) :
    Consuming (readArm sub) := by
  intro s arm s' hs h
  obtain ⟨⟨a, rfl, rfl, -, ⟨s₁, hpattern, harrow, hstop⟩, hbody⟩, hs'⟩ :=
    readArm_sound hsub s arm s' hs h
  have hA := along_goesOver
  have hrest := hA.trans (hA.takes harrow) hbody.consumes.goesOver
  rw [hstop] at hrest
  exact ⟨(hpattern.begins.trans hA hrest).consumes, hs'⟩

end BranchIR
