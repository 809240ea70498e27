import BranchIR.Proofs.Parser.Scoping

/-!
# What stays the same from token to token

Reading moves over tokens and binds names. What holds from each token to the next, and does not
look at the scopes, holds from the beginning of an expression to its end: the tokens behind and
ahead, taken together, are always the same ones. Around each item of a list, each offset of a
path and each function of a bundle stand the tokens before it and those after it.
-/

namespace BranchIR

variable {C : State → State → Prop} {α : Type} {s s' : State}

/-- The relation goes on over every token but the end of the input, and can be put together. -/
structure Along (C : State → State → Prop) : Prop where
  refl : ∀ s, C s s
  trans : ∀ {s s₁ s'}, C s s₁ → C s₁ s' → C s s'
  takes : ∀ {k s s'}, s.Takes k s' → (hk : k ≠ .endOfInput := by decide) → C s s'

/-- The end of the input counts for the look-ahead, which stops there. -/
private theorem Kind.ne_endOfInput_of_counts {k : Kind} (hk : k.counts = false) :
    k ≠ .endOfInput := by
  rintro rfl
  cases hk

/-- What goes over tokens goes over types. -/
theorem Along.goesOn (hC : Along C) : GoesOn C :=
  ⟨hC.refl, hC.trans, fun hk h => hC.takes h (Kind.ne_endOfInput_of_counts hk)⟩

/-- A token is taken that does not end the input, and from there on the relation holds. -/
def Begins (C : State → State → Prop) (s s' : State) : Prop :=
  ∃ k s₁, k ≠ .endOfInput ∧ s.Takes k s₁ ∧ C s₁ s'

namespace Begins

variable {k : Kind} {s₁ : State}

theorem of_takes (h : s.Takes k s₁) (hrest : C s₁ s') (hk : k ≠ .endOfInput := by decide) :
    Begins C s s' :=
  ⟨k, s₁, hk, h, hrest⟩

/-- The relation then holds from the token on. -/
private theorem along (hC : Along C) (h : Begins C s s') : C s s' := by
  obtain ⟨k, s₂, hk, htakes, hrest⟩ := h
  exact hC.trans (hC.takes htakes hk) hrest

/-- What begins with a token may be followed by anything. -/
theorem trans (hC : Along C) (h : Begins C s s₁) (h' : C s₁ s') : Begins C s s' := by
  obtain ⟨k, s₂, hk, htakes, hrest⟩ := h
  exact ⟨k, s₂, hk, htakes, hC.trans hrest h'⟩

end Begins

/-! ## Over an expression -/

section Over

variable (hC : Along C) (hscopes : ∀ s scopes, C s (State.withScopes s scopes))

include hC hscopes

/-- A parameter begins with its name. -/
theorem ReadsParam.begins {p : Piece (Param Span)} (h : ReadsParam p) :
    Begins C p.start p.stop := by
  obtain ⟨s₁, s₂, s₃, hname, -, hcolon, hty, -, -, hstop⟩ := h
  have htype := hC.trans (hC.takes hcolon) (hty.goesOn hC.goesOn)
  rw [hstop]
  exact .of_takes hname (hC.trans htype (hscopes ..))

theorem ReadsParam.along {p : Piece (Param Span)} (h : ReadsParam p) : C p.start p.stop :=
  (h.begins hC hscopes).along hC

/-- A function begins with its name. -/
theorem ReadsFunc.begins {f : Func Span (Piece α)} (h : ReadsFunc s f s')
    (hbody : C f.body.start f.body.stop) : Begins C s s' := by
  cases h with
  | @mk f params s s₁ s₂ s₃ s₄ s₅ s' name opens list each _ colon result assignment _ leaves =>
    have hopen := hC.trans (hscopes s₁ _) (hC.takes opens)
    have hparams := list.goesOn hC.goesOn rfl fun p hp => (each p hp).along hC hscopes
    have hresult := hC.trans (hC.takes colon) (result.goesOn hC.goesOn)
    have hstart := hC.trans hresult (hC.takes assignment)
    rw [leaves]
    exact .of_takes name
      (hC.trans hopen (hC.trans hparams (hC.trans hstart (hC.trans hbody (hscopes ..)))))

/-- A relation that is kept by the body of a function is kept by the function. -/
private theorem ReadsFunc.along {f : Func Span (Piece α)} (h : ReadsFunc s f s')
    (hbody : C f.body.start f.body.stop) : C s s' :=
  (h.begins hC hscopes hbody).along hC

/-- A relation that is kept by all bodies is kept by the functions. -/
private theorem ReadsFuncs.along {fs : List (Func Span (Piece α))} (h : ReadsFuncs s fs s')
    (each : ∀ f ∈ fs, C f.body.start f.body.stop) : C s s' := by
  induction h with
  | @last f s s' func => exact func.along hC hscopes (each f (by simp))
  | more func word _ ih =>
    obtain ⟨hf, hfs⟩ := List.forall_mem_cons.1 each
    exact hC.trans (func.along hC hscopes hf) (hC.trans (hC.takes word) (ih hfs))

/-- An expression begins with a token, and what goes on over every token, and does not look at the
    scopes, goes on from there to its end. -/
theorem Reads.begins {e : Exp Span} (h : Reads s e s') : Begins C s s' := by
  -- a relation that goes over tokens and types goes over expressions, since they are made of these
  have hgoes := hC.goesOn
  induction h with
  | int token | var token => exact .of_takes token (hC.refl _)
  | group opens _ ends ih => exact .of_takes opens (hC.trans (ih.along hC) (hC.takes ends))
  | tuple opens list _ ih | vector opens list _ ih =>
    exact .of_takes opens (list.goesOn hgoes rfl fun p hp => (ih p hp).along hC)
  | prim word opens list _ ih =>
    have hargs := list.goesOn hgoes rfl fun p hp => (ih p hp).along hC
    exact .of_takes word (hC.trans (hC.takes opens) hargs)
  | letIn word name colon type assignment _ inWord _ leaves ihvalue ihbody =>
    have hty := hC.trans (hC.takes colon) (type.goesOn hgoes)
    have hname := hC.trans (hC.takes name) hty
    have hvalue := hC.trans (hC.takes assignment) (hC.trans (ihvalue.along hC) (hC.takes inWord))
    have hbody := hC.trans (hscopes ..) (ihbody.along hC)
    -- the scope of the body is closed again
    subst leaves
    exact .of_takes word (hC.trans hname (hC.trans hvalue (hC.trans hbody (hscopes ..))))
  | recIn word _ _ funcs _ inWord _ leaves ihfuncs ihbody =>
    have hall := funcs.along hC hscopes fun f hf => (ihfuncs f hf).along hC
    have hfuncs := hC.trans (hscopes ..) hall
    have hbody := hC.trans (hC.takes inWord) (ihbody.along hC)
    subst leaves
    exact .of_takes word (hC.trans hfuncs (hC.trans hbody (hscopes ..)))
  | caseOf word _ opens list heads _ ihscrutinee iharms =>
    have harms := list.goesOn hgoes rfl fun arm ha => by
      -- an arm ends where its body does
      obtain ⟨_, _, _, hstop⟩ := heads arm ha
      rw [← hstop]
      exact hC.trans ((heads arm ha).goesOn hgoes) ((iharms arm ha).along hC)
    have hlist := hC.trans (hC.takes opens) harms
    exact .of_takes word (hC.trans (ihscrutinee.along hC) hlist)
  | gep word opens _ steps _ ends ihbase ihpath | load word opens _ steps _ ends ihbase ihpath =>
    have hsteps := steps.goesOn hgoes fun p hp => (ihpath p hp).along hC
    have hbase := hC.trans (ihbase.along hC) (hC.trans hsteps (hC.takes ends))
    exact .of_takes word (hC.trans (hC.takes opens) hbase)
  | store word _ steps _ assignment _ inWord _ ihdest ihpath ihvalue ihbody =>
    have hsteps := steps.goesOn hgoes fun p hp => (ihpath p hp).along hC
    have hpath := hC.trans (ihdest.along hC) hsteps
    have hvalue := hC.trans (hC.takes assignment) (ihvalue.along hC)
    have hbody := hC.trans (hC.takes inWord) (ihbody.along hC)
    exact .of_takes word (hC.trans hpath (hC.trans hvalue hbody))
  | update word opens _ steps _ comma _ ends ihbase ihpath ihvalue =>
    have hsteps := steps.goesOn hgoes fun p hp => (ihpath p hp).along hC
    have hvalue := hC.trans (hC.takes comma) (hC.trans (ihvalue.along hC) (hC.takes ends))
    have hpath := hC.trans (ihbase.along hC) (hC.trans hsteps hvalue)
    exact .of_takes word (hC.trans (hC.takes opens) hpath)
  | ascribe _ colon type ih => exact ih.trans hC (hC.trans (hC.takes colon) (type.goesOn hgoes))
  | coerce _ word type ih => exact ih.trans hC (hC.trans (hC.takes word) (type.goesOn hgoes))
  | call _ opens list _ ih iheach =>
    have hargs := list.goesOn hgoes rfl fun p hp => (iheach p hp).along hC
    exact ih.trans hC (hC.trans (hC.takes opens) hargs)

/-- What goes on over every token, and does not look at the scopes, goes on over an
    expression. -/
theorem Reads.along {e : Exp Span} (h : Reads s e s') : C s s' := (h.begins hC hscopes).along hC

end Over

/-! ## The tokens and the scopes -/

theorem State.current_mem_tokens (s : State) : s.current ∈ s.tokens := by simp [tokens]

theorem State.Takes.tokens_eq {k : Kind} (h : s.Takes k s') : s'.tokens = s.tokens := by
  rw [← h.next, tokens_next]

/-- No token is changed by going on. -/
theorem along_tokens_eq : Along fun s s' => s'.tokens = s.tokens where
  refl _ := rfl
  trans h h' := h'.trans h
  takes h _ := h.tokens_eq

/-- The tokens are the same, and the scopes before are open after. -/
structure Onward (s s' : State) : Prop where
  tokens : s'.tokens = s.tokens
  scopes : s.scopes.Extends s'.scopes

/-- Taking a token leaves the scopes before open. -/
theorem State.Takes.onward {k : Kind} (h : s.Takes k s') : Onward s s' :=
  ⟨h.tokens_eq, .of_eq h.scopes_eq⟩

/-- To have the same tokens and scopes is kept from token to token. -/
theorem along_onward : Along Onward where
  refl s := ⟨rfl, .refl s.scopes⟩
  trans h h' := ⟨h'.tokens.trans h.tokens, h.scopes.trans h'.scopes⟩
  takes h _ := h.onward

namespace Onward

variable {s₁ : State}

theorem trans (h : Onward s s₁) (h' : Onward s₁ s') : Onward s s' := along_onward.trans h h'

end Onward

/-- Reading a type leaves the scopes before open. -/
theorem ReadsTy.onward {ty : Ty} (h : ReadsTy s ty s') : Onward s s' :=
  h.goesOn along_onward.goesOn

/-- Reading an expression leaves the scopes before open. -/
theorem Reads.onward {e : Exp Span} (h : Reads s e s') : Onward s s' :=
  ⟨h.along along_tokens_eq fun _ _ => rfl, h.threads.scopes⟩

/-- Reading a function leaves the scopes before open. -/
theorem ReadsFunc.onward {f : Func Span (Piece (Exp Span))} (h : ReadsFunc s f s')
    (hbody : Reads f.body.start f.body.item f.body.stop) : Onward s s' :=
  ⟨h.along along_tokens_eq (fun _ _ => rfl) hbody.onward.tokens, (h.numbered hbody.threads).1⟩

/-- Reading the functions of a bundle leaves the scopes before open. -/
theorem ReadsFuncs.onward {fs : List (Func Span (Piece (Exp Span)))} (h : ReadsFuncs s fs s')
    (each : ∀ f ∈ fs, Reads f.body.start f.body.item f.body.stop) : Onward s s' :=
  ⟨h.along along_tokens_eq (fun _ _ => rfl) fun f hf => (each f hf).onward.tokens,
    (h.numbered fun f hf => (each f hf).threads).1⟩

/-! ## Around a part -/

section Around

/-- What stands before an item of a list and after it. -/
theorem Listed.around (hC : Along C) {close : Kind} (hclose : close.counts = false)
    {ps : List (Piece α)} (h : Listed close s ps s') (each : ∀ p ∈ ps, C p.start p.stop) :
    ∀ p ∈ ps, C s p.start ∧ C p.stop s' := by
  induction h with
  | nil => simp
  | @last p s' ends =>
    intro q hq
    obtain rfl := List.mem_singleton.1 hq
    exact ⟨hC.refl _, hC.takes ends (Kind.ne_endOfInput_of_counts hclose)⟩
  | @more p ps s s' comma rest ih =>
    obtain ⟨hp, hps⟩ := List.forall_mem_cons.1 each
    have hcomma := hC.takes comma
    have hrest := rest.goesOn hC.goesOn hclose hps
    refine List.forall_mem_cons.2 ⟨⟨hC.refl _, hC.trans hcomma hrest⟩, fun q hq => ?_⟩
    obtain ⟨hbefore, hafter⟩ := ih hps q hq
    exact ⟨hC.trans hp (hC.trans hcomma hbefore), hafter⟩

/-- What stands before an offset of a path and after it. -/
theorem ReadsPath.around (hC : Along C) {path : List (Step (Piece α))} (h : ReadsPath s path s')
    (each : ∀ p ∈ path.filterMap Step.offset?, C p.start p.stop) :
    ∀ p ∈ path.filterMap Step.offset?, C s p.start ∧ C p.stop s' := by
  induction h with
  | nil => simp
  | field dot offset _ ih =>
    have htokens := hC.trans (hC.takes dot) (hC.takes offset.1)
    intro p hp
    obtain ⟨hbefore, hafter⟩ := ih (by simpa using each) p (by simpa using hp)
    exact ⟨hC.trans htokens hbefore, hafter⟩
  | element opens offset ends _ ih =>
    have htokens := hC.trans (hC.takes opens) (hC.trans (hC.takes offset.1) (hC.takes ends))
    intro p hp
    obtain ⟨hbefore, hafter⟩ := ih (by simpa using each) p (by simpa using hp)
    exact ⟨hC.trans htokens hbefore, hafter⟩
  | lane opens ends rest ih =>
    -- the offset of this step, with all further steps behind it; and the offsets of those, with
    -- this step before them
    obtain ⟨hp, hps⟩ := List.forall_mem_cons.1 each
    have hrest := rest.goesOn hC.goesOn hps
    refine List.forall_mem_cons.2
      ⟨⟨hC.takes opens, hC.trans (hC.takes ends) hrest⟩, fun q hq => ?_⟩
    obtain ⟨hbefore, hafter⟩ := ih hps q hq
    have hends := hC.trans (hC.takes ends) hbefore
    exact ⟨hC.trans (hC.takes opens) (hC.trans hp hends), hafter⟩
  | index sign rest ih =>
    obtain ⟨hp, hps⟩ := List.forall_mem_cons.1 each
    have hrest := rest.goesOn hC.goesOn hps
    refine List.forall_mem_cons.2 ⟨⟨hC.takes sign, hrest⟩, fun q hq => ?_⟩
    obtain ⟨hbefore, hafter⟩ := ih hps q hq
    exact ⟨hC.trans (hC.takes sign) (hC.trans hp hbefore), hafter⟩

/-- What stands before a function of a bundle and after it. -/
theorem ReadsFuncs.around (hC : Along C) {fs : List (Func Span (Piece α))}
    (h : ReadsFuncs s fs s') (each : ∀ f ∈ fs, ∀ s s', ReadsFunc s f s' → C s s') :
    C s s' ∧ ∀ f ∈ fs, ∃ s₁ s₂, ReadsFunc s₁ f s₂ ∧ C s s₁ ∧ C s₂ s' := by
  induction h with
  | @last f s s' func =>
    refine ⟨each f (by simp) _ _ func, fun g hg => ?_⟩
    obtain rfl := List.mem_singleton.1 hg
    exact ⟨s, s', func, hC.refl _, hC.refl _⟩
  | @more f fs s s₁ s₂ s' func word _ ih =>
    obtain ⟨hf, hfs⟩ := List.forall_mem_cons.1 each
    obtain ⟨hrest, hbundle⟩ := ih hfs
    have hword := hC.takes word
    have hfunc := hf _ _ func
    refine ⟨hC.trans hfunc (hC.trans hword hrest), List.forall_mem_cons.2 ⟨?_, fun g hg => ?_⟩⟩
    · exact ⟨s, s₁, func, hC.refl _, hC.trans hword hrest⟩
    · obtain ⟨s₃, s₄, hreads, hbefore, hafter⟩ := hbundle g hg
      exact ⟨s₃, s₄, hreads, hC.trans hfunc (hC.trans hword hbefore), hafter⟩

end Around

end BranchIR
