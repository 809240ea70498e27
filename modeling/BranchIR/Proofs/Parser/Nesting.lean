import BranchIR.Proofs.Exp.Nesting
import BranchIR.Proofs.Parser.Onward
import BranchIR.Proofs.Token.Places

/-!
# Spans of what is read

A span is made of two tokens: where the first token of a form begins, or of what stands before a
trailing form, and where the last token that was read has ended. Reading never goes back, so what
is read later has its span further on, and what is read inside a form has its span inside that
of the form. Tokens that leave no node, such as parentheses, only widen the gaps.
-/

namespace BranchIR

/-! ## Where reading stands -/

namespace State

variable {k : Kind} {s s' : State}

/-- Where the last token that was read has ended. -/
def reached (s : State) : Nat :=
  match s.behind with
  | [] => 0
  | t :: _ => t.span.stop

private theorem mem_tokens_of_mem_behind {t : Token} (h : t ∈ s.behind) : t ∈ s.tokens :=
  List.mem_append_left _ (List.mem_reverse.2 h)

/-- The tokens left behind stand before the one that stands next. -/
private theorem precedes_current (hs : Spaced s.tokens) {t : Token} (ht : t ∈ s.behind) :
    t.Precedes s.current :=
  (List.pairwise_append.1 hs).2.2 t (List.mem_reverse.2 ht) s.current (List.mem_cons_self ..)

/-- The current token begins after those that were read. -/
private theorem reached_le (hs : Spaced s.tokens) : s.reached ≤ s.position.offset := by
  unfold reached
  split
  · exact Nat.zero_le _
  · next t ts hbehind =>
    have ht : t ∈ s.behind := hbehind ▸ List.mem_cons_self ..
    exact (precedes_current hs ht).before

/-- Where reading has come to, a token ends that has been read. -/
private theorem exists_reached (h : 0 < s.reached) : ∃ t ∈ s.behind, t.span.stop = s.reached := by
  unfold reached at h ⊢
  split at h
  · exact absurd h (Nat.lt_irrefl 0)
  · next t ts hbehind =>
    rw [hbehind]
    exact ⟨t, List.mem_cons_self .., rfl⟩

/-- A span ends with the last token that was read. -/
private theorem stop_spanFrom (h : 0 < s.reached) (start : Position) :
    (s.spanFrom start).stop = s.reached := by
  rw [reached] at h ⊢
  rw [spanFrom]
  cases hbehind : s.behind with
  | nil =>
    rw [hbehind] at h
    exact absurd h (Nat.lt_irrefl 0)
  | cons t ts => rfl

/-- A span starts where its position says. -/
private theorem start_spanFrom (s : State) (start : Position) :
    (s.spanFrom start).start = start.offset :=
  congrArg Position.offset (s.first_spanFrom start)

/-- A token that is taken is reached to its end. -/
private theorem Takes.reached_eq (h : s.Takes k s') : s'.reached = s.current.span.stop := by
  rw [reached, h.behind_eq]

/-- A token that is taken stands before the one behind it. -/
private theorem Takes.precedes (h : s.Takes k s') (hs : Spaced s.tokens) :
    s.current.Precedes s'.current := by
  refine precedes_current (h.tokens_eq ▸ hs) ?_
  rw [h.behind_eq]
  exact List.mem_cons_self ..

/-- A token by itself. -/
private theorem Takes.spanFrom_eq (h : s.Takes k s') : s'.spanFrom s.position = s.current.span := by
  rw [spanFrom, h.behind_eq]
  rfl

end State

/-! ## Going on in the text -/

/-- The state after is further on in the text of the same tokens. -/
structure Past (s s' : State) : Prop where
  tokens : s'.tokens = s.tokens
  position : Spaced s.tokens → s.position.offset ≤ s'.position.offset
  reached : Spaced s.tokens → s.reached ≤ s'.reached

/-- Behind a token the text goes on. -/
private theorem State.Takes.past {k : Kind} {s s' : State} (h : s.Takes k s') : Past s s' := by
  refine ⟨h.tokens_eq, fun hs => ?_, fun hs => ?_⟩
  · have hpos := h.precedes hs
    exact Nat.le_trans (Nat.le_of_lt hpos.nonempty) hpos.before
  · rw [h.reached_eq]
    exact Nat.le_trans (State.reached_le hs) (Nat.le_of_lt (h.precedes hs).nonempty)

/-- To be further on in the text is kept from token to token. -/
private theorem along_past : Along Past where
  refl s := ⟨rfl, fun _ => Nat.le_refl _, fun _ => Nat.le_refl _⟩
  trans {s s₁ s'} h h' := by
    have htokens := h'.tokens.trans h.tokens
    refine ⟨htokens, fun hs => ?_, fun hs => ?_⟩
    · exact Nat.le_trans (h.position hs) (h'.position (h.tokens ▸ hs))
    · exact Nat.le_trans (h.reached hs) (h'.reached (h.tokens ▸ hs))
  takes h _ := h.past

section Past

variable {s s₁ s' : State}

theorem Past.refl (s : State) : Past s s := along_past.refl s

theorem Past.trans (h : Past s s₁) (h' : Past s₁ s') : Past s s' := along_past.trans h h'

private theorem Past.withScopes (s : State) (scopes : Scopes) : Past s (s.withScopes scopes) :=
  ⟨rfl, fun _ => Nat.le_refl _, fun _ => Nat.le_refl _⟩

/-- A span from a token to the end of what was read. -/
private theorem Past.spanFrom (h : Past s s') (hs : Spaced s.tokens) {start : Position}
    (hstart : ∃ t ∈ s.tokens, t.kind ≠ .endOfInput ∧ t.span.first = start)
    (hreached : start.offset < s'.reached) :
    OnTokens s.tokens (s'.spanFrom start) ∧ (s'.spanFrom start).stop = s'.reached := by
  have hpos : 0 < s'.reached := Nat.zero_lt_of_lt hreached
  have hstop := State.stop_spanFrom hpos start
  obtain ⟨t, ht, hlast⟩ := State.exists_reached hpos
  have hkind := (State.precedes_current (h.tokens.symm ▸ hs) ht).kind
  refine ⟨⟨?_, ⟨t, h.tokens ▸ State.mem_tokens_of_mem_behind ht, hkind, ?_⟩, ?_⟩, hstop⟩
  · rwa [State.first_spanFrom]
  · rw [hlast, hstop]
  · rwa [State.start_spanFrom, hstop]

/-- Reading a type goes on. -/
private theorem ReadsTy.past {ty : Ty} (h : ReadsTy s ty s') : Past s s' :=
  h.goesOn along_past.goesOn

end Past

/-! ## Things one after the other -/

/-- Between the states the spans stand in order. -/
structure Stretch (s : State) (spans : List Span) (s' : State) : Prop where
  past : Past s s'
  order : Spaced s.tokens → InOrder s.position.offset spans s'.reached

namespace Stretch

variable {s s₁ s' : State} {as bs : List Span}

private theorem nil (h : Past s s') : Stretch s [] s' := ⟨h, fun _ => .nil _ _⟩

/-- Stretches one after the other are one stretch. -/
private theorem append (h : Stretch s as s₁) (h' : Stretch s₁ bs s') : Stretch s (as ++ bs) s' where
  past := h.past.trans h'.past
  order hs := by
    have hs₁ : Spaced s₁.tokens := h.past.tokens ▸ hs
    exact (h.order hs).append (h'.order hs₁) (State.reached_le hs₁) (h.past.position hs)
      (h'.past.reached hs₁)

end Stretch

/-- The span goes from the token where reading begins to the last one that is read. -/
structure Frames (s : State) (a : Span) (s' : State) : Prop where
  past : Past s s'
  start : a.start = s.position.offset
  stop : Spaced s.tokens → a.stop = s'.reached
  onTokens : Spaced s.tokens → OnTokens s.tokens a

private theorem Frames.stretch {s s' : State} {a : Span} (h : Frames s a s') : Stretch s [a] s' :=
  ⟨h.past, fun hs => .single (Nat.le_of_eq h.start.symm) (Nat.le_of_eq (h.stop hs))⟩

/-- A span from a token that is taken on. -/
private theorem State.Takes.frames {k : Kind} {s s₁ s' : State} (first : s.Takes k s₁)
    (h : Past s₁ s') :
    Frames s (s'.spanFrom s.position) s' := by
  have hpast := first.past.trans h
  have hspan (hs : Spaced s.tokens) : OnTokens s.tokens (s'.spanFrom s.position) ∧
      (s'.spanFrom s.position).stop = s'.reached := by
    have hfirst := first.precedes hs
    have hreached := h.reached (first.tokens_eq ▸ hs)
    rw [first.reached_eq] at hreached
    exact hpast.spanFrom hs ⟨s.current, s.current_mem_tokens, hfirst.kind, rfl⟩
      (Nat.lt_of_lt_of_le hfirst.nonempty hreached)
  exact ⟨hpast, State.start_spanFrom .., fun hs => (hspan hs).2, fun hs => (hspan hs).1⟩

variable {ι : Type} {outer : ι → Span} {Q : List Token → ι → Prop}

/-- Between the states the items have their spans in order, and each has a property. -/
structure Holds (outer : ι → Span) (Q : List Token → ι → Prop) (s : State) (items : List ι)
    (s' : State) : Prop where
  stretch : Stretch s (items.map outer) s'
  each : Spaced s.tokens → ∀ i ∈ items, Q s.tokens i

namespace Holds

variable {s s₁ s' : State} {as bs : List ι}

private theorem nil (h : Past s s') : Holds outer Q s [] s' := ⟨.nil h, fun _ => by simp⟩

/-- What is held in two stretches one after the other is held in the whole. -/
private theorem append (h : Holds outer Q s as s₁) (h' : Holds outer Q s₁ bs s') :
    Holds outer Q s (as ++ bs) s' where
  stretch := by
    rw [List.map_append]
    exact h.stretch.append h'.stretch
  each hs := by
    have htokens := h.stretch.past.tokens
    have hbs := h'.each (htokens ▸ hs)
    rw [htokens] at hbs
    exact List.forall_mem_append.2 ⟨h.each hs, hbs⟩

private theorem before (h : Holds outer Q s₁ as s') (hpast : Past s s₁) : Holds outer Q s as s' :=
  (nil hpast).append h

/-- What is held goes on being held when more is read. -/
private theorem after (h : Holds outer Q s as s₁) (hpast : Past s₁ s') : Holds outer Q s as s' := by
  have hnil : Holds outer Q s₁ [] s' := .nil hpast
  have hall := h.append hnil
  rwa [List.append_nil] at hall

end Holds

section Containers

variable {α : Type} {s s' : State}

/-- The items of a list, each with what it has. -/
private theorem Listed.holds {close : Kind} {ps : List (Piece α)} (item : α → ι)
    (h : Listed close s ps s') (each : ∀ p ∈ ps, Holds outer Q p.start [item p.item] p.stop) :
    Holds outer Q s (ps.map fun p => item p.item) s' := by
  induction h with
  | nil ends => exact .nil ends.past
  | last ends => exact (each _ (List.mem_singleton_self _)).after ends.past
  | more comma _ ih =>
    obtain ⟨hp, hps⟩ := List.forall_mem_cons.1 each
    exact (hp.after comma.past).append (ih hps)

/-- The offsets of a path, each with what it has. -/
private theorem ReadsPath.holds {path : List (Step (Piece α))} (item : α → ι)
    (h : ReadsPath s path s')
    (each : ∀ p ∈ path.filterMap Step.offset?, Holds outer Q p.start [item p.item] p.stop) :
    Holds outer Q s ((path.filterMap Step.offset?).map fun p => item p.item) s' := by
  induction h with
  | nil => exact .nil (.refl _)
  | field dot offset _ ih =>
    exact (ih (by simpa using each)).before (dot.past.trans offset.1.past)
  | element opens offset ends _ ih =>
    exact (ih (by simpa using each)).before (opens.past.trans (offset.1.past.trans ends.past))
  | lane opens ends _ ih =>
    obtain ⟨hp, hps⟩ := List.forall_mem_cons.1 each
    exact (hp.before opens.past).append ((ih hps).before ends.past)
  | index sign _ ih =>
    obtain ⟨hp, hps⟩ := List.forall_mem_cons.1 each
    exact (hp.before sign.past).append (ih hps)

end Containers

/-! ## Expressions and their parts -/

/-- The parts of an expression, or some of them, are read with nested spans. -/
abbrev HoldsParts (s : State) (parts : List (Role Span × Exp Span)) (s' : State) : Prop :=
  Holds (fun p => p.1.outer p.2) PartNested s parts s'

/-- An expression is read with nested spans. -/
abbrev Lies (s : State) (e : Exp Span) (s' : State) : Prop := Holds Exp.ann Nested s [e] s'

namespace Lies

variable {s s₁ s' : State} {e left : Exp Span} {k : Kind}

/-- An expression between two states. -/
private theorem intro (past : Past s s') (inside : Spaced s.tokens →
    s.position.offset ≤ e.ann.start ∧ e.ann.stop ≤ s'.reached ∧ Nested s.tokens e) :
    Lies s e s' where
  stretch := by
    refine ⟨past, fun hs => ?_⟩
    obtain ⟨hstart, hstop, -⟩ := inside hs
    exact .single hstart hstop
  each hs := List.forall_mem_singleton.2 (inside hs).2.2

/-- An expression that is read lies between the states, and its parts are nested. -/
theorem inside (h : Lies s e s') (hs : Spaced s.tokens) :
    s.position.offset ≤ e.ann.start ∧ e.ann.stop ≤ s'.reached ∧ Nested s.tokens e := by
  obtain ⟨hstart, hstop⟩ := (h.stretch.order hs).within e.ann (List.mem_singleton_self _)
  exact ⟨hstart, hstop, h.each hs e (List.mem_singleton_self _)⟩

/-- An expression as a part, but for a body. -/
private theorem part (h : Lies s e s') (role : Role Span) (hrole : ∀ f, role ≠ .body f) :
    HoldsParts s [(role, e)] s' := by
  refine ⟨⟨h.stretch.past, fun hs => ?_⟩, fun hs => List.forall_mem_singleton.2 ?_⟩
  · rw [List.map_singleton, Role.outer_of_ne hrole]
    exact h.stretch.order hs
  · exact ⟨(h.inside hs).2.2, fun f hf => absurd hf (hrole f)⟩

/-- An expression that stands alone is one part. -/
private theorem operand (h : Lies s e s') : HoldsParts s [(.operand, e)] s' :=
  h.part _ fun _ => nofun

/-- A form that begins with a token. -/
private theorem of_form (first : s.Takes k s₁) (parts : HoldsParts s₁ e.parts s')
    (ann : e.ann = s'.spanFrom s.position) : Lies s e s' := by
  have hframes := first.frames parts.stretch.past
  rw [← ann] at hframes
  refine .intro hframes.past fun hs => ?_
  have hs₁ : Spaced s₁.tokens := first.tokens_eq ▸ hs
  refine ⟨Nat.le_of_eq hframes.start.symm, Nat.le_of_eq (hframes.stop hs),
    .of_parts (hframes.onTokens hs) ?_ fun p hp => ?_⟩
  · rw [hframes.start, hframes.stop hs]
    exact (parts.stretch.order hs₁).mono (first.past.position hs) (Nat.le_refl _)
  · exact first.tokens_eq ▸ parts.each hs₁ p hp

/-- A trailing form: its first part stands in front, and it begins where that part does, which
    may be after the parentheses around it. -/
private theorem of_trailing {role : Role Span} {rest : List (Role Span × Exp Span)}
    (hleft : Lies s left s₁)
    (hrest : HoldsParts s₁ rest s') (parts : e.parts = (role, left) :: rest)
    (hrole : ∀ f, role ≠ .body f) (ann : e.ann = s'.spanFrom left.ann.first) : Lies s e s' := by
  have hall := (hleft.part role hrole).append hrest
  refine .intro hall.stretch.past fun hs => ?_
  obtain ⟨hlo, hhi, hnested⟩ := hleft.inside hs
  have hwidth := hnested.node.onTokens.nonempty
  have hreached := hrest.stretch.past.reached (hleft.stretch.past.tokens ▸ hs)
  obtain ⟨honTokens, hstop⟩ := hall.stretch.past.spanFrom hs hnested.node.onTokens.starts
    (Nat.lt_of_lt_of_le hwidth (Nat.le_trans hhi hreached))
  have hstart := State.start_spanFrom s' left.ann.first
  rw [← ann] at honTokens hstop hstart
  refine ⟨hstart ▸ hlo, Nat.le_of_eq hstop, .of_parts honTokens ?_ fun p hp => ?_⟩
  · have horder := hall.stretch.order hs
    rw [List.map_append, List.map_singleton, Role.outer_of_ne hrole] at horder
    rw [hstart, hstop, Exp.spansBelow, parts, List.map_cons, Role.outer_of_ne hrole]
    exact horder.from_first (Nat.le_of_lt hwidth)
  · rw [parts] at hp
    exact hall.each hs p hp

end Lies

section Parts

variable {s s' : State} {close : Kind}

/-- The items of a list as operands. -/
private theorem Listed.operands {ps : List (Piece (Exp Span))} (h : Listed close s ps s')
    (each : ∀ p ∈ ps, Lies p.start p.item p.stop) :
    HoldsParts s ((ps.map Piece.item).map fun e => (.operand, e)) s' := by
  rw [List.map_map]
  exact h.holds (fun e => (Role.operand, e)) fun p hp => (each p hp).operand

/-- The offsets of a path as operands. -/
private theorem ReadsPath.operands {path : List (Step (Piece (Exp Span)))} (h : ReadsPath s path s')
    (each : ∀ p ∈ path.filterMap Step.offset?, Lies p.start p.item p.stop) :
    HoldsParts s ((Exp.offsets (path.map (Step.map Piece.item))).map fun e => (.operand, e))
      s' := by
  rw [offsets_map_item, List.map_map]
  exact h.holds (fun e => (Role.operand, e)) fun p hp => (each p hp).operand

/-- The bodies of arms, each after its pattern. -/
private theorem Listed.arms {arms : List (Piece (Arm (Piece (Exp Span))))}
    (h : Listed close s arms s') (heads : ∀ a ∈ arms, ReadsArm a)
    (each : ∀ a ∈ arms, Lies a.item.body.start a.item.body.item a.item.body.stop) :
    HoldsParts s ((arms.map fun a => a.item.map Piece.item).map fun arm => (.same, arm.body))
      s' := by
  rw [List.map_map]
  refine h.holds (fun arm => (Role.same, (arm.map Piece.item).body)) fun a ha => ?_
  obtain ⟨_, _, _, hstop⟩ := heads a ha
  have hbody := (each a ha).part .same fun _ => nofun
  rw [hstop] at hbody
  exact hbody.before ((heads a ha).goesOn along_past.goesOn)

/-- A parameter goes from its name to its type. -/
private theorem ReadsParam.holds {p : Piece (Param Span)} (h : ReadsParam p) :
    Holds Param.ann (fun tokens p => OnTokens tokens p.ann) p.start [p.item] p.stop := by
  obtain ⟨s₁, s₂, s₃, name, -, colon, type, hann, -, hstop⟩ := h
  have hframes := name.frames (colon.past.trans type.past)
  rw [← hann] at hframes
  rw [hstop]
  have hparam : Holds Param.ann (fun tokens p => OnTokens tokens p.ann) p.start [p.item] s₃ :=
    ⟨hframes.stretch, fun hs => List.forall_mem_singleton.2 (hframes.onTokens hs)⟩
  exact hparam.after (.withScopes _ _)

private theorem Func.params_map_id {α β δ : Type} (g : α → β) (f : Func δ α) :
    (f.map id g).params = f.params :=
  List.map_id'' (fun _ => rfl) f.params

/-- A function goes from its name to its body, over the parameters. -/
private theorem ReadsFunc.holds {f : Func Span (Piece (Exp Span))} (h : ReadsFunc s f s')
    (hbody : Lies f.body.start f.body.item f.body.stop) :
    HoldsParts s [(.body (f.map id Piece.item), f.body.item)] s' := by
  cases h with
  | @mk f ps s s₁ s₂ s₃ s₄ s₅ s' name opens list each items colon result assignment ann leaves =>
    -- the parameters stand between parentheses, and the body after the result
    have hopen := (Past.withScopes s₁ _).trans opens.past
    have hparams : Holds Param.ann (fun tokens p => OnTokens tokens p.ann) s₁ f.params s₃ := by
      rw [items]
      exact (list.holds id fun p hp => (each p hp).holds).before hopen
    have hlast := hbody.before (colon.past.trans (result.past.trans assignment.past))
    have hbelow := hparams.stretch.append hlast.stretch
    -- a function begins with its name and ends with its body
    have hframes := name.frames hbelow.past
    rw [← ann] at hframes
    have hfunc : HoldsParts s [(.body (f.map id Piece.item), f.body.item)] f.body.stop := by
      refine ⟨hframes.stretch, fun hs => List.forall_mem_singleton.2 ⟨?_, fun func hbody => ?_⟩⟩
      · have hlies : Lies s f.body.item f.body.stop :=
          (hlast.before hparams.stretch.past).before name.past
        exact (hlies.inside hs).2.2
      -- of the only part that enters a body
      · obtain rfl := Role.body.inj hbody
        have hs₁ : Spaced s₁.tokens := name.tokens_eq ▸ hs
        have hname := name.precedes hs
        have horder := (hbelow.order hs₁).mono hname.before (Nat.le_of_eq (hframes.stop hs).symm)
        refine ⟨hframes.onTokens hs, ?_, s.current, s.current_mem_tokens, name.kind,
          hframes.start.symm, hname.nonempty, ?_⟩
        · rw [Func.params_map_id, ← name.tokens_eq]
          exact hparams.each hs₁
        · rw [Func.params_map_id]
          exact horder
    -- closing the scope moves nothing
    rw [leaves]
    exact hfunc.after (.withScopes _ _)

/-- The functions of a bundle, one after the other. -/
private theorem ReadsFuncs.holds {fs : List (Func Span (Piece (Exp Span)))} (h : ReadsFuncs s fs s')
    (each : ∀ f ∈ fs, Lies f.body.start f.body.item f.body.stop) :
    HoldsParts s ((fs.map (Func.map id Piece.item)).map fun f => (.body f, f.body)) s' := by
  rw [List.map_map]
  induction h with
  | last func => exact func.holds (each _ (List.mem_singleton_self _))
  | more func word _ ih =>
    obtain ⟨hf, hfs⟩ := List.forall_mem_cons.1 each
    exact ((func.holds hf).after word.past).append (ih hfs)

end Parts

/-- An expression that is read has nested spans. -/
theorem Reads.lies {e : Exp Span} {s s' : State} (h : Reads s e s') : Lies s e s' := by
  -- each part lies behind the tokens in front of it, and the next part behind it
  induction h with
  | int token | var token => exact .of_form token (.nil (.refl _)) token.spanFrom_eq.symm
  | group opens _ ends ih => exact (ih.before opens.past).after ends.past
  | tuple opens list _ ih | vector opens list _ ih => exact .of_form opens (list.operands ih) rfl
  | prim word opens list _ ih =>
    exact .of_form word ((list.operands ih).before opens.past) rfl
  | letIn word name colon type assignment _ inWord _ leaves ihvalue ihbody =>
    have hopen := name.past.trans (colon.past.trans (type.past.trans assignment.past))
    have hvalue := ihvalue.operand.before hopen
    have hbody := (ihbody.part .under fun _ => nofun).before
      (inWord.past.trans (.withScopes _ _))
    -- opening and closing scopes moves nothing
    subst leaves
    exact .of_form word (hvalue.append (hbody.after (.withScopes _ _))) rfl
  | recIn word _ _ funcs _ inWord _ leaves ihfuncs ihbody =>
    have hfuncs := (funcs.holds ihfuncs).before (.withScopes _ _)
    have hbody := (ihbody.part .after fun _ => nofun).before inWord.past
    subst leaves
    exact .of_form word (hfuncs.append (hbody.after (.withScopes _ _))) rfl
  | caseOf word _ opens list heads _ ihscrutinee iharms =>
    have harms := (list.arms heads iharms).before opens.past
    exact .of_form word (ihscrutinee.operand.append harms) rfl
  | gep word opens _ steps _ ends ihbase ihpath | load word opens _ steps _ ends ihbase ihpath =>
    have hbase := ihbase.operand.before opens.past
    exact .of_form word (hbase.append ((steps.operands ihpath).after ends.past)) rfl
  | store word _ steps _ assignment _ inWord _ ihdest ihpath ihvalue ihbody =>
    have hvalue := ihvalue.operand.before assignment.past
    have hbody := (ihbody.part .same fun _ => nofun).before inWord.past
    have hrest := (steps.operands ihpath).append (hvalue.append hbody)
    exact .of_form word (ihdest.operand.append hrest) rfl
  | update word opens _ steps _ comma _ ends ihbase ihpath ihvalue =>
    have hbase := ihbase.operand.before opens.past
    have hvalue := (ihvalue.operand.before comma.past).after ends.past
    exact .of_form word (hbase.append ((steps.operands ihpath).append hvalue)) rfl
  -- a trailing form begins with its left side, which is its first part
  | ascribe _ mark type ih =>
    exact .of_trailing ih (.nil (mark.past.trans type.past)) rfl
      (fun _ => nofun) rfl
  | coerce _ mark type ih =>
    exact .of_trailing ih (.nil (mark.past.trans type.past)) rfl
      (fun _ => nofun) rfl
  | call _ opens list _ ih iheach =>
    exact .of_trailing ih ((list.operands iheach).before opens.past) rfl
      (fun _ => nofun) rfl

end BranchIR
