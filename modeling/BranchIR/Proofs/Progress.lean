import BranchIR.Proofs.Parser.Levels
import BranchIR.Proofs.Parser.Rounds
import BranchIR.Proofs.Typing.Inversion

/-!
# Reading comes to an end

Whatever tokens stand in the input, reading an expression, a type, a list or a path comes to its
end, also where the input breaks off. There are no more levels of recursion than tokens remain, and
no more rounds of a loop, because a level stands behind a token and a round that is not the last
takes one. The end of the input is never passed, and what is read holds no token for it.

## Key results

- `Repeats.of_rounds`: loops whose rounds consume tokens
- `reading_progresses`: readers and loops, from any place in any tokens
-/

namespace BranchIR

open BranchIR.Parser

variable {α β γ ι : Type}

/-! ## Readers that are cut -/

/-- Reads an expression of at most `n` levels, and `out` below them. -/
def exprCut (bp : BindingPower) (out : Parser (Exp Span)) : (n : Nat) → Parser (Exp Span)
  | 0 => out
  | n + 1 => Grammar.full.exprLevel bp (levels (Grammar.full.exprLevel .loose) out n)

/-- Reads a list with `out` behind its first `n` rounds. -/
def listCut (close : Kind) (item : Parser α) (out : List α → Parser (List α)) (n : Nat) :
    Parser (List α) := do
  let items ← rounds (listRound close item) out n []
  let _ ← expect close
  return items

/-- Reads a path with `out` behind its first `n` rounds. -/
def pathCut (out : List (Step (Exp Span)) → Parser (List (Step (Exp Span)))) (n : Nat) :
    Parser (List (Step (Exp Span))) :=
  rounds (stepRound (Grammar.full.expr .loose)) out n []

/-! ## What reading does to the tokens -/

/-- Reading from the state comes to its end: where it is cut behind so many levels or rounds as
    tokens remain, it does not matter what is put there. It goes on in the tokens, and not past the
    last one, whether it succeeds or not. -/
structure Ends (cut : ι → Nat → Parser α) (p : Parser α) (s : State) : Prop where
  uncut : ∀ out n, s.remaining ≤ n → cut out n s = p s
  tokens : (endState (p s)).tokens = s.tokens
  onward : s.behind.length ≤ (endState (p s)).behind.length
  inside : (endState (p s)).behind.length < s.tokens.length

/-- From the state the loop comes to its end: where it is cut behind so many rounds as tokens
    remain, it does not matter what is put there. A round that is not the last consumes tokens. -/
structure Repeats (round : β → Parser (β ⊕ γ)) (loop : β → Parser γ) (s : State) : Prop where
  uncut : ∀ out n b, s.remaining ≤ n → rounds round out n b s = loop b s
  consumes : ∀ b b' s', round b s = .ok (.inl b') s' → Consumes s s'

/-- The loop of a list, with the items read before. -/
abbrev ListRepeats (close : Kind) (item : Parser α) (s : State) : Prop :=
  Repeats (listRound close item) (fun items => do
    return items ++ (← itemsBefore close item s.remaining)) s

/-- What reading from the state does to the tokens: the readers, and then the loops they run. -/
structure Progress (s : State) : Prop where
  expr : ∀ bp, Ends (exprCut bp) (Grammar.full.expr bp) s
  /-- An expression is one level, with the reader itself for what stands inside. -/
  expr_level : ∀ bp, Grammar.full.expr bp s = Grammar.full.exprLevel bp (Grammar.full.expr .loose) s
  expr_consumes : ∀ bp e s', Grammar.full.expr bp s = .ok e s' → Consumes s s'
  ty : Ends (levels Grammar.full.tyLevel) Grammar.full.ty s
  ty_level : Grammar.full.ty s = Grammar.full.tyLevel Grammar.full.ty s
  ty_consumes : ∀ ty s', Grammar.full.ty s = .ok ty s' → Consumes s s'
  exprs : ∀ close bp,
    Ends (listCut close (Grammar.full.expr bp)) (listTo close (Grammar.full.expr bp)) s
  tys : ∀ close, Ends (listCut close Grammar.full.ty) (listTo close Grammar.full.ty) s
  path : Ends pathCut Grammar.full.path s
  expr_items : ∀ close bp, ListRepeats close (Grammar.full.expr bp) s
  ty_items : ∀ close, ListRepeats close Grammar.full.ty s
  arm_items : ∀ close, ListRepeats close (readArm (Grammar.full.expr .loose)) s
  param_items : ∀ close, ListRepeats close (readParam Grammar.full.ty) s
  steps : Repeats (stepRound (Grammar.full.expr .loose)) (fun path => do
    return path ++ (← readSteps (Grammar.full.expr .loose) s.remaining)) s
  trailing : Repeats (Grammar.full.trailRound (Grammar.full.expr .loose))
    (Grammar.full.trail (Grammar.full.expr .loose) s.remaining) s
  funcs : Repeats (funcRound Grammar.full.ty (Grammar.full.expr .loose)) (fun b => do
    return b.2 ++ (← readFuncs Grammar.full.ty (Grammar.full.expr .loose) b.1)) s

/-- Reading goes on in the tokens and closes the scopes that it opens. -/
private theorem lasting_forward : Lasting (fun s s' => Onward s s' ∧ NoEarlier s s')
    fun s s' => Within s s' ∧ NoEarlier s s' :=
  lasting_onward.and lasting_noEarlier

section Progress

variable {s : State} (hs : s.Ended)

include hs

/-- A steady reader goes on in the tokens, so it ends as soon as a cut makes no difference. -/
private theorem Ends.of_steady {cut : ι → Nat → Parser α} {p : Parser α}
    (h : Steady (fun s s' => Onward s s' ∧ NoEarlier s s') p)
    (huncut : ∀ out n, s.remaining ≤ n → cut out n s = p s) : Ends cut p s := by
  have hrestores := h.restores hs
  refine ⟨huncut, hrestores.tokens, hrestores.position, ?_⟩
  rw [← hrestores.tokens]
  simp [State.tokens]

/-- A loop whose rounds consume tokens is what it comes to with enough rounds, however many. -/
theorem Repeats.of_rounds {round : β → Parser (β ⊕ γ)} {loop : β → Parser γ}
    (h : ConsumingRounds round)
    (hloop : ∀ b, ∃ out n, s.remaining ≤ n ∧ rounds round out n b = loop b) :
    Repeats round loop s where
  uncut out n b hn := by
    obtain ⟨out', m, hm, heq⟩ := hloop b
    rw [← heq]
    exact rounds_eq_rounds h out out' hs hn hm b
  consumes b b' s' hround := (h s b b' s' hs hround).1

/-- A list is read round by round, since each of its items takes a token. -/
private theorem listRepeats {item : Parser α} (hitem : Consuming item) (close : Kind) :
    ListRepeats close item s :=
  .of_rounds hs (listRound_consumes hitem close) fun items =>
    ⟨pure, s.remaining, Nat.le_refl _, rounds_listRound close item s.remaining items⟩

/-- A path goes on while a token that begins a step stands next, and each step takes it. -/
private theorem steps_repeat : Repeats (stepRound (Grammar.full.expr .loose)) (fun path => do
    return path ++ (← readSteps (Grammar.full.expr .loose) s.remaining)) s :=
  .of_rounds hs (stepRound_consumes (expr_consumes .loose)) fun path =>
    ⟨pure, s.remaining, Nat.le_refl _, rounds_stepRound _ s.remaining path⟩

/-- A trailing form takes the token that announces it. -/
private theorem trailing_repeats : Repeats (Grammar.full.trailRound (Grammar.full.expr .loose))
    (Grammar.full.trail (Grammar.full.expr .loose) s.remaining) s :=
  .of_rounds hs (trailRound_consumes (expr_consumes .loose)) fun left =>
    ⟨pure, s.remaining, Nat.le_refl _, rounds_trailRound _ _ s.remaining left⟩

/-- A further function of a bundle takes the word in front of it. -/
private theorem funcs_repeat : Repeats (funcRound Grammar.full.ty (Grammar.full.expr .loose))
    (fun b => do
      return b.2 ++ (← readFuncs Grammar.full.ty (Grammar.full.expr .loose) b.1)) s := by
  refine .of_rounds hs (funcRound_consumes (expr_sound .loose)) fun (ids, funcs) => ?_
  -- there have to be enough rounds for the identities too
  have henough : ids.length < s.remaining + (ids.length + 1) := by omega
  exact ⟨fun b => pure b.2, _, Nat.le_add_right _ _, rounds_funcRound henough _ funcs⟩

/-- The loop over a list ends within the tokens that are left. -/
private theorem listTo_ends {item : Parser α} (hitem : Consuming item)
    (h : Steady (fun s s' => Onward s s' ∧ NoEarlier s s') item) (close : Kind) :
    Ends (listCut close item) (listTo close item) s := by
  refine .of_steady hs (.listTo lasting_forward.outer h close) fun out n hn => ?_
  refine bind_congr ?_ fun _ _ _ => rfl
  rw [(listRepeats hs hitem close).uncut out n [] hn]
  simp only [List.nil_append, bind_pure]

/-- The loop over a path ends within the tokens that are left. -/
private theorem path_ends : Ends pathCut Grammar.full.path s := by
  refine .of_steady hs (.path lasting_forward) fun out n hn => ?_
  rw [pathCut, (steps_repeat hs).uncut out n [] hn]
  simp only [List.nil_append, bind_pure]
  rfl

/-- Reading an expression ends within the tokens that are left, in depth and in each loop. -/
private theorem expr_ends (bp : BindingPower) : Ends (exprCut bp) (Grammar.full.expr bp) s := by
  refine .of_steady hs (.expr lasting_forward bp) fun out n hn => ?_
  obtain ⟨n, rfl⟩ := Nat.exists_eq_add_of_le' (Nat.le_trans s.remaining_pos hn)
  rw [expr_eq_exprLevel hs]
  exact ((deepens_exprLevel bp).agrees (exprLevels_agree out n) s hs hn).eq

/-- Reading a type ends within the tokens that are left. -/
private theorem ty_ends : Ends (levels Grammar.full.tyLevel) Grammar.full.ty s := by
  refine .of_steady hs (.ty lasting_forward.outer _) fun out n hn => ?_
  exact (tyLevels_agree out n s hs hn).eq

end Progress

/-- From every state whose tokens close with the end of the input, reading comes to its end and
    makes progress. -/
theorem reading_progresses {s : State} (hs : s.Ended) : Progress s where
  expr := expr_ends hs
  expr_level := expr_eq_exprLevel hs
  expr_consumes bp e s' h := (expr_consumes bp s e s' hs h).1
  ty := ty_ends hs
  ty_level := ty_eq_tyLevel hs
  ty_consumes ty s' h := (ty_consumes s ty s' hs h).1
  exprs close bp := listTo_ends hs (expr_consumes bp) (.expr lasting_forward bp) close
  tys := listTo_ends hs ty_consumes (.ty lasting_forward.outer _)
  path := path_ends hs
  expr_items close bp := listRepeats hs (expr_consumes bp) close
  ty_items := listRepeats hs ty_consumes
  arm_items := listRepeats hs (readArm_consumes (expr_sound .loose))
  param_items := listRepeats hs readParam_consumes
  steps := steps_repeat hs
  trailing := trailing_repeats hs
  funcs := funcs_repeat hs

/-- A bundle that breaks off behind a comma in the arguments of a call. -/
private def truncated : String := "rec f(x: i8): {i8, &i8} = f(x)(x,"

/-- Whether a run has failed, and where: the kind of the token there and how many remain. -/
private def failure? : EStateM.Result Error State α → Option (Kind × Nat)
  | .ok _ _ => none
  | .error _ s => some (s.current.kind, s.remaining)

/-- Reading fails, and stands at the end of the input then. -/
theorem reading_progresses_truncated :
    ∃ tokens e s', tokenize truncated "shell" = .ok tokens ∧
      (State.ofTokens "shell" tokens).Ended ∧
      Grammar.full.expr .loose (State.ofTokens "shell" tokens) = .error e s' ∧
      s'.current.kind = .endOfInput ∧ s'.remaining = 1 ∧
      Progress (State.ofTokens "shell" tokens) := by
  have hrun : (tokenize truncated "shell").toOption.bind (fun tokens =>
      failure? (Grammar.full.expr .loose (State.ofTokens "shell" tokens))) =
        some (.endOfInput, 1) := by
    decide +kernel
  obtain ⟨tokens, htokens, hfailure⟩ := Option.bind_eq_some_iff.1 hrun
  have hended := State.ofTokens_ended "shell" tokens
  cases hread : Grammar.full.expr .loose (State.ofTokens "shell" tokens) with
  | ok e s' =>
    rw [hread] at hfailure
    cases hfailure
  | error e s' =>
    rw [hread] at hfailure
    obtain ⟨hkind, hremaining⟩ := Prod.mk.inj (Option.some.inj hfailure)
    exact ⟨tokens, e, s', toOption_eq_some.1 htokens, hended, hread, hkind, hremaining,
      reading_progresses hended⟩

end BranchIR
