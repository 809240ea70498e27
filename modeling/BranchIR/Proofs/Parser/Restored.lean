import BranchIR.Proofs.Parser.Steady
import BranchIR.Token.Lexer

/-!
# Reading restores the scopes

A scope that reading opens is closed again, whether what stands in it can be read or not. So the
scopes that were open when an expression, a path or a type was begun are open afterwards, with the
bindings they had, also where reading has failed deep inside; only the table of names may have
grown. And reading never goes back.
-/

namespace BranchIR

variable {α : Type} {C C' D D' : State → State → Prop}

/-! ## Expressions and paths -/

namespace Steady

variable (hC : Lasting C D)

include hC

theorem expr (bp : BindingPower) : Steady C (Grammar.full.expr bp) :=
  bind hC.outer (get hC.outer) fun _ => exprAt hC _ bp

theorem path : Steady C Grammar.full.path := readPath hC.outer (expr hC .loose)

end Steady

/-! ## The state after reading -/

/-- The state that a run ends in, whether it has succeeded or not. -/
def endState : EStateM.Result Error State α → State
  | .ok _ s => s
  | .error _ s => s

/-- A run ends in a state that the relation leads to, whether it succeeds or fails. -/
private theorem Fares.endState {s : State} {r : EStateM.Result Error State α} (h : Fares C s r) :
    C s (endState r) := by
  cases h with
  | ok keeps ended => exact keeps
  | error keeps formed => exact keeps

/-- The second state is no earlier in the tokens than the first. -/
def NoEarlier (s s' : State) : Prop := s.behind.length ≤ s'.behind.length

/-- To move on is not to go back. -/
private theorem noEarlier_next (s : State) : NoEarlier s s.next := by
  unfold NoEarlier State.next
  split <;> simp

/-- Relations that are kept by moving on are kept together. -/
private theorem Moves.and (hC : Moves C) (hC' : Moves C') : Moves fun s s' => C s s' ∧ C' s s' where
  refl s := ⟨hC.refl s, hC'.refl s⟩
  trans h h' := ⟨hC.trans h.1 h'.1, hC'.trans h.2 h'.2⟩
  next s := ⟨hC.next s, hC'.next s⟩

/-- Two relations that last, last together. -/
theorem Lasting.and (hC : Lasting C D) (hC' : Lasting C' D') :
    Lasting (fun s s' => C s s' ∧ C' s s') fun s s' => D s s' ∧ D' s s' where
  outer := hC.outer.and hC'.outer
  inner := hC.inner.and hC'.inner
  weaken h := ⟨hC.weaken h.1, hC'.weaken h.2⟩
  bind s name := ⟨hC.bind s name, hC'.bind s name⟩
  leave h := ⟨hC.leave h.1, hC'.leave h.2⟩

private theorem moves_noEarlier : Moves NoEarlier where
  refl _ := Nat.le_refl _
  trans h h' := Nat.le_trans h h'
  next := noEarlier_next

/-- Reading goes on in the tokens, whatever it does to the scopes. -/
theorem lasting_noEarlier : Lasting NoEarlier NoEarlier where
  outer := moves_noEarlier
  inner := moves_noEarlier
  weaken h := h
  bind _ _ := Nat.le_refl _
  leave h := h

/-- The second state has the tokens and the open scopes of the first one and is no earlier in the
    tokens. The names of the first state are the first names of the second one. -/
structure Restores (s s' : State) : Prop where
  inner : s'.scopes.inner = s.scopes.inner
  outer : s'.scopes.outer = s.scopes.outer
  names : s.scopes.names.toList <+: s'.scopes.names.toList
  tokens : s'.tokens = s.tokens
  position : s.behind.length ≤ s'.behind.length

/-- What reading keeps on all runs says that it restores the state, as far as it is restored at
    all. -/
theorem Steady.restores {p : Parser α}
    (h : Steady (fun s s' => Onward s s' ∧ NoEarlier s s') p) {s : State} (hs : s.Ended) :
    Restores s (endState (p s)) := by
  obtain ⟨honward, hposition⟩ := (h s hs).endState
  have hscopes := honward.scopes
  exact ⟨hscopes.inner, hscopes.outer, hscopes.names, honward.tokens, hposition⟩

/-- From every state whose tokens close with the end of the input, whatever scopes are open,
    reading an expression, a path or a type restores the scopes, whether it succeeds or not. -/
theorem reading_restores {s : State} (hs : s.Ended) :
    (∀ bp, Restores s (endState (Grammar.full.expr bp s))) ∧
      Restores s (endState (Grammar.full.path s)) ∧
      Restores s (endState (Grammar.full.ty s)) := by
  have hC := lasting_onward.and lasting_noEarlier
  refine ⟨fun bp => ?_, ?_, ?_⟩
  · exact (Steady.expr hC bp).restores hs
  · exact (Steady.path hC).restores hs
  · exact (Steady.ty hC.outer Grammar.full).restores hs

/-- A function whose body binds two names and then uses one that is not in scope. -/
private def unbound : String := "rec f(x: i8): i8 = let y: i8 = x in z in f(1i8)"

/-- The state at the first of the tokens, with a scope open in which a name is bound. -/
private def underScope (tokens : List Token) : State :=
  (State.ofTokens "shell" tokens).withScopes ((Scopes.empty.bind "f").2.push.bind "y").2

/-- Why a run has failed and the names it leaves, if it has failed. -/
private def refusal? : EStateM.Result Error State α → Option (Cause × List String)
  | .ok _ _ => none
  | .error e s => some (e.cause, s.scopes.names.toList)

/-- Reading fails three scopes deep. The names bound there stay in the table, behind those from
    before, but all three scopes are closed. -/
theorem reading_restores_unbound :
    ∃ tokens e s', tokenize unbound "shell" = .ok tokens ∧ (underScope tokens).Ended ∧
      Grammar.full.expr .loose (underScope tokens) = .error e s' ∧
      e.cause = .undeclared "z" ∧ s'.scopes.names.toList = ["f", "y", "f", "x", "y"] ∧
      Restores (underScope tokens) s' := by
  -- that reading fails, and with which names, is decided by running it
  have hrun : (tokenize unbound "shell").toOption.bind (fun tokens =>
      refusal? (Grammar.full.expr .loose (underScope tokens))) =
        some (.undeclared "z", ["f", "y", "f", "x", "y"]) := by
    decide +kernel
  cases htokens : tokenize unbound "shell" with
  | error e =>
    rw [htokens] at hrun
    cases hrun
  | ok tokens =>
    have hended : (underScope tokens).Ended := State.ofTokens_ended "shell" tokens
    have hrestores := (reading_restores hended).1 .loose
    rw [htokens] at hrun
    have hrefusal : refusal? (Grammar.full.expr .loose (underScope tokens)) =
      some (.undeclared "z", ["f", "y", "f", "x", "y"]) := hrun
    cases hread : Grammar.full.expr .loose (underScope tokens) with
    | ok v s' =>
      rw [hread] at hrefusal
      cases hrefusal
    | error e s' =>
      rw [hread] at hrefusal hrestores
      obtain ⟨hcause, hnames⟩ := Prod.mk.inj (Option.some.inj hrefusal)
      exact ⟨tokens, e, s', rfl, hended, hread, hcause, hnames, hrestores⟩

end BranchIR
