import BranchIR.Proofs.FrontEnd
import BranchIR.Proofs.Parser.Origins
import BranchIR.Proofs.Token.Places
import BranchIR.Proofs.Typing.Faults

/-!
# Names and identities of a program

Names are resolved while a program is read, by scopes that are opened and closed on the way.
Checking a program follows the scopes of its tree, which are told by identities. Both find the
same binder for every variable, and there always is one.
-/

namespace BranchIR

open Exp

variable {source file : String} {tokens : List Token} {program : Program}

/-- The tokens of a source text end with the end of the input. -/
private theorem tokenize_closes (h : tokenize source file = .ok tokens) :
    ∃ front last, tokens = front ++ [last] ∧ last.kind = .endOfInput ∧
      ∀ t ∈ front, t.kind ≠ .endOfInput := by
  obtain ⟨front, htokens, hfront⟩ := (tokensFrom_cuts h).closes
  exact ⟨front, _, htokens, rfl, hfront⟩

/-- The tokens of a source text are read as they are. -/
theorem tokens_ofTokens_of_tokenize (h : tokenize source file = .ok tokens) :
    (State.ofTokens file tokens).tokens = tokens := by
  obtain ⟨front, last, rfl, hkind, -⟩ := tokenize_closes h
  rw [State.tokens_ofTokens]
  exact State.upcoming_ofTokens (by simp) hkind file

/-- The nodes of a program that was read come from its tokens. -/
theorem readProgram_origins (h : readProgram source file = .ok program) :
    ∃ tokens, tokenize source file = .ok tokens ∧
      Origins tokens program.scopes [] program.tree := by
  obtain ⟨tokens, s', htokens, hreads, hscopes⟩ := readProgram_sound h
  refine ⟨tokens, htokens, ?_⟩
  have horigins := hreads.traced s'.scopes [] (List.prefix_refl _)
    (State.scopes_ofTokens file tokens ▸ .empty _)
  rwa [tokens_ofTokens_of_tokenize htokens, ← hscopes] at horigins

/-- No identity is missing from the environment when a program that was read is checked. -/
theorem checkProgram_unscoped {err : Error} (h : readProgram source file = .ok program)
    (herr : Typing.checkProgram program.tree = .error err) (x : VarId) :
    err.cause ≠ .notInScope x := by
  intro hcause
  -- the identity would be free in the program, where nothing is in scope
  have hfree := ((Typing.typed_fault program.tree _ _ _ herr).scope x hcause).1
  exact absurd ((readProgram_numbered h).closed hfree) List.not_mem_nil

/-- Nothing is free in a checked program. -/
private theorem checkSource_freeVars {t : Exp Checked} (h : checkSource source file = .ok t) :
    t.freeVars = .empty := by
  have hbound := checkSource_wellBound h
  refine VarSet.ext fun x => iff_of_false (fun hx => ?_) (VarSet.not_mem_empty x)
  exact absurd (hbound.closed x ((mem_freeVars_iff_free hbound).1 hx)) List.not_mem_nil

/-- The identity that a name stands for has the name. -/
private theorem Scopes.nameOf?_of_innermost? {names : Scopes} {scope : List VarId} {name : String}
    {x : VarId} (h : names.innermost? scope name = some x) : names.nameOf? x = some name := by
  simpa using List.find?_some h

/-- What the names and the identities of a program have to do with each other, and with the
    tokens that the program was read from. -/
structure Resolved (tokens : List Token) (program : Program) : Prop where
  /-- What is bound is what was handed out, each identity by one binder. -/
  dense : program.tree.bound.Perm (List.range program.scopes.size)
  /-- The nodes are at tokens, and the binders have the names of theirs. -/
  origins : Origins tokens program.scopes [] program.tree
  /-- A variable stands for the innermost binder of its token's name among those in scope, and
      has that name itself. -/
  var : ∀ trail a x, Leads program.tree trail (.var a x) →
    ∃ t ∈ tokens, t.kind = .identifier ∧ t.span = a ∧
      program.scopes.innermost? (trail.scope []) t.text = some x ∧
      program.scopes.nameOf? x = some t.text
  /-- Checking the program misses no identity. -/
  unscoped : ∀ err x, Typing.checkProgram program.tree = .error err → err.cause ≠ .notInScope x
  /-- Nothing is free in the checked program. -/
  closed : ∀ t, Typing.checkProgram program.tree = .ok t → t.freeVars = .empty

/-- In a program that was read, names and identities tell the same binders. -/
theorem readProgram_resolved (h : readProgram source file = .ok program) :
    ∃ tokens, tokenize source file = .ok tokens ∧ Resolved tokens program := by
  obtain ⟨tokens, htokens, horigins⟩ := readProgram_origins h
  refine ⟨tokens, htokens, ?_, horigins, ?_, fun err x herr => checkProgram_unscoped h herr x,
    fun t ht => checkSource_freeVars (checkSource_eq_ok.2 ⟨program, h, ht⟩)⟩
  · obtain ⟨k, hsize, hperm⟩ := (readProgram_numbered h).bound_perm
    rwa [hsize, Nat.zero_add, List.range_eq_range']
  · intro trail a x hl
    obtain ⟨t, ht, hkind, hspan, hinner⟩ := (horigins trail _ hl).var a x rfl
    exact ⟨t, ht, hkind, hspan, hinner, Scopes.nameOf?_of_innermost? hinner⟩

/-- A name that is bound by a let, by a parameter and by a let inside the function. -/
private def shadowing : String :=
  "let x: i8 = 1i8 in rec f(x: i8): i8 = let x: i8 = x in f(x) in f(x)"

/-- The uses of the name are the parameter, the inner let and the outer one, in this order. -/
theorem readProgram_resolved_shadowing :
    ∃ program, readProgram shadowing "shadowing" = .ok program ∧
      program.scopes.names.toList = ["x", "f", "x", "x"] ∧ program.tree.uses = [2, 1, 3, 1, 0] ∧
      ∃ tokens, tokenize shadowing "shadowing" = .ok tokens ∧ Resolved tokens program := by
  -- names and uses are found by running the parser
  have hrun : ((readProgram shadowing "shadowing").toOption.map fun program =>
      (program.scopes.names.toList, program.tree.uses)) =
        some (["x", "f", "x", "x"], [2, 1, 3, 1, 0]) := by
    decide +kernel
  cases h : readProgram shadowing "shadowing" with
  | error e =>
    rw [h] at hrun
    cases hrun
  | ok program =>
    rw [h] at hrun
    obtain ⟨hnames, huses⟩ := Prod.mk.inj (Option.some.inj hrun)
    exact ⟨program, rfl, hnames, huses, readProgram_resolved h⟩

end BranchIR
