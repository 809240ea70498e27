import BranchIR.Proofs.FrontEnd
import BranchIR.Proofs.Phrase.Complete
import BranchIR.Proofs.Phrase.Sound
import Mathlib.Data.List.TakeWhile

/-!
# The language of programs

The parser is tables, levels and a look-ahead; the grammar of phrases knows none of these. Both
take the same tokens for a program.
-/

namespace BranchIR

variable {source file : String} {tokens : List Token}

/-- The lexemes of the tokens before the end of the input. -/
def beforeEnd (tokens : List Token) : List Lexeme :=
  (tokens.takeWhile (·.kind ≠ .endOfInput)).map Token.lexeme

/-- The end of the input closes the tokens of a text. -/
private theorem lexemes_of_tokenize (h : tokenize source file = .ok tokens) :
    tokens.map Token.lexeme = beforeEnd tokens ++ [Kind.endOfInput.lexeme] := by
  obtain ⟨front, rfl, hfront⟩ := (tokensFrom_cuts h).closes
  have htake : (front ++ [Token.endAt (0 + Text.byteCount source.toList) file]).takeWhile
      (·.kind ≠ .endOfInput) = front := by
    rw [List.takeWhile_append_of_pos (by simpa using hfront)]
    simp [Token.endAt]
  rw [beforeEnd, htake, List.map_append]
  rfl

/-- Before the end of the input no lexeme is one. -/
private theorem ne_endOfInput_of_mem_beforeEnd {w : Lexeme} (h : w ∈ beforeEnd tokens) :
    w.kind ≠ .endOfInput := by
  obtain ⟨t, ht, rfl⟩ := List.mem_map.1 h
  simpa [Token.lexeme] using List.mem_takeWhile_imp ht

/-- The tokens of a text are read as they are. -/
private theorem ahead_ofTokens (h : tokenize source file = .ok tokens) :
    (State.ofTokens file tokens).ahead = beforeEnd tokens ++ [Kind.endOfInput.lexeme] := by
  obtain ⟨front, rfl, -⟩ := (tokensFrom_cuts h).closes
  rw [← lexemes_of_tokenize h, State.ahead, State.upcoming_ofTokens List.getLast?_concat rfl]

/-- What the parser takes is a phrase: the end of the input is reached only behind all other
    tokens. -/
theorem phrase_of_ofTokens {program : Program} (h : tokenize source file = .ok tokens)
    (hprogram : Program.ofTokens file tokens = .ok program) : ExpPhrase [] (beforeEnd tokens) := by
  obtain ⟨s', hreads, hend, -⟩ := ofTokens_sound hprogram
  obtain ⟨u, hu, hphrase⟩ := hreads.phrase
  have hahead := ahead_ofTokens h
  have hspelled : ∀ w ∈ (State.ofTokens file tokens).ahead, w.spelled = true := by
    rw [hahead, ← lexemes_of_tokenize h, List.forall_mem_map]
    exact fun t ht => (tokensFrom_cuts h).spelled ht
  have hsplit := hu hspelled
  rw [hahead, State.ahead, State.upcoming, List.map_cons] at hsplit
  -- the lexeme that stands where reading ends is none of those before the end of the input
  have hnot : s'.current.lexeme ∉ beforeEnd tokens :=
    fun hmem => ne_endOfInput_of_mem_beforeEnd hmem hend
  have heq := ((List.append_cons_inj_of_notMem hnot List.not_mem_nil).1 hsplit).1
  rw [State.scopes_ofTokens] at hphrase
  rw [heq]
  exact hphrase

/-- The parser takes every phrase in which nothing is free. -/
theorem ofTokens_of_phrase (h : tokenize source file = .ok tokens)
    (hphrase : ExpPhrase [] (beforeEnd tokens)) :
    ∃ program, Program.ofTokens file tokens = .ok program := by
  obtain ⟨s', hshows, hend⟩ := State.shows_ofTokens (lexemes_of_tokenize h) file
  have hyield : Yields _ _ _ .empty _ := hphrase.accepted.yields (List.nil_subset _)
    (State.ofTokens file tokens).remaining
  have hrun := hyield _ s' hshows (Nat.le_refl _) (.of_endOfInput hend)
  obtain ⟨program, hprogram, -⟩ := ofTokens_of_runs hrun hend
  exact ⟨program, hprogram⟩

/-- The parser takes the tokens of a text for a program exactly when those before the end of the
    input are the phrase of an expression in which nothing is free. -/
theorem ofTokens_iff_phrase (h : tokenize source file = .ok tokens) :
    (∃ program, Program.ofTokens file tokens = .ok program) ↔
      ExpPhrase [] (beforeEnd tokens) :=
  ⟨fun ⟨_, hprogram⟩ => phrase_of_ofTokens h hprogram, ofTokens_of_phrase h⟩

/-- A bundle with a let in a function, a call behind the let, and an arm. -/
private def nested : String :=
  "rec f(x: i8): i8 = let y: i8 = x in f(y): i8 and g(): i8 = f(1i8,) in case g() \x7b _ => f \x7d"

/-- The call behind the let is read into its body, and the bundle is a phrase. -/
theorem ofTokens_iff_phrase_nested :
    ∃ tokens, tokenize nested "nested" = .ok tokens ∧
      (∃ program, Program.ofTokens "nested" tokens = .ok program) ∧
        ExpPhrase [] (beforeEnd tokens) := by
  -- that the program is read is found by running the parser
  have hrun : (readProgram nested "nested").toOption.isSome = true := by
    decide +kernel
  cases hread : readProgram nested "nested" with
  | error e =>
    rw [hread] at hrun
    cases hrun
  | ok program =>
    obtain ⟨tokens, htokens, hprogram⟩ := bind_eq_ok.1 hread
    have hphrase := (ofTokens_iff_phrase htokens).1 ⟨program, hprogram⟩
    exact ⟨tokens, htokens, ⟨program, hprogram⟩, hphrase⟩

end BranchIR
