import BranchIR.Proofs.Parser.Nesting
import BranchIR.Proofs.Resolution

/-!
# Spans of a program

The tokens of a source text stand one after the other, and so the spans of a program that was read
from them are nested: each goes from the beginning of a token to the end of a token, what stands
in it has spans inside its own, in source order and apart from each other, and a pass over the
annotations of the program goes through the text from left to right.
-/

namespace BranchIR

variable {source file : String} {program : Program}

/-- The spans of a program are nested, and they are visited in the order of the text. -/
theorem readProgram_nested (h : readProgram source file = .ok program) :
    ∃ tokens, tokenize source file = .ok tokens ∧ Nested tokens program.tree ∧
      program.tree.anns.Pairwise fun a b => a.start ≤ b.start := by
  obtain ⟨tokens, s', htokens, hreads, -⟩ := readProgram_sound h
  have hall := tokens_ofTokens_of_tokenize htokens
  have hspaced : Spaced (State.ofTokens file tokens).tokens := by
    rw [hall]
    exact (tokensFrom_cuts htokens).spaced
  obtain ⟨-, -, hnested⟩ := hreads.lies.inside hspaced
  rw [hall] at hnested
  exact ⟨tokens, htokens, hnested, hnested.visits.ascending⟩

/-- A parameter, an offset after a base in parentheses, and a call of a name in parentheses. -/
private def enclosed : String := "rec f(p: &i8): i8 = load((p)@1i64) in (f)(f)"

/-- The call begins at the name that is called, inside the parentheses. -/
theorem readProgram_nested_enclosed :
    ∃ program, readProgram enclosed "enclosed" = .ok program ∧
      program.tree.anns.map (fun a => (a.start, a.stop)) =
        [(0, 44), (4, 34), (6, 12), (20, 34), (26, 27), (29, 33), (39, 44), (39, 40), (42, 43)] ∧
      ∃ tokens, tokenize enclosed "enclosed" = .ok tokens ∧ Nested tokens program.tree ∧
        program.tree.anns.Pairwise fun a b => a.start ≤ b.start := by
  -- the spans are found by running the parser
  have hrun : (readProgram enclosed "enclosed").toOption.map (fun program =>
      program.tree.anns.map fun a => (a.start, a.stop)) =
        some [(0, 44), (4, 34), (6, 12), (20, 34), (26, 27), (29, 33), (39, 44), (39, 40),
          (42, 43)] := by
    decide +kernel
  obtain ⟨program, hread, hspans⟩ := Option.map_eq_some_iff.1 hrun
  rw [toOption_eq_some] at hread
  exact ⟨program, hread, hspans, readProgram_nested hread⟩

end BranchIR
