import BranchIR.Proofs.FrontEnd
import BranchIR.Proofs.Parser.ExpText
import BranchIR.Proofs.Typing.Spans

/-!
# The round trip of the front end

The text of a checked program is a program. Its identities are written as names, and reading it
binds these names in the order in which the identities were handed out, so that each name is
resolved to its identity again. As spans do not matter for checking, the same types and tail
flags are found.
-/

namespace BranchIR

open Typing

variable {source file : String}

/-- A source text with the lexemes of a numbered tree whose numbers can be written is read as
    the tree. -/
theorem readProgram_of_lexes {α : Type} {e : Exp α} {m : Nat} (hw : e.Writable)
    (hnum : Numbered [] 0 e m) (hlexes : Lexes source.toList e.lexemes) (file : String) :
    ∃ program, readProgram source file = .ok program ∧
      program.tree.mapAnn noAnn = e.mapAnn noAnn := by
  obtain ⟨tokens, htokens, hlexemes⟩ := tokenize_of_lexes hlexes file
  obtain ⟨program, hprogram, hsame⟩ := ofTokens_run hw hnum file hlexemes
  refine ⟨program, ?_, hsame⟩
  rw [readProgram, htokens]
  exact hprogram

/-- The text of a program that was read is read as the same program. -/
theorem readProgram_text {program : Program} (h : readProgram source file = .ok program)
    (file' : String) :
    ∃ program', readProgram program.tree.text file' = .ok program' ∧
      program'.tree.mapAnn noAnn = program.tree.mapAnn noAnn := by
  obtain ⟨tokens, s', -, hreads, -⟩ := readProgram_sound h
  have hlexes := program.tree.spells.lexes
  exact readProgram_of_lexes hreads.writable (readProgram_numbered h) hlexes file'

/-- The text of a checked program is accepted, and the tree that comes out is the same but for
    spans: the types and tail flags of all nodes, functions and parameters are the same, and so
    is the text. -/
theorem checkSource_text {t : Exp Checked} (h : checkSource source file = .ok t)
    (file' : String) :
    ∃ t', checkSource t.text file' = .ok t' ∧
      t'.mapAnn Checked.typing = t.mapAnn Checked.typing ∧ t'.text = t.text := by
  obtain ⟨program, hread, hcheck⟩ := checkSource_eq_ok.1 h
  -- the text does not show what checking has added
  have htext : t.text = program.tree.text := by
    have herase := typed_erases _ _ _ _ hcheck
    rw [← herase, Exp.text_mapAnn]
  -- the program that is read again is the same but for spans, and so are the two runs of checking
  obtain ⟨program', hread', hsame⟩ := readProgram_text hread file'
  have hagrees := checkProgram_agrees hsame
  rw [hcheck] at hagrees
  cases hcheck' : checkProgram program'.tree with
  | error e =>
    rw [hcheck'] at hagrees
    cases hagrees
  | ok t' =>
    rw [hcheck'] at hagrees
    cases hagrees with
    | ok hsame' =>
      refine ⟨t', ?_, hsame', ?_⟩
      · rw [htext]
        exact checkSource_eq_ok.2 ⟨program', hread', hcheck'⟩
      · have htext' := congrArg Exp.text hsame'
        rwa [Exp.text_mapAnn, Exp.text_mapAnn] at htext'

/-- A function that goes through an array by the values in it. -/
private def walk : String :=
  "let p: &[2 x i8] = 0i8 as &[2 x i8] in rec f(i: i8): i8 = f(load(p @i [1])) in f(-1i8)"

/-- The text of this program is accepted as the same program. -/
theorem checkSource_text_walk :
    ∃ t t', checkSource walk "walk" = .ok t ∧ checkSource t.text "text" = .ok t' ∧
      t'.mapAnn Checked.typing = t.mapAnn Checked.typing ∧ t'.text = t.text := by
  -- that the program is accepted is decided by running the checker on it
  have hrun : (checkSource walk "walk").toOption.isSome = true := by
    decide +kernel
  cases ht : checkSource walk "walk" with
  | error e =>
    rw [ht] at hrun
    cases hrun
  | ok t =>
    obtain ⟨t', hcheck, hsame⟩ := checkSource_text ht "text"
    exact ⟨t, t', rfl, hcheck, hsame⟩

end BranchIR
