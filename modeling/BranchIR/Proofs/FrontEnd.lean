import BranchIR.FrontEnd
import BranchIR.Proofs.Parser.ExpSound
import BranchIR.Proofs.Parser.Scoping
import BranchIR.Proofs.Typing.TailFlags

/-!
# What the front end accepts

The passes of the front end, taken apart: what a source text that is accepted was read to, and
what is known of the tree that comes out.
-/

namespace BranchIR

variable {source file : String}

/-- A source text is accepted if it is read as a program and the program has a type. -/
theorem checkSource_eq_ok {t : Exp Checked} :
    checkSource source file = .ok t ↔
      ∃ program, readProgram source file = .ok program ∧
        Typing.checkProgram program.tree = .ok t := by
  rw [checkSource, bind_eq_ok]

/-- The front end accepts a source text if it is read, has a type, and misuses no branch target. -/
theorem compile_eq_ok {c : Compiled} :
    compile source file = .ok c ↔
      ∃ program, readProgram source file = .ok program ∧
        Typing.checkProgram program.tree = .ok c.tree ∧
        Capture.analyze c.tree = .ok c.facts ∧ program.scopes = c.scopes := by
  simp only [compile, bind_eq_ok, pure_eq_ok]
  constructor
  · intro ⟨program, hread, tree, hcheck, facts, hanalyze, hc⟩
    subst hc
    exact ⟨program, hread, hcheck, hanalyze, rfl⟩
  · intro ⟨program, hread, hcheck, hanalyze, hscopes⟩
    exact ⟨program, hread, c.tree, hcheck, c.facts, hanalyze, by rw [hscopes]⟩

/-- What the front end accepts, checking alone accepts with the same tree. -/
theorem compile_checkSource {c : Compiled} (h : compile source file = .ok c) :
    checkSource source file = .ok c.tree := by
  obtain ⟨program, hread, hcheck, -⟩ := compile_eq_ok.1 h
  exact checkSource_eq_ok.2 ⟨program, hread, hcheck⟩

/-- A program that was read follows the grammar. -/
theorem readProgram_sound {program : Program} (h : readProgram source file = .ok program) :
    ∃ tokens s', tokenize source file = .ok tokens ∧
      Reads (State.ofTokens file tokens) program.tree s' ∧ program.scopes = s'.scopes := by
  rw [readProgram, bind_eq_ok] at h
  obtain ⟨tokens, htokens, hprogram⟩ := h
  obtain ⟨s', hreads, -, hscopes⟩ := ofTokens_sound hprogram
  exact ⟨tokens, s', htokens, hreads, hscopes⟩

/-- A program that was read is numbered from 0 on. -/
theorem readProgram_numbered {program : Program} (h : readProgram source file = .ok program) :
    Numbered [] 0 program.tree program.scopes.size := by
  obtain ⟨tokens, s', -, hreads, hscopes⟩ := readProgram_sound h
  rw [hscopes]
  exact hreads.numbered_program

section Checked

variable {t : Exp Checked}

/-- The tree of a checked program is the tree that was read. -/
theorem checkSource_erases (h : checkSource source file = .ok t) :
    ∃ program, readProgram source file = .ok program ∧ t.mapAnn Checked.span = program.tree := by
  obtain ⟨program, hread, hcheck⟩ := checkSource_eq_ok.1 h
  exact ⟨program, hread, Typing.typed_erases _ _ _ _ hcheck⟩

/-- A checked program is numbered from 0 on, as it was when it was read. -/
theorem checkSource_numbered (h : checkSource source file = .ok t) : ∃ m, Numbered [] 0 t m := by
  obtain ⟨program, hread, herase⟩ := checkSource_erases h
  have hnumbered := readProgram_numbered hread
  rw [← herase] at hnumbered
  exact ⟨_, hnumbered.of_mapAnn⟩

/-- A checked program is well-bound, with nothing in scope around it. -/
theorem checkSource_wellBound (h : checkSource source file = .ok t) : WellBound [] t := by
  obtain ⟨m, hnumbered⟩ := checkSource_numbered h
  exact hnumbered.wellBound (by simp)

/-- In a checked program the tail flags follow the roles. -/
theorem checkSource_tailsFlow (h : checkSource source file = .ok t) : TailsFlow t := by
  obtain ⟨program, -, hcheck⟩ := checkSource_eq_ok.1 h
  exact (Typing.typed_placed _ _ _ _ hcheck).2

end Checked

end BranchIR
