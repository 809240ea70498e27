import BranchIR.FrontEnd
import BranchIR.Proofs.Capture.Spans
import BranchIR.Proofs.Parser.Layout

/-!
# The front end does not depend on layout

White space, line breaks and comments only move the tokens of a source text. Two texts with the
same kinds and texts of tokens go through all passes in the same way: the trees that are read
and checked differ in spans only, names, types, tail flags and facts are the same, and so is
the cause wherever a pass refuses.
-/

namespace BranchIR

/-- Two checked trees differ in spans only, and are analysed to the same facts or refused for
    the same cause. -/
structure SameAnalysis (t t' : Exp Checked) : Prop where
  typing : SameTyping t t'
  facts : Agrees Eq (Capture.analyze t) (Capture.analyze t')

/-- Two programs differ in spans only, have the same names, and are checked to trees that are
    analysed alike or refused for the same cause. -/
structure SameProgram (p p' : Program) : Prop where
  tree : p.tree.mapAnn noAnn = p'.tree.mapAnn noAnn
  names : p.scopes.names = p'.scopes.names
  checking : Agrees SameAnalysis (Typing.checkProgram p.tree) (Typing.checkProgram p'.tree)

/-- Trees that differ in spans only go through checking and the analysis in the same way. -/
theorem checkProgram_analyze_agrees {e e' : Exp Span} (h : e.mapAnn noAnn = e'.mapAnn noAnn) :
    Agrees SameAnalysis (Typing.checkProgram e) (Typing.checkProgram e') := by
  have hcheck := Typing.checkProgram_agrees h
  generalize Typing.checkProgram e = x at hcheck
  generalize Typing.checkProgram e' = x' at hcheck
  cases hcheck with
  | ok related => exact .ok ⟨related, Capture.analyze_agrees related⟩
  | error cause => exact .error cause

/-- Programs that differ in spans only go through the passes after reading in the same way. -/
private theorem sameProgram {p p' : Program} (htree : p.tree.mapAnn noAnn = p'.tree.mapAnn noAnn)
    (hscopes : p.scopes = p'.scopes) : SameProgram p p' where
  tree := htree
  names := congrArg Scopes.names hscopes
  checking := checkProgram_analyze_agrees htree

/-- Two source texts that differ in layout only go through the front end in the same way. -/
theorem layout_agrees {source source' file file' : String} {tokens tokens' : List Token}
    (h : tokenize source file = .ok tokens) (h' : tokenize source' file' = .ok tokens')
    (hsame : tokens.map Token.lexeme = tokens'.map Token.lexeme) :
    Agrees SameProgram (readProgram source file) (readProgram source' file') := by
  have hread := @ofTokens_agrees file file' _ _ hsame
  rw [readProgram, readProgram, h, h']
  show Agrees SameProgram (Program.ofTokens file tokens) (Program.ofTokens file' tokens')
  generalize Program.ofTokens file tokens = x at hread
  generalize Program.ofTokens file' tokens' = x' at hread
  cases hread with
  | ok related => exact .ok (sameProgram related.1 related.2)
  | error cause => exact .error cause

/-- A jump written on one line. -/
private def onOneLine : String :=
  "let k: i8 = 1i8 in rec f(x: i8): i8 = f(k) in f(k)"

/-- The same jump on several lines, with a comment. -/
private def onManyLines : String :=
  "let k : i8 = 1i8 in\n\n  rec f(x : i8) : i8 =\n\tf (k) // 再び\n  in f( k )"

/-- The jump written in two ways goes through the front end in the same way. -/
theorem layout_agrees_jump :
    ∃ tokens tokens', tokenize onOneLine "one" = .ok tokens ∧
      tokenize onManyLines "many" = .ok tokens' ∧ tokens ≠ tokens' ∧
      tokens.map Token.lexeme = tokens'.map Token.lexeme ∧
      Agrees SameProgram (readProgram onOneLine "one") (readProgram onManyLines "many") := by
  -- that the tokens differ in spans only is decided by running the lexer on both
  have hrun : (tokenize onOneLine "one").toOption.any (fun tokens =>
      (tokenize onManyLines "many").toOption.any fun tokens' =>
        tokens != tokens' && tokens.map Token.lexeme == tokens'.map Token.lexeme) = true := by
    decide +kernel
  cases h : tokenize onOneLine "one" with
  | error e =>
    rw [h] at hrun
    cases hrun
  | ok tokens =>
    cases h' : tokenize onManyLines "many" with
    | error e =>
      rw [h, h'] at hrun
      cases hrun
    | ok tokens' =>
      rw [h, h'] at hrun
      simp only [Except.toOption, Option.any_some, Bool.and_eq_true, bne_iff_ne, beq_iff_eq] at hrun
      obtain ⟨hne, hsame⟩ := hrun
      exact ⟨tokens, tokens', rfl, rfl, hne, hsame, layout_agrees h h' hsame⟩

end BranchIR
