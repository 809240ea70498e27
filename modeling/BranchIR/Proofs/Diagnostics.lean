import BranchIR.Proofs.Capture.Misuse
import BranchIR.Proofs.Parser.Layout
import BranchIR.Proofs.Resolution
import BranchIR.Proofs.Text.Line

/-!
# Where errors are shown

An error carries the place where it was found: the lexer's own place in the text, the place of
a token, or that of a node, which begins where one of its tokens does. All these places are
between two characters of the source text, and in front of no blank. So every error can be shown
with its line and column.

## Key results

- `onLine_of_stands`, `OnLine.located`: an error between two characters is located on its line
- `compile_located`: all errors of the front end are located, and can be shown
-/

namespace BranchIR

open Text (byteCount lineAt? natText Closed)

variable {source file : String}

/-- The error is between two characters of the source text: after the lines `above` and the
    beginning `here` of its own line. It is shown with the number of this line and the number of
    the character that stands next. -/
structure Located (source file : String) (e : Error) (above here after : List Char) : Prop where
  text : source.toList = above ++ here ++ after
  place : e.position = ⟨byteCount (above ++ here), file⟩
  /-- The line begins at the beginning of the text or after a newline. -/
  opens : above = [] ∨ above.getLast? = some '\n'
  /-- The error is on the line. -/
  same : '\n' ∉ here
  /-- There is a line with the number. -/
  found : ∃ line, lineAt? source.toList e.position.offset = some line ∧
    line.number = 1 + (above ++ here).count '\n' ∧ line.offset = byteCount here
  shown : e.diagnostic? source = some
    (file ++ ":" ++ natText (1 + (above ++ here).count '\n') ++ ":" ++
      natText (1 + here.length) ++ ": " ++ e.message)

/-- The place is on a line of the source text, which is found for it: after the lines `above`,
    between `here` and `more` of its own line, and in front of no blank. -/
structure OnLine (source file : String) (p : Position) (above here more after : List Char) :
    Prop where
  text : source.toList = above ++ here ++ after
  place : p = ⟨byteCount (above ++ here), file⟩
  opens : above = [] ∨ above.getLast? = some '\n'
  same : '\n' ∉ here
  /-- The line goes on after the place. -/
  rest : ∃ later, Text.lines after = more :: later
  found : lineAt? source.toList p.offset =
    some ⟨1 + (above ++ here).count '\n', here ++ more, byteCount here⟩
  stands : ∀ c ∈ after.head?, Text.isBlank c = false

/-- A place between two characters is on a line: behind the last newline before it, and in front of
    the first one after it. -/
theorem onLine_of_stands {p : Position} (h : Stands file 0 source.toList p) :
    ∃ above here more after, OnLine source file p above here more after := by
  obtain ⟨before, after, htext, hplace, hstands⟩ := h
  rw [Nat.zero_add] at hplace
  obtain ⟨ls, here, rfl, hclosed, hhere⟩ := Text.exists_line_start before
  obtain ⟨more, later, hafter⟩ := List.exists_cons_of_ne_nil (Text.lines_ne_nil after)
  have hline := Text.lineAt?_append hclosed hhere hafter
  -- the lines above are counted by their newlines
  have hcount : 1 + (ls.flatten ++ here).count '\n' = ls.length + 1 := by
    rw [List.count_append, Text.count_flatten_of_closed hclosed, List.count_eq_zero.2 hhere]
    omega
  refine ⟨ls.flatten, here, more, after, htext, hplace, Text.getLast?_flatten_of_closed hclosed,
    hhere, ⟨later, hafter⟩, ?_, hstands⟩
  rw [htext, hplace, hcount]
  exact hline

/-- An error on a line of the source text is located. -/
theorem OnLine.located {e : Error} {above here more after : List Char}
    (h : OnLine source file e.position above here more after) :
    Located source file e above here after := by
  refine ⟨h.text, h.place, h.opens, h.same, ⟨_, h.found, rfl, rfl⟩, ?_⟩
  rw [Error.diagnostic?, h.found, h.place, Nat.add_comm 1 here.length]
  simp only [Text.splitAtByte?_byteCount, Option.map_some]

/-- An error between two characters of the source text is located. -/
private theorem located_of_stands {e : Error} (h : Stands file 0 source.toList e.position) :
    ∃ above here after, Located source file e above here after := by
  obtain ⟨above, here, _, after, hline⟩ := onLine_of_stands h
  exact ⟨above, here, after, hline.located⟩

/-! ## The passes -/

section Passes

variable {tokens : List Token} {program : Program} {e : Error}

/-- The lexer refuses a text in front of the piece that it cannot take off. -/
private theorem tokenize_stands (h : tokenize source file = .error e) :
    Stands file 0 source.toList e.position :=
  tokensFrom_error h

/-- A program is refused where one of its tokens begins. -/
private theorem ofTokens_stands (htokens : tokenize source file = .ok tokens)
    (h : Program.ofTokens file tokens = .error e) : Stands file 0 source.toList e.position := by
  obtain ⟨t, ht, hplace⟩ := ofTokens_error h
  rw [tokens_ofTokens_of_tokenize htokens] at ht
  rw [hplace]
  exact tokensFrom_stands htokens ht

/-- A source text is refused by the lexer or by the parser. -/
private theorem readProgram_stands (h : readProgram source file = .error e) :
    Stands file 0 source.toList e.position := by
  rcases bind_eq_error.1 h with htokens | ⟨tokens, htokens, hprogram⟩
  · exact tokenize_stands htokens
  · exact ofTokens_stands htokens hprogram

/-- The nodes of a program that was read begin where tokens do. -/
private theorem start_stands (h : readProgram source file = .ok program) {node : Exp Span}
    (hnode : node ∈ program.tree.preorder) : Stands file 0 source.toList node.start := by
  obtain ⟨tokens, htokens, horigins⟩ := readProgram_origins h
  obtain ⟨trail, hl⟩ := Exp.mem_preorder_iff_leads.1 hnode
  obtain ⟨t, ht, hstart⟩ := (horigins trail node hl).start
  rw [Exp.start, ← hstart]
  exact tokensFrom_stands htokens ht

/-- The checker refuses a program where one of its nodes begins. -/
private theorem checkProgram_stands (h : readProgram source file = .ok program)
    (herr : Typing.checkProgram program.tree = .error e) :
    Stands file 0 source.toList e.position := by
  obtain ⟨node, hnode, hplace⟩ := (Typing.typed_fault program.tree _ _ _ herr).place
  rw [hplace]
  exact start_stands h hnode

/-- A misuse is reported where the variable begins, which is a node of the program that was read. -/
private theorem analyze_stands {t : Exp Checked} (h : checkSource source file = .ok t)
    (herr : Capture.analyze t = .error e) : Stands file 0 source.toList e.position := by
  obtain ⟨program, hread, herase⟩ := checkSource_erases h
  obtain ⟨node, hnode, hplace⟩ := Capture.fault?_place (Capture.analyze_eq_error.1 herr)
  -- without types and flags, the node is one of the program that was read
  have hmem : node.mapAnn Checked.span ∈ program.tree.preorder := by
    rw [← herase, Exp.preorder_mapAnn]
    exact List.mem_map_of_mem hnode
  have hstart : (node.mapAnn Checked.span).start = node.checkedStart := by
    rw [Exp.start, Exp.ann_mapAnn]
    rfl
  rw [hplace, ← hstart]
  exact start_stands hread hmem

end Passes

/-! ## The front end -/

/-- All phases refuse a program between two characters of its text, in front of no blank. -/
theorem compile_stands {e : Error} (h : compile source file = .error e) :
    Stands file 0 source.toList e.position := by
  rcases bind_eq_error.1 h with hread | ⟨program, hread, h⟩
  · exact readProgram_stands hread
  rcases bind_eq_error.1 h with hcheck | ⟨t, hcheck, h⟩
  · exact checkProgram_stands hread hcheck
  rcases bind_eq_error.1 h with hanalyze | ⟨facts, -, h⟩
  · exact analyze_stands (checkSource_eq_ok.2 ⟨program, hread, hcheck⟩) hanalyze
  · exact absurd h pure_ne_error

/-- What checking alone refuses, the whole front end refuses. -/
private theorem compile_of_checkSource_error {e : Error} (h : checkSource source file = .error e) :
    compile source file = .error e := by
  rcases bind_eq_error.1 h with hread | ⟨program, hread, hcheck⟩
  · exact bind_eq_error.2 (.inl hread)
  · exact bind_eq_error.2 (.inr ⟨program, hread, bind_eq_error.2 (.inl hcheck)⟩)

/-- Every error of the front end is between two characters of the source text, and is shown with
    the line and the column of its place. So checking a source text always has an answer. -/
theorem compile_located (source file : String) :
    (∀ e, compile source file = .error e →
      ∃ above here after, Located source file e above here after) ∧
    ∃ answer, checkSource? source file = some answer := by
  refine ⟨fun e h => located_of_stands (compile_stands h), ?_⟩
  rw [checkSource?]
  cases h : checkSource source file with
  | ok t => exact ⟨_, rfl⟩
  | error e =>
    obtain ⟨_, _, _, hlocated⟩ := located_of_stands (compile_stands
      (compile_of_checkSource_error h))
    exact ⟨_, congrArg (Option.map Except.error) hlocated.shown⟩

/-- The error that a run ends with, if it has failed. -/
def errorOf? {α : Type} : Except Error α → Option Error
  | .ok _ => none
  | .error e => some e

/-- A run has an error exactly if it has failed with it. -/
theorem errorOf?_eq_some {α : Type} {run : Except Error α} {e : Error} :
    errorOf? run = some e ↔ run = .error e := by
  cases run <;> simp [errorOf?]

/-- A literal of the wrong type, after characters of several bytes above it and on its line. -/
private def wide : String := "// 再び\nlet x: i8 =　1i16 in x"

/-- The literal is at byte 24, which is at character 13 of line 2. -/
theorem compile_located_wide :
    ∃ e, compile wide "wide" = .error e ∧ e.position.offset = 24 ∧
      e.diagnostic? wide = some "wide:2:13: type mismatch: expected i8, got i16" ∧
      ∃ above here after, Located wide "wide" e above here after := by
  -- the error is found by running the front end
  let e : Error := ⟨.typeMismatch (.int 8) (.int 16), ⟨24, "wide"⟩⟩
  have hrun : compile wide "wide" = .error e := errorOf?_eq_some.1 (by decide +kernel)
  have hshown : e.diagnostic? wide = some "wide:2:13: type mismatch: expected i8, got i16" := by
    decide +kernel
  exact ⟨e, hrun, rfl, hshown, (compile_located wide "wide").1 e hrun⟩

end BranchIR
