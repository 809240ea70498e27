import BranchIR.Proofs.Diagnostics

/-!
# Where the caret stands

An error is shown in two forms. One names the column, which counts characters; the other prints
the line without the spaces in front and draws a caret below it, after dashes that count bytes.
Errors never stand in front of a blank, so the spaces that are left out all come before the place.
The two forms point at one character exactly if all characters before it on the line have one byte.
-/

namespace BranchIR

open Text (byteCount lineAt? lines natText trimEnd)

variable {source file : String} {e : Error}

/-- The form with a caret: the line with so many spaces in front left out, and below it so many
    dashes and the caret. -/
structure Carets (source : String) (e : Error) (number : Nat) (line : List Char)
    (indent dashes : Nat) : Prop where
  /-- All spaces in front of the line are left out, and nothing else. -/
  spaces : ∃ rest, line = List.replicate indent ' ' ++ rest ∧ rest.head? ≠ some ' '
  shown : e.display source =
    e.heading ++ "\n" ++
    "-> " ++ e.position.file ++ "\n" ++
    Error.copies ((natText number).length + 1) ' ' ++ "|" ++ "\n" ++
    natText number ++ " | " ++ String.ofList (trimEnd (line.drop indent)) ++ "\n" ++
    Error.copies ((natText number).length + 1) ' ' ++ "| " ++ Error.copies dashes '-' ++ "^\n"

/-! ## The spaces in front of a line -/

/-- The number of spaces in front of a line. -/
def indentOf (line : List Char) : Nat := (line.takeWhile (· = ' ')).length

/-- Spaces are taken off the front of a line until something else stands there. -/
private theorem exists_eq_replicate_indentOf (line : List Char) :
    ∃ rest, line = List.replicate (indentOf line) ' ' ++ rest ∧ rest.head? ≠ some ' ' := by
  have hspaces : line.takeWhile (· = ' ') = List.replicate (indentOf line) ' ' :=
    List.eq_replicate_iff.2 ⟨rfl, fun c hc => by simpa using List.mem_takeWhile_imp hc⟩
  refine ⟨line.dropWhile (· = ' '), ?_, ?_⟩
  · rw [← hspaces, List.takeWhile_append_dropWhile]
  · intro hhead
    have hstop := List.head?_dropWhile_not (· = ' ') line
    rw [hhead] at hstop
    simp at hstop

/-- The spaces in front of a line come before a place where no space stands. -/
theorem indentOf_append_le {here more : List Char} (h : more.head? ≠ some ' ') :
    indentOf (here ++ more) ≤ here.length := by
  have hmore : more.takeWhile (· = ' ') = [] := by
    cases more with
    | nil => rfl
    | cons c more =>
      have hc : c ≠ ' ' := by simpa using h
      simp [hc]
  rw [indentOf, List.takeWhile_append]
  split
  · rw [hmore, List.append_nil]
  · exact (List.takeWhile_prefix _).length_le

/-! ## The two forms -/

/-- An error that stands on its line after `here` and before `more` is shown with a caret after
    dashes for the bytes of `here`, less the spaces that are left out. -/
private theorem carets_of_lineAt? {number : Nat} {here more : List Char}
    (h : lineAt? source.toList e.position.offset = some ⟨number, here ++ more, byteCount here⟩) :
    Carets source e number (here ++ more) (indentOf (here ++ more))
      (byteCount here - indentOf (here ++ more)) := by
  refine ⟨exists_eq_replicate_indentOf _, ?_⟩
  rw [Error.display, h]
  simp only [indentOf, String.append_assoc]
  rfl

/-- An error of the front end is named with its column in characters, and drawn with a caret after
    dashes in bytes. The caret stands in the column, less the spaces in front of the line that are
    left out, if and only if all characters before it on the line have one byte. -/
theorem caret_under_column_iff (h : compile source file = .error e) :
    ∃ above here more after indent dashes,
      Located source file e above here after ∧ (∃ later, lines after = more :: later) ∧
      Carets source e (1 + (above ++ here).count '\n') (here ++ more) indent dashes ∧
      indent < 1 + here.length ∧ dashes + indent = byteCount here ∧
      (dashes = 1 + here.length - 1 - indent ↔ ∀ c ∈ here, c.utf8Size = 1) := by
  obtain ⟨above, here, more, after, hline⟩ := onLine_of_stands (compile_stands h)
  obtain ⟨later, hlater⟩ := hline.rest
  have hspace : more.head? ≠ some ' ' := by
    intro hhead
    have hblank := hline.stands ' ' (Text.head?_of_lines hlater hhead)
    exact absurd hblank (by decide)
  have hindent := @indentOf_append_le here more hspace
  have hbytes := Text.length_le_byteCount here
  refine ⟨above, here, more, after, _, _, hline.located, hline.rest, carets_of_lineAt? hline.found,
    by omega, by omega, ?_⟩
  rw [← Text.byteCount_eq_length_iff]
  omega

/-- A literal of the wrong type, with two spaces in front of its line and a wide one before it. -/
private def spaced : String := "let x: i8 =\n  　1i16 in x"

private def spacedError : Error := ⟨.typeMismatch (.int 8) (.int 16), ⟨17, "shell"⟩⟩

/-- The caret is two bytes too far, since the wide blank before the literal has three. -/
theorem caret_under_column_iff_spaced :
    compile spaced "shell" = .error spacedError ∧
    ∃ above here more after indent dashes,
      Located spaced "shell" spacedError above here after ∧
      (∃ later, lines after = more :: later) ∧
      Carets spaced spacedError (1 + (above ++ here).count '\n') (here ++ more) indent dashes ∧
      indent < 1 + here.length ∧ dashes + indent = byteCount here ∧
      (dashes = 1 + here.length - 1 - indent ↔ ∀ c ∈ here, c.utf8Size = 1) := by
  have hrun : compile spaced "shell" = .error spacedError :=
    errorOf?_eq_some.1 (by decide +kernel)
  exact ⟨hrun, caret_under_column_iff hrun⟩

/-- A character of one column and three bytes before the place: the caret of an error in column 2
    stands in column 4. -/
theorem caret_past_column :
    ∃ e, compile "　$" "shell" = .error e ∧
      e.diagnostic? "　$" = some "shell:1:2: unrecognised token: \"$\"" ∧
      Carets "　$" e 1 "　$".toList 0 3 ∧ 3 ≠ 2 - 1 - 0 := by
  have hline : lineAt? "　$".toList 3 = some ⟨1, ['　'] ++ ['$'], byteCount ['　']⟩ := by decide
  have hcaret := @carets_of_lineAt? "　$" ⟨.unrecognised "$", ⟨3, "shell"⟩⟩ 1 ['　'] ['$'] hline
  have hrun : compile "　$" "shell" = .error ⟨.unrecognised "$", ⟨3, "shell"⟩⟩ :=
    errorOf?_eq_some.1 (by decide +kernel)
  exact ⟨_, hrun, by decide +kernel, hcaret, by decide⟩

end BranchIR
