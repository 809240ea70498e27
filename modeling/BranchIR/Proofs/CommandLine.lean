import BranchIR.CommandLine
import BranchIR.Proofs.Layout
import BranchIR.Proofs.RoundTrip

/-!
# What is printed is printed again

The report on a typed program is its text, and its type in a comment on a line of its own. So
the report is itself a source text, with the tokens of the text of the program, and the whole
program can be run on it: it prints the same report, and finds the same facts.

## Key results

- `run_eq_ok`: what a successful run has printed
- `compile_report`: the front end on the report on a typed program
- `run_typed_fixpoint`: a run on what was printed prints the same
-/

namespace BranchIR

variable {source source' file file' : String} {program program' : Program} {c c' : Compiled}

/-! ## Source texts with the same tree -/

/-- A source text that is read to the same tree as one that is accepted is accepted, with the
    same facts and a tree that differs in spans only. -/
private theorem compile_of_sameTree (h : compile source file = .ok c)
    (hread : readProgram source file = .ok program)
    (hread' : readProgram source' file' = .ok program')
    (hsame : program.tree.mapAnn noAnn = program'.tree.mapAnn noAnn) :
    ∃ c', compile source' file' = .ok c' ∧ SameTyping c.tree c'.tree ∧ c'.facts = c.facts := by
  obtain ⟨_, hprogram, hcheck, hanalyze, -⟩ := compile_eq_ok.1 h
  obtain rfl := Except.ok.inj (hread.symm.trans hprogram)
  -- each pass does on the second tree what it has done on the first
  have hchecks := checkProgram_analyze_agrees hsame
  rw [hcheck] at hchecks
  obtain ⟨t', hcheck', hsame'⟩ := hchecks.exists_ok
  have hfacts := hsame'.facts
  rw [hanalyze] at hfacts
  obtain ⟨facts, hanalyze', rfl⟩ := hfacts.exists_ok
  exact ⟨⟨program'.scopes, t', c.facts⟩,
    compile_eq_ok.2 ⟨program', hread', hcheck', hanalyze', rfl⟩, hsame'.typing, rfl⟩

namespace CommandLine

/-! ## The report as a source text -/

/-- The report on a typed program has the tokens of the text of the program. -/
private theorem lexes_report {α : Type} {e : Exp α} (htext : c.tree.text = e.text) :
    Lexes (report c .typed).toList e.lexemes := by
  -- the type is on the line of the comment, and the newline that ends it ends the report
  have hline : '\n' ∉ (" : " ++ c.tree.ty.text).toList := by
    simpa using c.tree.ty.newline_notMem_text
  have hopens := opens_newline.append (opens_comment hline)
  have hbreak : breaksWord ("\n" ++ ("//" ++ (" : " ++ c.tree.ty.text) ++ "\n")) = true := by
    simp [breaksWord]
    decide
  have hlexes := (e.spells.append hopens hbreak).spells.lexes
  simpa [report, htext, String.append_assoc] using hlexes

/-- The report does not show spans. -/
private theorem report_of_sameTyping (h : SameTyping c.tree c'.tree) :
    report c' .typed = report c .typed := by
  have htext := congrArg Exp.text h
  rw [Exp.text_mapAnn, Exp.text_mapAnn] at htext
  rw [report, report, htext, ty_eq_of_sameTyping h]

/-- The report on a typed program is accepted, with the same facts and the same report. -/
theorem compile_report (h : compile source file = .ok c) (file' : String) :
    ∃ c', compile (report c .typed) file' = .ok c' ∧ c'.facts = c.facts ∧
      report c' .typed = report c .typed := by
  obtain ⟨program, hread, hcheck, -⟩ := compile_eq_ok.1 h
  obtain ⟨tokens, s', -, hreads, -⟩ := readProgram_sound hread
  -- the text does not show what checking has added
  have htext : c.tree.text = program.tree.text := by
    have herase := Typing.typed_erases _ _ _ _ hcheck
    rw [← herase, Exp.text_mapAnn]
  obtain ⟨program', hread', hsame⟩ :=
    readProgram_of_lexes hreads.writable (readProgram_numbered hread) (lexes_report htext) file'
  obtain ⟨c', hcompile', htyping, hfacts⟩ := compile_of_sameTree h hread hread' hsame.symm
  exact ⟨c', hcompile', hfacts, report_of_sameTyping htyping⟩

/-! ## Runs -/

/-- The bytes of a text are read as the text. -/
private theorem textOf_toUTF8 (text : String) : textOf text.toUTF8 = .ok text := by
  rw [textOf, String.fromUTF8?, String.toUTF8_eq_toByteArray, dif_pos text.isValidUTF8]
  rfl

/-- The program ends with code 0 exactly when the front end accepts the text of the file, and it
    prints the report. -/
private theorem finish_eq_ok {path : String} {emit : Emit} {text : Except ReadError String}
    {out err : String} :
    finish path emit text = ⟨0, out, err⟩ ↔
      ∃ source c, text = .ok source ∧ compile source ((fileName? path).getD path) = .ok c ∧
        report c emit = out ∧ err = "" := by
  cases text with
  | error e => simp [finish]
  | ok source =>
    simp only [finish]
    cases h : compile source ((fileName? path).getD path) with
    | error e => simp [h]
    | ok c => simp [h, eq_comm]

section Run

variable {read read' : String → Except ReadError ByteArray} {args args' : List String}
  {path path' out err : String}

/-- A run succeeds exactly if the file can be read as text and the front end accepts it; then it
    prints the report and no error. -/
theorem run_eq_ok {emit : Emit} (hargs : parseArgs none .typed args = some (path, emit)) :
    run (m := Id) read args = ⟨0, out, err⟩ ↔
      ∃ source c, (read path).bind textOf = .ok source ∧
        compile source ((fileName? path).getD path) = .ok c ∧ report c emit = out ∧ err = "" := by
  have hrun : run (m := Id) read args = finish path emit ((read path).bind textOf) := by
    rw [run, hargs]
    rfl
  rw [hrun, finish_eq_ok]

/-- A run that prints a typed program with its type is repeated on what it has printed: a run
    that is asked for the same of a file with this content prints the same and ends with the same
    code, and the facts that are found on the way are the same. -/
theorem run_typed_fixpoint (hargs : parseArgs none .typed args = some (path, .typed))
    (hrun : run (m := Id) read args = ⟨0, out, err⟩)
    (hargs' : parseArgs none .typed args' = some (path', .typed))
    (hread' : read' path' = .ok out.toUTF8) :
    run (m := Id) read' args' = ⟨0, out, ""⟩ ∧
      ∃ source c c', (read path).bind textOf = .ok source ∧
        compile source ((fileName? path).getD path) = .ok c ∧
        compile out ((fileName? path').getD path') = .ok c' ∧ c'.facts = c.facts := by
  obtain ⟨source, c, hread, hcompile, rfl, -⟩ := (run_eq_ok hargs).1 hrun
  obtain ⟨c', hcompile', hfacts, hreport⟩ :=
    compile_report hcompile ((fileName? path').getD path')
  have htext : (read' path').bind textOf = .ok (report c .typed) := by
    rw [hread']
    exact textOf_toUTF8 _
  exact ⟨(run_eq_ok hargs').2 ⟨_, c', htext, hcompile', hreport, rfl⟩,
    source, c, c', hread, hcompile, hcompile', hfacts⟩

end Run

/-- A program that counts down by jumps. -/
private def countdown : String :=
  "let k: i8 = 1i8 in
    rec down(i: i8): i8 = case i \x7b 0 => i, _ => down(sub(i, k)) \x7d in down(5i8)"

/-- What is printed about the program. -/
private def printed : String :=
  "(let v0: i8 = 1i8 in (rec v1(v2: i8): i8 = case v2 \x7b 0 => v2, _ => v1(sub(v2, v0)) \x7d " ++
    "in v1(5i8)))\n// : i8\n"

/-- The program is printed, and what was printed is printed again from another file. The second
    run finds the branch target again. -/
theorem run_typed_fixpoint_countdown :
    run (m := Id) (fun _ => .ok countdown.toUTF8) ["down.phi"] = ⟨0, printed, ""⟩ ∧
      run (m := Id) (fun _ => .ok printed.toUTF8) ["--emit=facts", "again.phi", "--emit=typed"] =
        ⟨0, printed, ""⟩ ∧
      ∃ c c', compile countdown ((fileName? "down.phi").getD "down.phi") = .ok c ∧
        compile printed ((fileName? "again.phi").getD "again.phi") = .ok c' ∧
        c.facts.targets = [1] ∧ c'.facts = c.facts := by
  -- both argument lists select the typed tree
  have hargs : parseArgs none .typed ["down.phi"] = some ("down.phi", .typed) := by
    decide +kernel
  have hargs' : parseArgs none .typed ["--emit=facts", "again.phi", "--emit=typed"] =
      some ("again.phi", .typed) := by
    decide +kernel
  -- what the first run prints and finds is decided by running the front end
  have hfound : (compile countdown ((fileName? "down.phi").getD "down.phi")).toOption.map
      (fun c => (report c .typed, c.facts.targets)) = some (printed, [1]) := by
    decide +kernel
  cases hcompile : compile countdown ((fileName? "down.phi").getD "down.phi") with
  | error e =>
    rw [hcompile] at hfound
    cases hfound
  | ok c =>
    rw [hcompile] at hfound
    simp only [Except.toOption, Option.map_some, Option.some.injEq, Prod.mk.injEq] at hfound
    obtain ⟨hreport, htargets⟩ := hfound
    have hrun := (@run_eq_ok (fun _ => .ok countdown.toUTF8) _ _ _ "" _ hargs).2
      ⟨countdown, c, textOf_toUTF8 countdown, hcompile, hreport, rfl⟩
    obtain ⟨hagain, source, c₁, c', hsource, hc₁, hc', hfacts⟩ :=
      @run_typed_fixpoint _ (fun _ => .ok printed.toUTF8) _ _ _ _ _ _ hargs hrun hargs' rfl
    -- the file has one text, and so one outcome of the front end
    obtain rfl : source = countdown := Except.ok.inj (hsource.symm.trans (textOf_toUTF8 countdown))
    obtain rfl : c₁ = c := Except.ok.inj (hc₁.symm.trans hcompile)
    exact ⟨hrun, hagain, c₁, c', rfl, hc', htargets, hfacts⟩

end CommandLine

end BranchIR
