import BranchIR.Proofs.Exp.MapAnn
import BranchIR.Proofs.Ty.Lexemes

/-!
# The lexemes of an expression

The text of an expression is read as one list of lexemes, wherever it stands. What reads the
lexemes does not have to know of blanks and word boundaries any more.
-/

namespace BranchIR

open Text (natText intText commaList joined)

/-! ## Lexemes -/

/-- The lexeme of a variable. -/
def VarId.lexeme (id : VarId) : Lexeme := ⟨.identifier, VarId.text id⟩

/-- The lexeme of a number. -/
def numberLexeme (n : Nat) : Lexeme := ⟨.number, natText n⟩

/-- The lexeme of a pattern. -/
def Pattern.lexeme : Pattern → Lexeme
  | .literal value => ⟨.number, intText value⟩
  | .default => Kind.underscore.lexeme

/-- The lexemes of a parameter. -/
def Param.lexemes {α : Type} (p : Param α) : List Lexeme :=
  VarId.lexeme p.name :: Kind.colon.lexeme :: p.ty.lexemes

namespace Exp

variable {α : Type}

mutual

/-- The lexemes of an expression. -/
def lexemes : Exp α → List Lexeme
  | .var _ id => [VarId.lexeme id]
  | .int _ value width => [⟨.intLiteral, intText value ++ "i" ++ natText width⟩]
  | .ascribe _ inner ty =>
    Kind.openParen.lexeme ::
      (lexemes inner ++ Kind.colon.lexeme :: (ty.lexemes ++ [Kind.closeParen.lexeme]))
  | .coerce _ inner ty =>
    Kind.openParen.lexeme ::
      (lexemes inner ++ Kind.asWord.lexeme :: (ty.lexemes ++ [Kind.closeParen.lexeme]))
  | .prim _ op args =>
    ⟨.primWord, op.name⟩ :: Kind.openParen.lexeme ::
      (separated Kind.comma.lexeme (lexemeLists args) ++ [Kind.closeParen.lexeme])
  | .letIn _ name ty value body =>
    Kind.openParen.lexeme :: Kind.letWord.lexeme :: VarId.lexeme name :: Kind.colon.lexeme ::
      (ty.lexemes ++ Kind.assignment.lexeme :: (lexemes value ++
        Kind.inWord.lexeme :: (lexemes body ++ [Kind.closeParen.lexeme])))
  | .call _ callee args =>
    lexemes callee ++ Kind.openParen.lexeme ::
      (separated Kind.comma.lexeme (lexemeLists args) ++ [Kind.closeParen.lexeme])
  | .caseOf _ scrutinee arms =>
    Kind.caseWord.lexeme :: (lexemes scrutinee ++ Kind.openCurly.lexeme ::
      (separated Kind.comma.lexeme (armLexemes arms) ++ [Kind.closeCurly.lexeme]))
  | .recIn _ fs body =>
    Kind.openParen.lexeme :: Kind.recWord.lexeme ::
      (separated Kind.andWord.lexeme (funcLexemes fs) ++
        Kind.inWord.lexeme :: (lexemes body ++ [Kind.closeParen.lexeme]))
  | .tuple _ elems =>
    Kind.openCurly.lexeme ::
      (separated Kind.comma.lexeme (lexemeLists elems) ++ [Kind.closeCurly.lexeme])
  | .vector _ elems =>
    Kind.less.lexeme ::
      (separated Kind.comma.lexeme (lexemeLists elems) ++ [Kind.greater.lexeme])
  | .gep _ base path =>
    Kind.gepWord.lexeme :: Kind.openParen.lexeme ::
      (lexemes base ++ (pathLexemes path ++ [Kind.closeParen.lexeme]))
  | .load _ base path =>
    Kind.loadWord.lexeme :: Kind.openParen.lexeme ::
      (lexemes base ++ (pathLexemes path ++ [Kind.closeParen.lexeme]))
  | .store _ dest path value body =>
    Kind.openParen.lexeme :: Kind.storeWord.lexeme :: (lexemes dest ++ (pathLexemes path ++
      Kind.assignment.lexeme :: (lexemes value ++
        Kind.inWord.lexeme :: (lexemes body ++ [Kind.closeParen.lexeme]))))
  | .update _ base path value =>
    Kind.updateWord.lexeme :: Kind.openParen.lexeme :: (lexemes base ++ (pathLexemes path ++
      Kind.comma.lexeme :: (lexemes value ++ [Kind.closeParen.lexeme])))

/-- The lexemes of each expression in a list. -/
def lexemeLists : List (Exp α) → List (List Lexeme)
  | [] => []
  | e :: es => lexemes e :: lexemeLists es

/-- The lexemes of each arm. -/
def armLexemes : List (Arm (Exp α)) → List (List Lexeme)
  | [] => []
  | ⟨pattern, body⟩ :: arms =>
    (pattern.lexeme :: Kind.fatArrow.lexeme :: lexemes body) :: armLexemes arms

/-- The lexemes of each function. -/
def funcLexemes : List (Func α (Exp α)) → List (List Lexeme)
  | [] => []
  | ⟨_, name, params, result, body⟩ :: fs =>
    (VarId.lexeme name :: Kind.openParen.lexeme ::
      (separated Kind.comma.lexeme (params.map Param.lexemes) ++
        Kind.closeParen.lexeme :: Kind.colon.lexeme :: (result.lexemes ++
          Kind.assignment.lexeme :: lexemes body))) :: funcLexemes fs

/-- The lexemes of a path. -/
def pathLexemes : List (Step (Exp α)) → List Lexeme
  | [] => []
  | .field n :: path => Kind.dot.lexeme :: numberLexeme n :: pathLexemes path
  | .element n :: path =>
    Kind.openBracket.lexeme :: numberLexeme n :: Kind.closeBracket.lexeme :: pathLexemes path
  | .lane e :: path =>
    Kind.less.lexeme :: (lexemes e ++ Kind.greater.lexeme :: pathLexemes path)
  | .index e :: path => Kind.atSign.lexeme :: (lexemes e ++ pathLexemes path)

end

end Exp

/-- The lexemes of an arm. -/
def Arm.lexemes {α : Type} (arm : Arm (Exp α)) : List Lexeme :=
  arm.pattern.lexeme :: Kind.fatArrow.lexeme :: arm.body.lexemes

/-- The lexemes of a function. -/
def Func.lexemes {α : Type} (f : Func α (Exp α)) : List Lexeme :=
  VarId.lexeme f.name :: Kind.openParen.lexeme ::
    (separated Kind.comma.lexeme (f.params.map Param.lexemes) ++
      Kind.closeParen.lexeme :: Kind.colon.lexeme :: (f.result.lexemes ++
        Kind.assignment.lexeme :: f.body.lexemes))

namespace Exp

variable {α : Type}

/-- Expressions of a list have their lexemes one by one. -/
theorem lexemeLists_eq_map (es : List (Exp α)) : lexemeLists es = es.map lexemes := by
  induction es with
  | nil => rfl
  | cons e es ih => rw [lexemeLists, ih, List.map_cons]

/-- Arms have their lexemes one by one. -/
theorem armLexemes_eq_map (arms : List (Arm (Exp α))) :
    armLexemes arms = arms.map Arm.lexemes := by
  induction arms with
  | nil => rfl
  | cons arm arms ih => rw [armLexemes, ih, List.map_cons, Arm.lexemes]

/-- Functions have their lexemes one by one. -/
theorem funcLexemes_eq_map (fs : List (Func α (Exp α))) :
    funcLexemes fs = fs.map Func.lexemes := by
  induction fs with
  | nil => rfl
  | cons f fs ih => rw [funcLexemes, ih, List.map_cons, Func.lexemes]

end Exp

/-! ## Pieces between -/

section Pieces

variable {α : Type}

private theorem opens_colon : Opens ": " [Kind.colon.lexeme] :=
  (@opens_mark .colon rfl).append opens_blank

private theorem opens_equals : Opens " = " [Kind.assignment.lexeme] :=
  opens_blank.append opens_assignment

private theorem opens_maps : Opens " => " [Kind.fatArrow.lexeme] :=
  opens_blank.append opens_fatArrow

private theorem opens_result : Opens "): " [Kind.closeParen.lexeme, Kind.colon.lexeme] :=
  (@opens_mark .closeParen rfl).append opens_colon

/-- A reserved word between blanks. -/
private theorem opens_between {text : String} {k : Kind} (h : (text, k) ∈ reservedWords) :
    Opens (" " ++ (text ++ " ")) [⟨k, text⟩] :=
  opens_blank.append ((spells_reserved h).append opens_blank rfl)

/-- A reserved word at the beginning of a form. -/
private theorem opens_start {text : String} {k : Kind} (h : (text, k) ∈ reservedWords) :
    Opens ("(" ++ (text ++ " ")) [Kind.openParen.lexeme, ⟨k, text⟩] :=
  (@opens_mark .openParen rfl).append ((spells_reserved h).append opens_blank rfl)

/-- A reserved word in front of a parenthesis. -/
private theorem opens_applied {text : String} {k : Kind} (h : (text, k) ∈ reservedWords) :
    Opens (text ++ "(") [⟨k, text⟩, Kind.openParen.lexeme] :=
  (spells_reserved h).append (@opens_mark .openParen rfl) rfl

/-- A pattern is one lexeme. -/
private theorem spells_pattern (pattern : Pattern) : Spells pattern.text [pattern.lexeme] := by
  cases pattern with
  | literal value => exact spells_intText value
  | default => exact spells_reserved (by decide)

private theorem Param.spells (p : Param α) : Spells p.text p.lexemes :=
  ((spells_var p.name).append opens_colon rfl).append_spells p.ty.spells

end Pieces

/-! ## Expressions -/

namespace Exp

variable {α : Type}

/-- Arms are printed one by one, each with an arrow between its pattern and its body. -/
private theorem armTexts_eq_map (arms : List (Arm (Exp α))) :
    armTexts arms = arms.map fun arm => arm.pattern.text ++ " => " ++ text arm.body := by
  induction arms with
  | nil => rfl
  | cons arm arms ih => rw [armTexts, ih, List.map_cons]

/-- Functions are printed one by one, each with its parameters and its result. -/
private theorem funcTexts_eq_map (fs : List (Func α (Exp α))) :
    funcTexts fs = fs.map fun f => VarId.text f.name ++ "(" ++
      commaList (f.params.map Param.text) ++ "): " ++ f.result.text ++ " = " ++ text f.body := by
  induction fs with
  | nil => rfl
  | cons f fs ih => rw [funcTexts, ih, List.map_cons]

/-- The text of an expression is read as its lexemes. -/
def Spelled (e : Exp α) : Prop := Spells e.text e.lexemes

/-- Expressions of a list are spelled with commas between them. -/
private theorem spells_list {es : List (Exp α)} (h : ∀ e ∈ es, Spelled e) :
    Spells (commaList (texts es)) (separated Kind.comma.lexeme (lexemeLists es)) := by
  rw [texts_eq_map, lexemeLists_eq_map]
  exact spells_commaList h

/-- Arms are spelled with commas between them. -/
private theorem spells_arms {arms : List (Arm (Exp α))} (h : ∀ arm ∈ arms, Spelled arm.body) :
    Spells (commaList (armTexts arms)) (separated Kind.comma.lexeme (armLexemes arms)) := by
  rw [armTexts_eq_map, armLexemes_eq_map]
  apply spells_commaList
  intro arm harm
  exact ((spells_pattern arm.pattern).append opens_maps rfl).append_spells (h arm harm)

/-- The functions of a bundle are spelled with a word between them. -/
private theorem spells_funcs {fs : List (Func α (Exp α))} (h : ∀ f ∈ fs, Spelled f.body) :
    Spells (joined " and " (funcTexts fs)) (separated Kind.andWord.lexeme (funcLexemes fs)) := by
  rw [funcTexts_eq_map, funcLexemes_eq_map]
  apply spells_joined (@opens_between "and" .andWord (by decide)) rfl
  intro f hf
  -- the name, the parameters in parentheses, the result and the body
  have hparams : Spells (commaList (f.params.map Param.text)) _ :=
    spells_commaList fun p _ => p.spells
  have hopens := ((spells_var f.name).append (@opens_mark .openParen rfl) rfl).append_spells hparams
  have hresult := (hopens.append opens_result rfl).append_spells f.result.spells
  have hbody := (hresult.append opens_equals rfl).append_spells (h f hf)
  simpa [Func.lexemes, VarId.lexeme, Kind.spelling] using hbody

/-- A path goes on right after what it starts from. -/
private theorem spells_path {a : String} {us : List Lexeme} (ha : Spells a us)
    {path : List (Step (Exp α))} (h : ∀ e ∈ offsets path, Spelled e) :
    Spells (a ++ pathText path) (us ++ pathLexemes path) := by
  induction path generalizing a us with
  | nil => simpa [pathText, pathLexemes] using ha
  | cons step path ih =>
    rw [offsets_cons, List.forall_mem_append] at h
    obtain ⟨hstep, hpath⟩ := h
    -- the blank before the step closes a word at the end of what came before
    cases step with
    | field n =>
      have hopens := ha.append (opens_blank.append (@opens_mark .dot rfl)) rfl
      have hrest := ih (hopens.append_spells (spells_natText n)) hpath
      simpa [pathText, pathLexemes, Kind.spelling, numberLexeme, String.append_assoc] using hrest
    | element n =>
      have hopens := ha.append (opens_blank.append (@opens_mark .openBracket rfl)) rfl
      -- a closing bracket ends the number before it
      have hnumber := hopens.append_spells (spells_natText n)
      have hrest := ih (hnumber.append (@opens_mark .closeBracket rfl) rfl).spells hpath
      simpa [pathText, pathLexemes, Kind.spelling, numberLexeme, String.append_assoc] using hrest
    | lane e =>
      have hopens := ha.append (opens_blank.append (@opens_mark .less rfl)) rfl
      have hoffset := hopens.append_spells (hstep e (by simp))
      have hrest := ih (hoffset.append (@opens_mark .greater rfl) rfl).spells hpath
      simpa [pathText, pathLexemes, Kind.spelling, String.append_assoc] using hrest
    | index e =>
      have hopens := ha.append (opens_blank.append (@opens_mark .atSign rfl)) rfl
      have hrest := ih (hopens.append_spells (hstep e (by simp))) hpath
      simpa [pathText, pathLexemes, Kind.spelling, String.append_assoc] using hrest

/-- The text of an expression spells its lexemes. -/
theorem spells (e : Exp α) : Spelled e := by
  -- the pieces of a form are put together from left to right; each `rfl` says that the next
  -- piece begins with a blank or a mark, so it may stand after a word
  have hclose := @opens_mark .closeParen rfl
  have hin := @opens_between "in" .inWord (by decide)
  induction e with
  | var a id => exact spells_var id
  | int a value width => exact spells_literal value width
  | ascribe a inner ty ih =>
    have hopens := (@opens_mark .openParen rfl).append_spells ih
    have hty := (hopens.append opens_colon rfl).append_spells ty.spells
    have h := (hty.append hclose rfl).spells
    simpa [Spelled, text, lexemes, Kind.lexeme, Kind.spelling] using h
  | coerce a inner ty ih =>
    have has := @opens_between "as" .asWord (by decide)
    have hopens := (@opens_mark .openParen rfl).append_spells ih
    have hty := (hopens.append has rfl).append_spells ty.spells
    have h := (hty.append hclose rfl).spells
    simpa [Spelled, text, lexemes, Kind.lexeme, Kind.spelling] using h
  | prim a op args ih =>
    -- the names of operations are reserved words
    have hword : (op.name, Kind.primWord) ∈ reservedWords := by cases op <;> decide
    have hargs := (opens_applied hword).append_spells (spells_list ih)
    have h := (hargs.append hclose rfl).spells
    simpa [Spelled, text, lexemes, Kind.lexeme, Kind.spelling] using h
  | letIn a name ty value body hvalue hbody =>
    -- `let`, the name, its type, the value and the body
    have hname := (@opens_start "let" .letWord (by decide)).append_spells (spells_var name)
    have hty := (hname.append opens_colon rfl).append_spells ty.spells
    have hgiven := (hty.append opens_equals rfl).append_spells hvalue
    have hinner := (hgiven.append hin rfl).append_spells hbody
    have h := (hinner.append hclose rfl).spells
    simpa [Spelled, text, lexemes, Kind.lexeme, Kind.spelling, VarId.lexeme] using h
  | call a callee args hcallee hargs =>
    -- the callee may end in a word, which its parenthesis ends
    have hopens := hcallee.append (@opens_mark .openParen rfl) rfl
    have h := ((hopens.append_spells (spells_list hargs)).append hclose rfl).spells
    simpa [Spelled, text, lexemes, Kind.lexeme, Kind.spelling] using h
  | caseOf a scrutinee arms hscrutinee harms =>
    have hword := (@spells_reserved "case" .caseWord (by decide)).append opens_blank rfl
    -- blanks stand on both sides of the braces
    have hcurly := opens_blank.append ((@opens_mark .openCurly rfl).append opens_blank)
    have hopens := (hword.append_spells hscrutinee).append hcurly rfl
    have hlist := hopens.append_spells (spells_arms harms)
    have h := (hlist.append (opens_blank.append (@opens_mark .closeCurly rfl)) rfl).spells
    simpa [Spelled, text, lexemes, Kind.lexeme, Kind.spelling] using h
  | recIn a fs body hfs hbody =>
    have hfuncs := (@opens_start "rec" .recWord (by decide)).append_spells (spells_funcs hfs)
    have hinner := (hfuncs.append hin rfl).append_spells hbody
    have h := (hinner.append hclose rfl).spells
    simpa [Spelled, text, lexemes, Kind.lexeme, Kind.spelling] using h
  | tuple a elems ih =>
    have hlist := (@opens_mark .openCurly rfl).append_spells (spells_list ih)
    have h := (hlist.append (@opens_mark .closeCurly rfl) rfl).spells
    simpa [Spelled, text, lexemes, Kind.lexeme, Kind.spelling] using h
  | vector a elems ih =>
    have hlist := (@opens_mark .less rfl).append_spells (spells_list ih)
    have h := (hlist.append (@opens_mark .greater rfl) rfl).spells
    simpa [Spelled, text, lexemes, Kind.lexeme, Kind.spelling] using h
  | gep a base path hbase hpath =>
    have hopens := (@opens_applied "gep" .gepWord (by decide)).append_spells hbase
    have h := ((spells_path hopens hpath).append hclose rfl).spells
    simpa [Spelled, text, lexemes, Kind.lexeme, Kind.spelling] using h
  | load a base path hbase hpath =>
    have hopens := (@opens_applied "load" .loadWord (by decide)).append_spells hbase
    have h := ((spells_path hopens hpath).append hclose rfl).spells
    simpa [Spelled, text, lexemes, Kind.lexeme, Kind.spelling] using h
  | store a dest path value body hdest hpath hvalue hbody =>
    have hopens := (@opens_start "store" .storeWord (by decide)).append_spells hdest
    have hgiven := ((spells_path hopens hpath).append opens_equals rfl).append_spells hvalue
    have hinner := (hgiven.append hin rfl).append_spells hbody
    have h := (hinner.append hclose rfl).spells
    simpa [Spelled, text, lexemes, Kind.lexeme, Kind.spelling] using h
  | update a base path value hbase hpath hvalue =>
    have hopens := (@opens_applied "update" .updateWord (by decide)).append_spells hbase
    have hgiven := ((spells_path hopens hpath).append opens_comma rfl).append_spells hvalue
    have h := (hgiven.append hclose rfl).spells
    simpa [Spelled, text, lexemes, Kind.lexeme, Kind.spelling] using h

end Exp

end BranchIR
