import BranchIR.Proofs.Token.Words

/-!
# The lexemes of a type

The text of a type is read as one list of lexemes, wherever it stands.
-/

namespace BranchIR

open Text (natText commaList)

mutual

/-- The lexemes of a primitive type. -/
def PrimTy.lexemes : PrimTy → List Lexeme
  | .int width => [⟨.identifier, "i" ++ natText width⟩]
  | .float kind => [⟨.identifier, kind.name⟩]
  | .ptr target => Kind.ampersand.lexeme :: target.lexemes

/-- The lexemes of a type. -/
def Ty.lexemes : Ty → List Lexeme
  | .void => [⟨.identifier, "void"⟩]
  | .prim p => p.lexemes
  | .vector length lane =>
    Kind.less.lexeme :: ⟨.number, natText length⟩ :: ⟨.identifier, "x"⟩ ::
      (lane.lexemes ++ [Kind.greater.lexeme])
  | .array length element =>
    Kind.openBracket.lexeme :: ⟨.number, natText length⟩ :: ⟨.identifier, "x"⟩ ::
      (element.lexemes ++ [Kind.closeBracket.lexeme])
  | .tuple fields =>
    Kind.openCurly.lexeme ::
      (separated Kind.comma.lexeme (Ty.lexemeLists fields) ++ [Kind.closeCurly.lexeme])
  | .fn params result =>
    Kind.funWord.lexeme :: Kind.openParen.lexeme ::
      (separated Kind.comma.lexeme (Ty.lexemeLists params) ++
        Kind.closeParen.lexeme :: Kind.arrow.lexeme :: result.lexemes)

/-- The lexemes of each type in a list. -/
def Ty.lexemeLists : List Ty → List (List Lexeme)
  | [] => []
  | t :: ts => t.lexemes :: Ty.lexemeLists ts

end

theorem Ty.lexemeLists_eq_map (ts : List Ty) : Ty.lexemeLists ts = ts.map Ty.lexemes := by
  induction ts with
  | nil => rfl
  | cons t ts ih => rw [Ty.lexemeLists, ih, List.map_cons]

/-! ## Pieces between -/

private theorem spells_floatKind (kind : FloatKind) :
    Spells kind.name [⟨.identifier, kind.name⟩] := by
  cases kind <;> exact spells_word (by decide) (by decide)

private theorem spells_void : Spells "void" [⟨.identifier, "void"⟩] :=
  spells_word (by decide) (by decide)

/-- The word between the length and the elements. -/
private theorem opens_times : Opens " x " [⟨.identifier, "x"⟩] := by
  have hx := @spells_word "x" (by decide) (by decide)
  exact opens_blank.append (hx.append opens_blank rfl)

theorem opens_comma : Opens ", " [Kind.comma.lexeme] :=
  (@opens_mark .comma rfl).append opens_blank

private theorem opens_fun : Opens "fun (" [Kind.funWord.lexeme, Kind.openParen.lexeme] := by
  have hword := @spells_reserved "fun" .funWord (by decide)
  exact hword.append (opens_blank.append (@opens_mark .openParen rfl)) rfl

private theorem opens_gives : Opens ") -> " [Kind.closeParen.lexeme, Kind.arrow.lexeme] :=
  (@opens_mark .closeParen rfl).append (opens_blank.append opens_arrow)

/-- A list spells what its items do, with commas between them. -/
theorem spells_commaList {α : Type} {text : α → String} {lexemes : α → List Lexeme}
    {xs : List α} (h : ∀ x ∈ xs, Spells (text x) (lexemes x)) :
    Spells (commaList (xs.map text)) (separated Kind.comma.lexeme (xs.map lexemes)) :=
  spells_joined opens_comma rfl h

/-! ## Types -/

mutual

theorem PrimTy.spells : (p : PrimTy) → Spells p.text p.lexemes
  | .int width => spells_intType width
  | .float kind => spells_floatKind kind
  | .ptr target => (@opens_mark .ampersand rfl).append_spells target.spells

/-- A type spells its lexemes. -/
theorem Ty.spells : (t : Ty) → Spells t.text t.lexemes
  | .void => spells_void
  | .prim p => p.spells
  | .vector length lane => by
    have hopens := (@opens_mark .less rfl).append_spells (spells_natText length)
    have hlane := (hopens.append opens_times rfl).append_spells lane.spells
    have h := hlane.append (@opens_mark .greater rfl) rfl
    simpa [Ty.text, Ty.lexemes, Kind.spelling] using h.spells
  | .array length element => by
    have hopens := (@opens_mark .openBracket rfl).append_spells (spells_natText length)
    have helement := (hopens.append opens_times rfl).append_spells element.spells
    have h := helement.append (@opens_mark .closeBracket rfl) rfl
    simpa [Ty.text, Ty.lexemes, Kind.spelling] using h.spells
  | .tuple fields => by
    have hfields := spells_commaList (Ty.spells_all fields)
    have hopens := (@opens_mark .openCurly rfl).append_spells hfields
    have h := hopens.append (@opens_mark .closeCurly rfl) rfl
    simpa [Ty.text, Ty.lexemes, Kind.spelling, Ty.texts_eq_map, Ty.lexemeLists_eq_map]
      using h.spells
  | .fn params result => by
    have hparams := spells_commaList (Ty.spells_all params)
    have hopens := (opens_fun.append_spells hparams).append opens_gives rfl
    have h := hopens.append_spells result.spells
    simpa [Ty.text, Ty.lexemes, Kind.spelling, Ty.texts_eq_map, Ty.lexemeLists_eq_map] using h

/-- The same for the types of a list. -/
private theorem Ty.spells_all : (ts : List Ty) → ∀ t ∈ ts, Spells t.text t.lexemes
  | [] => by simp
  | t :: ts => List.forall_mem_cons.2 ⟨t.spells, Ty.spells_all ts⟩

end

/-! ## On one line -/

private theorem newline_notMem_digits (n : Nat) : '\n' ∉ Nat.toDigits 10 n := by
  intro h
  exact absurd (Nat.isDigit_of_mem_toDigits (by decide) (by decide) h) (by decide)

/-- A list has no newline if none of its items has one. -/
private theorem newline_notMem_commaList {pieces : List String}
    (h : ∀ s ∈ pieces, '\n' ∉ s.toList) :
    '\n' ∉ (commaList pieces).toList := by
  rw [commaList]
  induction pieces with
  | nil => simp [Text.joined]
  | cons s ss ih =>
    obtain ⟨hs, hss⟩ := List.forall_mem_cons.1 h
    cases ss with
    | nil => exact hs
    | cons s' ss => simpa [Text.joined, String.toList_append, hs] using ih hss

mutual

theorem PrimTy.newline_notMem_text : (p : PrimTy) → '\n' ∉ p.text.toList
  | .int width => by simp [PrimTy.text, newline_notMem_digits width]
  | .float kind => by cases kind <;> decide
  | .ptr target => by simp [PrimTy.text, target.newline_notMem_text]

/-- A type is written on one line. -/
theorem Ty.newline_notMem_text : (t : Ty) → '\n' ∉ t.text.toList
  | .void => by decide
  | .prim p => p.newline_notMem_text
  | .vector length lane => by
    simp [Ty.text, newline_notMem_digits length, lane.newline_notMem_text]
  | .array length element => by
    simp [Ty.text, newline_notMem_digits length, element.newline_notMem_text]
  | .tuple fields => by
    simp [Ty.text, newline_notMem_commaList (Ty.newline_notMem_texts fields)]
  | .fn params result => by
    simp [Ty.text, newline_notMem_commaList (Ty.newline_notMem_texts params),
      result.newline_notMem_text]

private theorem Ty.newline_notMem_texts : (ts : List Ty) → ∀ s ∈ Ty.texts ts, '\n' ∉ s.toList
  | [] => by simp [Ty.texts]
  | t :: ts => List.forall_mem_cons.2 ⟨t.newline_notMem_text, Ty.newline_notMem_texts ts⟩

end

end BranchIR
