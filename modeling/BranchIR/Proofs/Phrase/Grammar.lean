import BranchIR.Exp.Basic
import BranchIR.Literal
import BranchIR.Proofs.Token.Lexemes

/-!
# The language of phrases

A phrase is a list of lexemes that a form of the grammar is written with. `TyPhrase` and
`ExpPhrase` are the grammar of types and of expressions by itself: which lexemes stand in which
order, which names are in scope, and which numbers fit. They know nothing of readers, states or
identities.

## Key results

- `Commas`, `TyPhrase`, `ExpPhrase`: the grammar
- `ExpPhrase.mono`: a phrase is one in every larger scope
-/

namespace BranchIR

/-! ## Words and lists -/

/-- The words of types. -/
inductive TyWord : String → Ty → Prop
  | void : TyWord "void" .void
  | float (kind : FloatKind) : TyWord kind.name (.float kind)
  | int {digits width} (reads : Text.word? digits = some width) (low : 1 ≤ width)
      (high : width ≤ Ty.maxIntWidth) : TyWord ("i" ++ digits) (.int width)

/-- The texts of literals: a value of 128 bits, an `i`, and a width that the value fits. -/
inductive LiteralText : String → Prop
  | mk {digits widthDigits value width} (reads : Text.wideInt? digits = some value)
      (readsWidth : Text.word? widthDigits = some width) (fits : fits value width = true) :
      LiteralText (digits ++ "i" ++ widthDigits)

/-- Items with a comma after each but the last. A comma may stand after the last too. -/
inductive Commas : List (List Lexeme) → List Lexeme → Prop
  | nil : Commas [] []
  | last {u} : Commas [u] u
  | more {u us v} (rest : Commas us v) : Commas (u :: us) (u ++ Kind.comma.lexeme :: v)

/-- Items with commas only between are such a list. -/
theorem Commas.separated (wss : List (List Lexeme)) :
    Commas wss (separated Kind.comma.lexeme wss) := by
  induction wss with
  | nil => exact .nil
  | cons ws wss ih =>
    cases wss with
    | nil => exact .last
    | cons vs wss => exact .more ih

/-- The lexeme of a name. -/
def Lexeme.name (text : String) : Lexeme := ⟨.identifier, text⟩

/-- The lexeme of a number without a width. -/
def Lexeme.number (text : String) : Lexeme := ⟨.number, text⟩

/-! ## Types -/

/-- The lexemes are a type. The lanes of a vector have to be of a primitive type. -/
inductive TyPhrase : Ty → List Lexeme → Prop
  | word {ty text} (names : TyWord text ty) : TyPhrase ty [.name text]
  | pointer {target u} (inner : TyPhrase target u) :
      TyPhrase (.ptr target) (Kind.ampersand.lexeme :: u)
  | vector {n lane digits u} (length : Text.word? digits = some n)
      (lanes : TyPhrase (.prim lane) u) :
      TyPhrase (.vector n lane) (Kind.less.lexeme :: .number digits :: .name "x" ::
        (u ++ [Kind.greater.lexeme]))
  | array {n element digits u} (length : Text.word? digits = some n)
      (elements : TyPhrase element u) :
      TyPhrase (.array n element) (Kind.openBracket.lexeme :: .number digits :: .name "x" ::
        (u ++ [Kind.closeBracket.lexeme]))
  | tuple {fields : List (Ty × List Lexeme)} {u} (list : Commas (fields.map (·.2)) u)
      (each : ∀ f ∈ fields, TyPhrase f.1 f.2) :
      TyPhrase (.tuple (fields.map (·.1)))
        (Kind.openCurly.lexeme :: (u ++ [Kind.closeCurly.lexeme]))
  | function {params : List (Ty × List Lexeme)} {result u v}
      (list : Commas (params.map (·.2)) u) (each : ∀ p ∈ params, TyPhrase p.1 p.2)
      (gives : TyPhrase result v) :
      TyPhrase (.fn (params.map (·.1)) result) (Kind.funWord.lexeme :: Kind.openParen.lexeme ::
        (u ++ Kind.closeParen.lexeme :: Kind.arrow.lexeme :: v))
  | group {ty u} (inner : TyPhrase ty u) :
      TyPhrase ty (Kind.openParen.lexeme :: (u ++ [Kind.closeParen.lexeme]))

/-! ## Parts of expressions -/

/-- The lexeme is a pattern. -/
inductive PatternPhrase : Pattern → Lexeme → Prop
  | default : PatternPhrase .default Kind.underscore.lexeme
  | literal {value digits} (reads : Text.wideInt? digits = some value) :
      PatternPhrase (.literal value) (.number digits)

/-- The lexemes are a path, where each offset that is computed is given by its own lexemes. -/
inductive PathPhrase : List (Step (List Lexeme)) → List Lexeme → Prop
  | nil : PathPhrase [] []
  | field {n path digits v} (offset : Text.word? digits = some n) (rest : PathPhrase path v) :
      PathPhrase (.field n :: path) (Kind.dot.lexeme :: .number digits :: v)
  | element {n path digits v} (offset : Text.word? digits = some n) (rest : PathPhrase path v) :
      PathPhrase (.element n :: path)
        (Kind.openBracket.lexeme :: .number digits :: Kind.closeBracket.lexeme :: v)
  | lane {u path v} (rest : PathPhrase path v) :
      PathPhrase (.lane u :: path) (Kind.less.lexeme :: (u ++ Kind.greater.lexeme :: v))
  | index {u path v} (rest : PathPhrase path v) :
      PathPhrase (.index u :: path) (Kind.atSign.lexeme :: (u ++ v))

/-- What an arm of a case is written with. -/
structure Branch where
  pattern : Pattern
  /-- The lexeme of the pattern. -/
  mark : Lexeme
  body : List Lexeme

/-- The lexemes of an arm. -/
def Branch.phrase (b : Branch) : List Lexeme := b.mark :: Kind.fatArrow.lexeme :: b.body

/-- What a parameter is written with. -/
structure Parameter where
  name : String
  ty : Ty
  /-- The lexemes of the type. -/
  type : List Lexeme

/-- The lexemes of a parameter. -/
def Parameter.phrase (p : Parameter) : List Lexeme := .name p.name :: Kind.colon.lexeme :: p.type

/-- What a function of a bundle is written with. -/
structure Member where
  name : String
  params : List Parameter
  /-- The parameters with the commas between. -/
  list : List Lexeme
  result : Ty
  /-- The lexemes of the type of the result. -/
  type : List Lexeme
  body : List Lexeme

namespace Member

/-- The lexemes of a function. -/
def phrase (m : Member) : List Lexeme :=
  .name m.name :: Kind.openParen.lexeme ::
    (m.list ++ Kind.closeParen.lexeme :: Kind.colon.lexeme ::
      (m.type ++ Kind.assignment.lexeme :: m.body))

/-- The names of the parameters. -/
def paramNames (m : Member) : List String := m.params.map (·.name)

/-- All but the body is right: the types are types, and the parameters have different names. -/
structure HeadOk (m : Member) : Prop where
  list : Commas (m.params.map (·.phrase)) m.list
  types : ∀ p ∈ m.params, TyPhrase p.ty p.type
  distinct : m.paramNames.Nodup
  result : TyPhrase m.result m.type

end Member

/-! ## Expressions -/

/-- The lexemes are an expression, where the names of a list are in scope. An expression is an
    opening form, or an expression with a trailing form after it. -/
inductive ExpPhrase : List String → List Lexeme → Prop
  -- opening forms
  | int {Γ text} (literal : LiteralText text) : ExpPhrase Γ [⟨.intLiteral, text⟩]
  | var {Γ name} (bound : name ∈ Γ) : ExpPhrase Γ [.name name]
  | group {Γ u} (inner : ExpPhrase Γ u) :
      ExpPhrase Γ (Kind.openParen.lexeme :: (u ++ [Kind.closeParen.lexeme]))
  | tuple {Γ us u} (list : Commas us u) (each : ∀ v ∈ us, ExpPhrase Γ v) :
      ExpPhrase Γ (Kind.openCurly.lexeme :: (u ++ [Kind.closeCurly.lexeme]))
  | vector {Γ us u} (list : Commas us u) (each : ∀ v ∈ us, ExpPhrase Γ v) :
      ExpPhrase Γ (Kind.less.lexeme :: (u ++ [Kind.greater.lexeme]))
  | prim {Γ us u} (op : PrimOp) (list : Commas us u) (each : ∀ v ∈ us, ExpPhrase Γ v) :
      ExpPhrase Γ (⟨.primWord, op.name⟩ :: Kind.openParen.lexeme ::
        (u ++ [Kind.closeParen.lexeme]))
  | letIn {Γ name ty t u v} (type : TyPhrase ty t) (value : ExpPhrase Γ u)
      (body : ExpPhrase (name :: Γ) v) :
      ExpPhrase Γ (Kind.letWord.lexeme :: .name name :: Kind.colon.lexeme ::
        (t ++ Kind.assignment.lexeme :: (u ++ Kind.inWord.lexeme :: v)))
  | recIn {Γ} {ms : List Member} {v} (nonempty : ms ≠ []) (heads : ∀ m ∈ ms, m.HeadOk)
      (distinct : (ms.map Member.name).Nodup)
      (each : ∀ m ∈ ms, ExpPhrase (m.paramNames ++ (ms.map Member.name ++ Γ)) m.body)
      (body : ExpPhrase (ms.map Member.name ++ Γ) v) :
      ExpPhrase Γ (Kind.recWord.lexeme :: (separated Kind.andWord.lexeme (ms.map Member.phrase) ++
        Kind.inWord.lexeme :: v))
  | caseOf {Γ u} {arms : List Branch} {v} (scrutinee : ExpPhrase Γ u)
      (list : Commas (arms.map (·.phrase)) v)
      (patterns : ∀ arm ∈ arms, PatternPhrase arm.pattern arm.mark)
      (each : ∀ arm ∈ arms, ExpPhrase Γ arm.body) :
      ExpPhrase Γ (Kind.caseWord.lexeme :: (u ++ Kind.openCurly.lexeme ::
        (v ++ [Kind.closeCurly.lexeme])))
  | gep {Γ u} {path : List (Step (List Lexeme))} {v} (base : ExpPhrase Γ u)
      (steps : PathPhrase path v) (each : ∀ w ∈ path.filterMap Step.offset?, ExpPhrase Γ w) :
      ExpPhrase Γ (Kind.gepWord.lexeme :: Kind.openParen.lexeme ::
        (u ++ (v ++ [Kind.closeParen.lexeme])))
  | load {Γ u} {path : List (Step (List Lexeme))} {v} (base : ExpPhrase Γ u)
      (steps : PathPhrase path v) (each : ∀ w ∈ path.filterMap Step.offset?, ExpPhrase Γ w) :
      ExpPhrase Γ (Kind.loadWord.lexeme :: Kind.openParen.lexeme ::
        (u ++ (v ++ [Kind.closeParen.lexeme])))
  | store {Γ u} {path : List (Step (List Lexeme))} {v a b} (dest : ExpPhrase Γ u)
      (steps : PathPhrase path v) (each : ∀ w ∈ path.filterMap Step.offset?, ExpPhrase Γ w)
      (value : ExpPhrase Γ a) (body : ExpPhrase Γ b) :
      ExpPhrase Γ (Kind.storeWord.lexeme :: (u ++ (v ++ Kind.assignment.lexeme ::
        (a ++ Kind.inWord.lexeme :: b))))
  | update {Γ u} {path : List (Step (List Lexeme))} {v a} (base : ExpPhrase Γ u)
      (steps : PathPhrase path v) (each : ∀ w ∈ path.filterMap Step.offset?, ExpPhrase Γ w)
      (value : ExpPhrase Γ a) :
      ExpPhrase Γ (Kind.updateWord.lexeme :: Kind.openParen.lexeme ::
        (u ++ (v ++ Kind.comma.lexeme :: (a ++ [Kind.closeParen.lexeme]))))
  -- trailing forms
  | ascribe {Γ u ty t} (inner : ExpPhrase Γ u) (type : TyPhrase ty t) :
      ExpPhrase Γ (u ++ Kind.colon.lexeme :: t)
  | coerce {Γ u ty t} (inner : ExpPhrase Γ u) (type : TyPhrase ty t) :
      ExpPhrase Γ (u ++ Kind.asWord.lexeme :: t)
  | call {Γ u us v} (callee : ExpPhrase Γ u) (list : Commas us v)
      (each : ∀ w ∈ us, ExpPhrase Γ w) :
      ExpPhrase Γ (u ++ Kind.openParen.lexeme :: (v ++ [Kind.closeParen.lexeme]))

/-- A phrase is one in every larger scope. -/
theorem ExpPhrase.mono {Γ Δ : List String} {u : List Lexeme} (h : ExpPhrase Γ u) (hsub : Γ ⊆ Δ) :
    ExpPhrase Δ u := by
  -- the scope of a part is that of the whole, or has names in front of it
  induction h generalizing Δ with
  | int literal => exact .int literal
  | var bound => exact .var (hsub bound)
  | group _ ih => exact .group (ih hsub)
  | tuple list _ ih => exact .tuple list fun v hv => ih v hv hsub
  | vector list _ ih => exact .vector list fun v hv => ih v hv hsub
  | prim op list _ ih => exact .prim op list fun v hv => ih v hv hsub
  | letIn type _ _ ihvalue ihbody =>
    exact .letIn type (ihvalue hsub) (ihbody (List.cons_subset_cons _ hsub))
  | recIn nonempty heads distinct _ _ iheach ihbody =>
    -- what a bundle adds to the scope stays in front
    have hfront (names : List String) {Γ Δ : List String} (hsub : Γ ⊆ Δ) :
        names ++ Γ ⊆ names ++ Δ :=
      List.append_subset.2
        ⟨List.subset_append_left .., List.subset_append_of_subset_right _ hsub⟩
    exact .recIn nonempty heads distinct (fun m hm => iheach m hm (hfront _ (hfront _ hsub)))
      (ihbody (hfront _ hsub))
  | caseOf _ list patterns _ ih iheach =>
    exact .caseOf (ih hsub) list patterns fun arm harm => iheach arm harm hsub
  | gep _ path _ ih iheach => exact .gep (ih hsub) path fun w hw => iheach w hw hsub
  | load _ path _ ih iheach => exact .load (ih hsub) path fun w hw => iheach w hw hsub
  | store _ path _ _ _ ih iheach ihvalue ihbody =>
    exact .store (ih hsub) path (fun w hw => iheach w hw hsub) (ihvalue hsub) (ihbody hsub)
  | update _ path _ _ ih iheach ihvalue =>
    exact .update (ih hsub) path (fun w hw => iheach w hw hsub) (ihvalue hsub)
  | ascribe _ type ih => exact .ascribe (ih hsub) type
  | coerce _ type ih => exact .coerce (ih hsub) type
  | call _ list _ ih iheach => exact .call (ih hsub) list fun w hw => iheach w hw hsub

end BranchIR
