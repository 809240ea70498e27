import BranchIR.Exp.Parser
import BranchIR.Proofs.Exp.MapAnn

/-!
# The grammar as a relation

`ReadsTy s ty s'` and `Reads s e s'` say that the tokens from the state `s` up to the state
`s'` are a type or an expression. They have one rule for each form of the grammar and no
fuel, tables or look-ahead. A rule for a form with a list, a path or functions in it speaks of
pieces: what stands in the list, with the states before and after.

## Key results

- `ReadsTy`, `Reads`: the rules
-/

namespace BranchIR

/-! ## States -/

namespace State

/-- The tokens from the current one on. -/
def upcoming (s : State) : List Token := s.current :: s.after

/-- A token of the kind is read. There is another one after it. -/
structure Takes (k : Kind) (s s' : State) : Prop where
  kind : s.current.kind = k
  more : s.after ≠ []
  next : s.next = s'

/-- The same place with other scopes. -/
def withScopes (s : State) (scopes : Scopes) : State := { s with scopes := scopes }

/-- Nothing is added to tokens that close with the end of the input. -/
private theorem closing_eq {last t : Token} {ts : List Token}
    (hlast : (last :: ts).getLast? = some t)
    (hkind : t.kind = .endOfInput) : closing last ts = ts := by
  induction ts generalizing last with
  | nil =>
    obtain rfl : last = t := Option.some.inj hlast
    rw [closing, if_pos hkind]
  | cons u ts ih =>
    rw [List.getLast?_cons_cons] at hlast
    rw [closing, ih hlast]

/-- Tokens that close with the end of the input are the tokens read. -/
theorem upcoming_ofTokens {tokens : List Token} {t : Token} (hlast : tokens.getLast? = some t)
    (hkind : t.kind = .endOfInput) (file : String) : (ofTokens file tokens).upcoming = tokens := by
  cases tokens with
  | nil => simp at hlast
  | cons first rest => rw [ofTokens, upcoming, closing_eq hlast hkind]

@[simp] theorem tokens_ofTokens (file : String) (tokens : List Token) :
    (ofTokens file tokens).tokens = (ofTokens file tokens).upcoming := by
  cases tokens <;> rfl

end State

/-- Something that was read, with the states before and after. -/
structure Piece (α : Type) where
  start : State
  item : α
  stop : State

/-! ## Lists and paths -/

/-- The pieces stand one after the other with commas between, and the closing kind ends them. A
    comma may stand after the last. -/
inductive Listed {α : Type} (close : Kind) : State → List (Piece α) → State → Prop
  | nil {s s'} (ends : s.Takes close s') : Listed close s [] s'
  | last {p s'} (ends : p.stop.Takes close s') : Listed close p.start [p] s'
  | more {p ps s s'} (comma : p.stop.Takes .comma s) (rest : Listed close s ps s') :
      Listed close p.start (p :: ps) s'

/-- A constant offset. -/
def ReadsOffset (s : State) (n : Nat) (s' : State) : Prop :=
  s.Takes .number s' ∧ Text.word? s.current.text = some n

/-- The steps of a path stand one after the other; the offsets computed are pieces. -/
inductive ReadsPath {α : Type} : State → List (Step (Piece α)) → State → Prop
  | nil {s} : ReadsPath s [] s
  | field {n path s s₁ s₂ s'} (dot : s.Takes .dot s₁) (offset : ReadsOffset s₁ n s₂)
      (rest : ReadsPath s₂ path s') : ReadsPath s (.field n :: path) s'
  | element {n path s s₁ s₂ s₃ s'} (opens : s.Takes .openBracket s₁) (offset : ReadsOffset s₁ n s₂)
      (ends : s₂.Takes .closeBracket s₃) (rest : ReadsPath s₃ path s') :
      ReadsPath s (.element n :: path) s'
  | lane {p path s s₁ s'} (opens : s.Takes .less p.start) (ends : p.stop.Takes .greater s₁)
      (rest : ReadsPath s₁ path s') : ReadsPath s (.lane p :: path) s'
  | index {p path s s'} (sign : s.Takes .atSign p.start) (rest : ReadsPath p.stop path s') :
      ReadsPath s (.index p :: path) s'

/-- The computed offsets of a path are the items of its pieces. -/
theorem offsets_map_item (path : List (Step (Piece (Exp Span)))) :
    Exp.offsets (path.map (Step.map Piece.item)) =
      (path.filterMap Step.offset?).map Piece.item :=
  Step.offsets_map Piece.item path

/-! ## Types -/

/-- The length of a vector or array, and the `x` after it. -/
def ReadsLength (s : State) (n : Nat) (s' : State) : Prop :=
  ∃ s₁, ReadsOffset s n s₁ ∧ s₁.Takes .identifier s' ∧ s₁.current.text = "x"

/-- The tokens between the states are a type. -/
inductive ReadsTy : State → Ty → State → Prop
  | word {ty s s'} (word : s.Takes .identifier s') (names : Ty.ofWord? s.current.text = some ty) :
      ReadsTy s ty s'
  | pointer {ty s s₁ s'} (mark : s.Takes .ampersand s₁) (target : ReadsTy s₁ ty s') :
      ReadsTy s (.ptr ty) s'
  | vector {n lane s s₁ s₂ s₃ s'} (opens : s.Takes .less s₁) (length : ReadsLength s₁ n s₂)
      (lanes : ReadsTy s₂ (.prim lane) s₃) (ends : s₃.Takes .greater s') :
      ReadsTy s (.vector n lane) s'
  | array {n ty s s₁ s₂ s₃ s'} (opens : s.Takes .openBracket s₁) (length : ReadsLength s₁ n s₂)
      (element : ReadsTy s₂ ty s₃) (ends : s₃.Takes .closeBracket s') :
      ReadsTy s (.array n ty) s'
  | tuple {fields s s₁ s'} (opens : s.Takes .openCurly s₁) (list : Listed .closeCurly s₁ fields s')
      (each : ∀ p ∈ fields, ReadsTy p.start p.item p.stop) :
      ReadsTy s (.tuple (fields.map Piece.item)) s'
  | function {params result s s₁ s₂ s₃ s₄ s'} (word : s.Takes .funWord s₁)
      (opens : s₁.Takes .openParen s₂) (list : Listed .closeParen s₂ params s₃)
      (each : ∀ p ∈ params, ReadsTy p.start p.item p.stop) (arrow : s₃.Takes .arrow s₄)
      (gives : ReadsTy s₄ result s') : ReadsTy s (.fn (params.map Piece.item) result) s'
  | group {ty s s₁ s₂ s'} (opens : s.Takes .openParen s₁) (inner : ReadsTy s₁ ty s₂)
      (ends : s₂.Takes .closeParen s') : ReadsTy s ty s'

/-! ## Arms and functions -/

/-- A pattern. -/
inductive ReadsPattern : State → Pattern → State → Prop
  | default {s s'} (mark : s.Takes .underscore s') : ReadsPattern s .default s'
  | literal {value s s'} (number : s.Takes .number s')
      (reads : Text.wideInt? s.current.text = some value) : ReadsPattern s (.literal value) s'

/-- An arm of a case but for its body: the pattern and the arrow. -/
def ReadsArm {α : Type} (arm : Piece (Arm (Piece α))) : Prop :=
  ∃ s₁, ReadsPattern arm.start arm.item.pattern s₁ ∧ s₁.Takes .fatArrow arm.item.body.start ∧
    arm.item.body.stop = arm.stop

/-- A parameter. It gets the next identity, and the innermost scope did not bind its name. -/
def ReadsParam (p : Piece (Param Span)) : Prop :=
  ∃ s₁ s₂ s₃, p.start.Takes .identifier s₁ ∧
    p.start.scopes.bindsHere p.start.current.text = false ∧ s₁.Takes .colon s₂ ∧
    ReadsTy s₂ p.item.ty s₃ ∧ p.item.ann = s₃.spanFrom p.start.position ∧
    p.item.name = s₃.scopes.size ∧
    p.stop = s₃.withScopes (s₃.scopes.bind p.start.current.text).2

/-- A function of a bundle but for its body, which is a piece. The parameters and the body have
    a scope of their own. -/
inductive ReadsFunc {α : Type} : State → Func Span (Piece α) → State → Prop
  | mk {f params s s₁ s₂ s₃ s₄ s₅ s'} (name : s.Takes .identifier s₁)
      (opens : (s₁.withScopes s₁.scopes.push).Takes .openParen s₂)
      (list : Listed .closeParen s₂ params s₃) (each : ∀ p ∈ params, ReadsParam p)
      (items : f.params = params.map Piece.item) (colon : s₃.Takes .colon s₄)
      (result : ReadsTy s₄ f.result s₅) (assignment : s₅.Takes .assignment f.body.start)
      (ann : f.ann = f.body.stop.spanFrom s.position)
      (leaves : s' = f.body.stop.withScopes f.body.stop.scopes.pop) : ReadsFunc s f s'

/-- The functions of a bundle, with `and` between. -/
inductive ReadsFuncs {α : Type} : State → List (Func Span (Piece α)) → State → Prop
  | last {f s s'} (func : ReadsFunc s f s') : ReadsFuncs s [f] s'
  | more {f fs s s₁ s₂ s'} (func : ReadsFunc s f s₁) (word : s₁.Takes .andWord s₂)
      (rest : ReadsFuncs s₂ fs s') : ReadsFuncs s (f :: fs) s'

/-- The scopes with names bound one after the other in the innermost one. -/
def Scopes.bindAll (scopes : Scopes) (names : List String) : Scopes :=
  names.foldl (fun scopes name => (scopes.bind name).2) scopes

/-- The functions get the identities of the names that the look-ahead finds, in order. -/
def BundleNamed {α : Type} (s : State) (fs : List (Func Span (Piece α))) : Prop :=
  fs.map (·.name) <+: List.range' s.scopes.size s.bundleNames.length

/-- The scopes of a bundle: the names that the look-ahead finds are bound in a new scope. -/
def State.bundleScopes (s : State) : Scopes :=
  s.scopes.push.bindAll (s.bundleNames.map (·.text))

/-! ## Expressions -/

/-- The tokens between the states are an expression. -/
inductive Reads : State → Exp Span → State → Prop
  | int {value width s s'} (token : s.Takes .intLiteral s')
      (reads : literal? s.current.text = some (value, width)) :
      Reads s (.int s.current.span value width) s'
  | var {id s s'} (token : s.Takes .identifier s')
      (names : s.scopes.find? s.current.text = some id) : Reads s (.var s.current.span id) s'
  | group {e s s₁ s₂ s'} (opens : s.Takes .openParen s₁) (inner : Reads s₁ e s₂)
      (ends : s₂.Takes .closeParen s') : Reads s e s'
  | tuple {elems s s₁ s'} (opens : s.Takes .openCurly s₁) (list : Listed .closeCurly s₁ elems s')
      (each : ∀ p ∈ elems, Reads p.start p.item p.stop) :
      Reads s (.tuple (s'.spanFrom s.position) (elems.map Piece.item)) s'
  | vector {elems s s₁ s'} (opens : s.Takes .less s₁) (list : Listed .greater s₁ elems s')
      (each : ∀ p ∈ elems, Reads p.start p.item p.stop) :
      Reads s (.vector (s'.spanFrom s.position) (elems.map Piece.item)) s'
  | prim {args s s₁ s₂ s'} (word : s.Takes .primWord s₁) (opens : s₁.Takes .openParen s₂)
      (list : Listed .closeParen s₂ args s') (each : ∀ p ∈ args, Reads p.start p.item p.stop) :
      Reads s (.prim (s'.spanFrom s.position) ((PrimOp.ofName? s.current.text).getD .div)
        (args.map Piece.item)) s'
  | letIn {ty value body s s₁ s₂ s₃ s₄ s₅ s₆ s₇ s₈ s'} (word : s.Takes .letWord s₁)
      (name : s₁.Takes .identifier s₂) (colon : s₂.Takes .colon s₃) (type : ReadsTy s₃ ty s₄)
      (assignment : s₄.Takes .assignment s₅) (given : Reads s₅ value s₆)
      (inWord : s₆.Takes .inWord s₇)
      (inner : Reads (s₇.withScopes (s₇.scopes.push.bind s₁.current.text).2) body s₈)
      (leaves : s' = s₈.withScopes s₈.scopes.pop) :
      Reads s (.letIn (s'.spanFrom s.position) s₇.scopes.size ty value body) s'
  | recIn {fs body s s₁ s₂ s₃ s₄ s'} (word : s.Takes .recWord s₁)
      (distinct : firstRepeated? (s.bundleNames.map (·.text)) = none) (named : BundleNamed s fs)
      (funcs : ReadsFuncs (s₁.withScopes s.bundleScopes) fs s₂)
      (each : ∀ f ∈ fs, Reads f.body.start f.body.item f.body.stop) (inWord : s₂.Takes .inWord s₃)
      (inner : Reads s₃ body s₄) (leaves : s' = s₄.withScopes s₄.scopes.pop) :
      Reads s (.recIn (s'.spanFrom s.position) (fs.map (Func.map id Piece.item)) body) s'
  | caseOf {scrutinee arms s s₁ s₂ s₃ s'} (word : s.Takes .caseWord s₁)
      (switch : Reads s₁ scrutinee s₂) (opens : s₂.Takes .openCurly s₃)
      (list : Listed .closeCurly s₃ arms s') (heads : ∀ a ∈ arms, ReadsArm a)
      (each : ∀ a ∈ arms, Reads a.item.body.start a.item.body.item a.item.body.stop) :
      Reads s (.caseOf (s'.spanFrom s.position) scrutinee
        (arms.map fun a => a.item.map Piece.item)) s'
  | gep {base path s s₁ s₂ s₃ s₄ s'} (word : s.Takes .gepWord s₁) (opens : s₁.Takes .openParen s₂)
      (start : Reads s₂ base s₃) (steps : ReadsPath s₃ path s₄)
      (each : ∀ p ∈ path.filterMap Step.offset?, Reads p.start p.item p.stop)
      (ends : s₄.Takes .closeParen s') :
      Reads s (.gep (s'.spanFrom s.position) base (path.map (Step.map Piece.item))) s'
  | load {base path s s₁ s₂ s₃ s₄ s'} (word : s.Takes .loadWord s₁) (opens : s₁.Takes .openParen s₂)
      (start : Reads s₂ base s₃) (steps : ReadsPath s₃ path s₄)
      (each : ∀ p ∈ path.filterMap Step.offset?, Reads p.start p.item p.stop)
      (ends : s₄.Takes .closeParen s') :
      Reads s (.load (s'.spanFrom s.position) base (path.map (Step.map Piece.item))) s'
  | store {dest path value body s s₁ s₂ s₃ s₄ s₅ s₆ s'} (word : s.Takes .storeWord s₁)
      (start : Reads s₁ dest s₂) (steps : ReadsPath s₂ path s₃)
      (each : ∀ p ∈ path.filterMap Step.offset?, Reads p.start p.item p.stop)
      (assignment : s₃.Takes .assignment s₄) (given : Reads s₄ value s₅)
      (inWord : s₅.Takes .inWord s₆) (inner : Reads s₆ body s') :
      Reads s (.store (s'.spanFrom s.position) dest (path.map (Step.map Piece.item)) value body) s'
  | update {base path value s s₁ s₂ s₃ s₄ s₅ s₆ s'} (word : s.Takes .updateWord s₁)
      (opens : s₁.Takes .openParen s₂) (start : Reads s₂ base s₃) (steps : ReadsPath s₃ path s₄)
      (each : ∀ p ∈ path.filterMap Step.offset?, Reads p.start p.item p.stop)
      (comma : s₄.Takes .comma s₅) (given : Reads s₅ value s₆) (ends : s₆.Takes .closeParen s') :
      Reads s (.update (s'.spanFrom s.position) base (path.map (Step.map Piece.item)) value) s'
  | ascribe {left ty s s₁ s₂ s'} (inner : Reads s left s₁) (colon : s₁.Takes .colon s₂)
      (type : ReadsTy s₂ ty s') : Reads s (.ascribe (s'.spanFrom left.ann.first) left ty) s'
  | coerce {left ty s s₁ s₂ s'} (inner : Reads s left s₁) (word : s₁.Takes .asWord s₂)
      (type : ReadsTy s₂ ty s') : Reads s (.coerce (s'.spanFrom left.ann.first) left ty) s'
  | call {left args s s₁ s₂ s'} (inner : Reads s left s₁) (opens : s₁.Takes .openParen s₂)
      (list : Listed .closeParen s₂ args s') (each : ∀ p ∈ args, Reads p.start p.item p.stop) :
      Reads s (.call (s'.spanFrom left.ann.first) left (args.map Piece.item)) s'

end BranchIR
