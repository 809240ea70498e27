import BranchIR.Proofs.Parser.NamesTaken
import BranchIR.Proofs.Parser.Onward

/-!
# Whatever comes of reading

Reading may succeed or fail. Either way, a relation between the states before and after holds of
it that is kept from token to token and by opening and closing scopes; and if it fails then never
because a bundle turns out to have more functions than were found ahead: the names taken are
always the first ones of those found.

## Key results

- `Steady.bind`, `Steady.inScope`, `Steady.listTo`: chains, scopes and lists
- `Steady.readRec`: a bundle never turns out malformed
- `Steady.exprAt`, `Steady.program`: expressions and programs
- `lasting_onward`: the tokens and the scopes after reading, also where it fails
-/

namespace BranchIR

variable {α β : Type} {C D : State → State → Prop}

/-- The error says that a bundle has more functions than were found ahead. -/
def Error.Malformed (e : Error) : Prop :=
  ∃ token, e.cause = .unexpectedAs token "malformed rec bundle"

/-- The relation is kept by moving on, and can be put together. -/
structure Moves (C : State → State → Prop) : Prop where
  refl : ∀ s, C s s
  trans : ∀ {s s₁ s'}, C s s₁ → C s₁ s' → C s s'
  next : ∀ s, C s s.next

/-- The first relation is also kept by all that is done in a scope of its own, the second one by
    binding names in the scope that is open. -/
structure Lasting (C D : State → State → Prop) : Prop where
  outer : Moves C
  inner : Moves D
  weaken : ∀ {s s'}, C s s' → D s s'
  bind : ∀ s name, D s (s.withScopes (s.scopes.bind name).2)
  leave : ∀ {s s'}, D (s.withScopes s.scopes.push) s' → C s (s'.withScopes s'.scopes.pop)

/-- The run from the state ends in one that the relation leads to. If it has failed then not for
    a malformed bundle. -/
inductive Fares (C : State → State → Prop) (s : State) : EStateM.Result Error State α → Prop
  | ok {a s'} (keeps : C s s') (ended : s'.Ended) : Fares C s (.ok a s')
  | error {e s'} (keeps : C s s') (formed : ¬ e.Malformed) : Fares C s (.error e s')

/-- The runs of the parser all end so. -/
def Steady (C : State → State → Prop) (p : Parser α) : Prop := ∀ s, s.Ended → Fares C s (p s)

/-- The relation that a run keeps may be weakened. -/
theorem Fares.mono {s : State} {r : EStateM.Result Error State α} (h : Fares C s r)
    (hCD : ∀ s', C s s' → D s s') : Fares D s r := by
  cases h with
  | ok keeps ended => exact .ok (hCD _ keeps) ended
  | error keeps formed => exact .error (hCD _ keeps) formed

/-- A run that fails in this way is not refused as malformed. -/
theorem Fares.not_malformed {s s' : State} {e : Error}
    (h : Fares C s (.error e s' : EStateM.Result Error State α)) : ¬ e.Malformed := by
  cases h with
  | error keeps formed => exact formed

/-- A chain fares when its first parser does, and the rest does on what that one has read. -/
theorem Fares.bind (hC : Moves C) {s : State} {p : Parser α} {f : α → Parser β}
    (h : Fares C s (p s))
    (hrest : ∀ a s₁, p s = .ok a s₁ → s₁.Ended → Fares C s₁ (f a s₁)) :
    Fares C s ((p >>= f) s) := by
  show Fares C s (EStateM.bind p f s)
  unfold EStateM.bind
  cases hp : p s with
  | error e s₁ =>
    rw [hp] at h
    cases h with
    | error keeps formed => exact .error keeps formed
  | ok a s₁ =>
    rw [hp] at h
    cases h with
    | ok keeps ended =>
      have hsecond := hrest a s₁ hp ended
      dsimp only
      generalize f a s₁ = r at hsecond
      cases hsecond with
      | ok keeps' ended' => exact .ok (hC.trans keeps keeps') ended'
      | error keeps' formed => exact .error (hC.trans keeps keeps') formed

/-- A run in a scope of its own keeps the outer relation, if it keeps the inner one from the new
    scope on. -/
private theorem Fares.inScope (hC : Lasting C D) {s : State} {p : Parser α}
    (h : Fares D (s.withScopes s.scopes.push) (p (s.withScopes s.scopes.push))) :
    Fares C s (Parser.inScope p s) := by
  unfold Parser.inScope
  rw [State.withScopes] at h
  generalize p { s with scopes := s.scopes.push } = r at h
  cases h with
  | ok keeps ended => exact .ok (hC.leave keeps) ended
  | error keeps formed => exact .error (hC.leave keeps) formed

namespace Steady

/-! ## Chains -/

section Chains

variable (hC : Moves C)

include hC

theorem pure (a : α) : Steady C (Pure.pure a : Parser α) := fun s hs => .ok (hC.refl s) hs

/-- A chain is steady when its first parser is, and the rest is. -/
theorem bind {p : Parser α} {f : α → Parser β} (h : Steady C p) (hrest : ∀ a, Steady C (f a)) :
    Steady C (p >>= f) := by
  intro s hs
  exact .bind hC (h s hs) fun a s₁ _ hs₁ => hrest a s₁ hs₁

theorem get : Steady C (MonadState.get : Parser State) := fun s hs => .ok (hC.refl s) hs

private theorem current : Steady C Parser.current := fun s hs => .ok (hC.refl s) hs

theorem kind : Steady C Parser.kind := fun s hs => .ok (hC.refl s) hs

theorem position : Steady C Parser.position := fun s hs => .ok (hC.refl s) hs

theorem spanFrom (start : Position) : Steady C (Parser.spanFrom start) :=
  fun s hs => .ok (hC.refl s) hs

private theorem throw {e : Error} (h : ¬ e.Malformed) : Steady C (MonadExcept.throw e : Parser α) :=
  fun s _ => .error (hC.refl s) h

/-- A token is refused where it stands, with any other message. -/
private theorem refuseToken {message : String} (h : message ≠ "malformed rec bundle") (t : Token) :
    Steady C (Parser.refuseToken t message : Parser α) := by
  refine throw hC fun ⟨token, hcause⟩ => h ?_
  exact (Cause.unexpectedAs.inj hcause).2

/-- The next token is refused where it stands, with any other message. -/
private theorem unexpected {message : String} (h : message ≠ "malformed rec bundle") :
    Steady C (Parser.unexpected message : Parser α) :=
  bind hC (current hC) fun t => refuseToken hC h t

/-- Resolving a name moves nothing, whether it is found or not. -/
theorem resolve (name : String) (use : Position) : Steady C (Parser.resolve name use) := by
  refine bind hC (get hC) fun s => ?_
  rw [Scopes.resolve]
  cases s.scopes.find? name with
  | some id => exact pure hC id
  | none => exact throw hC (by simp [Error.Malformed])

/-- Reading the number of a token moves nothing. -/
private theorem wordOf (t : Token) : Steady C (Parser.wordOf t) := by
  rw [Parser.wordOf]
  cases Text.word? t.text with
  | some n => exact pure hC n
  | none => exact throw hC (by simp [Error.Malformed])

theorem advance : Steady C Parser.advance := fun s hs => .ok (hC.next s) hs.next

/-- An expected token is moved on from before it is looked at. -/
theorem expectOr (k : Kind) {message : String} (h : message ≠ "malformed rec bundle") :
    Steady C (Parser.expectOr k message) := by
  refine bind hC (kind hC) fun k₁ => ?_
  split
  · exact advance hC
  · exact unexpected hC h

/-- An expected token is moved on from before it is looked at. -/
theorem expect (k : Kind) : Steady C (Parser.expect k) := by
  refine bind hC (current hC) fun t => ?_
  split
  · exact advance hC
  · exact throw hC (by simp [Error.Malformed])

/-- A list is steady when its items are. -/
theorem listTo {item : Parser α} (h : Steady C item) (close : Kind) :
    Steady C (Parser.listTo close item) := by
  have hitems (fuel : Nat) : Steady C (Parser.itemsBefore close item fuel) := by
    induction fuel with
    | zero => exact pure hC _
    | succ fuel ih =>
      refine bind hC (kind hC) fun k => ?_
      split
      · exact pure hC _
      · refine bind hC h fun first => bind hC (kind hC) fun k => ?_
        split
        · exact bind hC (advance hC) fun _ => bind hC ih fun _ => pure hC _
        · exact pure hC _
  refine bind hC (get hC) fun s => bind hC (hitems _) fun _ => ?_
  exact bind hC (expect hC close) fun _ => pure hC _

/-! ## Types -/

/-- Lengths are read steadily. -/
theorem readLength : Steady C TypeForm.readLength := by
  refine bind hC (expectOr hC _ (by decide)) fun t => bind hC (wordOf hC t) fun length => ?_
  refine bind hC (expectOr hC _ (by decide)) fun times => ?_
  split
  · exact pure hC _
  · exact refuseToken hC (by decide) _

/-- Every form of types is read steadily if the types in it are. -/
private theorem typeForm {sub : Parser Ty} (h : Steady C sub) (form : TypeForm) :
    Steady C (form.read sub) := by
  -- each form is a chain of steady steps, and its own errors are not those of a malformed bundle
  cases form with
  | word =>
    refine bind hC (expect hC _) fun t => ?_
    cases Ty.ofWord? t.text with
    | some ty => exact pure hC _
    | none => exact throw hC (by simp [Error.Malformed])
  | pointer => exact bind hC (advance hC) fun _ => bind hC h fun _ => pure hC _
  | vector =>
    refine bind hC (advance hC) fun _ => bind hC (readLength hC) fun length => ?_
    refine bind hC (position hC) fun start => bind hC h fun lane => ?_
    refine bind hC (expect hC _) fun _ => ?_
    cases lane.prim? with
    | some p => exact pure hC _
    | none => exact throw hC (by simp [Error.Malformed])
  | array =>
    refine bind hC (advance hC) fun _ => bind hC (readLength hC) fun length => ?_
    exact bind hC h fun _ => bind hC (expect hC _) fun _ => pure hC _
  | tuple => exact bind hC (advance hC) fun _ => bind hC (listTo hC h _) fun _ => pure hC _
  | function =>
    refine bind hC (advance hC) fun _ => bind hC (expect hC _) fun _ => ?_
    refine bind hC (listTo hC h _) fun params => bind hC (expect hC _) fun _ => ?_
    exact bind hC h fun _ => pure hC _
  | group =>
    exact bind hC (advance hC) fun _ => bind hC h fun _ => bind hC (expect hC _) fun _ => pure hC _

/-- Types are read steadily. -/
theorem ty (g : Grammar) : Steady C g.ty := by
  have hlevel (fuel : Nat) : Steady C (g.tyAt fuel) := by
    induction fuel with
    | zero => exact unexpected hC (by decide)
    | succ fuel ih =>
      refine bind hC (kind hC) fun k => ?_
      cases g.types.lookup k with
      | none => exact unexpected hC (by decide)
      | some form => exact typeForm hC ih form
  exact bind hC (get hC) fun s => hlevel _

/-! ## Paths and patterns -/

theorem readOffset : Steady C BranchIR.readOffset :=
  bind hC (expectOr hC _ (by decide)) fun t => wordOf hC t

/-- Paths are read steadily if their offsets are. -/
theorem readPath {sub : Parser (Exp Span)} (h : Steady C sub) :
    Steady C (BranchIR.readPath sub) := by
  have hsteps (fuel : Nat) : Steady C (BranchIR.readSteps sub fuel) := by
    induction fuel with
    | zero => exact pure hC _
    | succ fuel ih =>
      refine bind hC (kind hC) fun k => ?_
      split
      · exact bind hC (advance hC) fun _ => bind hC (readOffset hC) fun _ => bind hC ih fun _ =>
          pure hC _
      · exact bind hC (advance hC) fun _ => bind hC (readOffset hC) fun _ =>
          bind hC (expect hC _) fun _ => bind hC ih fun _ => pure hC _
      · exact bind hC (advance hC) fun _ => bind hC h fun _ => bind hC (expect hC _) fun _ =>
          bind hC ih fun _ => pure hC _
      · exact bind hC (advance hC) fun _ => bind hC h fun _ => bind hC ih fun _ => pure hC _
      · exact pure hC _
  exact bind hC (get hC) fun s => hsteps _

/-- Patterns are read steadily. -/
theorem readPattern : Steady C BranchIR.readPattern := by
  refine bind hC (kind hC) fun k => ?_
  split
  · exact bind hC (advance hC) fun _ => pure hC _
  · refine bind hC (advance hC) fun t => ?_
    cases Text.wideInt? t.text with
    | some value => exact pure hC _
    | none => exact throw hC (by simp [Error.Malformed])
  · exact unexpected hC (by decide)

/-- Arms are read steadily if their bodies are. -/
private theorem readArm {sub : Parser (Exp Span)} (h : Steady C sub) :
    Steady C (BranchIR.readArm sub) :=
  bind hC (readPattern hC) fun _ => bind hC (expect hC _) fun _ => bind hC h fun _ => pure hC _

end Chains

/-! ## Scopes -/

section Lasting

variable (hC : Lasting C D)

include hC

/-- A reader that keeps the first relation keeps the second. -/
private theorem weaken {p : Parser α} (h : Steady C p) : Steady D p :=
  fun s hs => (h s hs).mono fun _ => hC.weaken

theorem bindName (name : String) : Steady D (Parser.bindName name) :=
  fun s hs => .ok (hC.bind s name) hs

/-- Binding names one after the other stays in the scope that is open. -/
theorem bindNames (names : List String) : Steady D (names.mapM Parser.bindName) := by
  induction names with
  | nil =>
    rw [List.mapM_nil]
    exact pure hC.inner _
  | cons name names ih =>
    rw [List.mapM_cons]
    exact bind hC.inner (bindName hC name) fun _ => bind hC.inner ih fun _ => pure hC.inner _

theorem inScope {p : Parser α} (h : Steady D p) : Steady C (Parser.inScope p) :=
  fun s hs => (h (s.withScopes s.scopes.push) hs).inScope hC

/-! ## Bundles -/

section Bundles

variable {ty : Parser Ty} {sub : Parser (Exp Span)}

/-- A parameter is read steadily: it is bound in the scope that is open. -/
theorem readParam (hty : Steady C ty) : Steady D (BranchIR.readParam ty) := by
  have hname : Steady C BranchIR.readParamName := by
    refine bind hC.outer (expectOr hC.outer _ (by decide)) fun name => ?_
    refine bind hC.outer (get hC.outer) fun s => ?_
    split
    · refine refuseToken hC.outer (fun heq => ?_) _
      -- the messages begin with different letters
      have hfirst := congrArg (fun m : String => m.toList.head?) heq
      simp [String.toList_append] at hfirst
    · exact pure hC.outer _
  refine bind hC.inner (weaken hC hname) fun name => bind hC.inner (expect hC.inner _) fun _ => ?_
  refine bind hC.inner (weaken hC hty) fun t => bind hC.inner (spanFrom hC.inner _) fun _ => ?_
  exact bind hC.inner (bindName hC _) fun _ => pure hC.inner _

/-- A function is read steadily if its body is: its parameters are bound in a scope of its own. -/
private theorem readFunc (hty : Steady C ty) (h : Steady C sub) (id : VarId) (start : Position) :
    Steady D (BranchIR.readFunc ty sub id start) := by
  refine bind hC.inner (expect hC.inner _) fun _ => ?_
  refine bind hC.inner (listTo hC.inner (readParam hC hty) _) fun params => ?_
  refine bind hC.inner (expect hC.inner _) fun _ => bind hC.inner (weaken hC hty) fun result => ?_
  refine bind hC.inner (expect hC.inner _) fun _ => bind hC.inner (weaken hC h) fun body => ?_
  exact bind hC.inner (spanFrom hC.inner _) fun _ => pure hC.inner _

/-- Functions are read without fault as long as no more names are taken than there are
    identities. -/
private theorem readFuncs (hty : Steady C ty) (h : Steady C sub) {ids : List VarId} {s : State}
    (hs : s.Ended) (hnoted : ((noteFuncs ty sub ids).noted s).length ≤ ids.length) :
    Fares C s (BranchIR.readFuncs ty sub ids s) := by
  induction ids generalizing s with
  | nil =>
    refine .bind hC.outer (expectOr hC.outer _ (by decide) s hs) fun name s₁ hname _ => ?_
    -- a name would have been noted
    rw [noted_noteFuncs_nil (Parser.expectOr_eq_ok.1 hname).1] at hnoted
    simp at hnoted
  | cons id ids ih =>
    refine .bind hC.outer (expectOr hC.outer _ (by decide) s hs) fun name s₁ hname hs₁ => ?_
    obtain ⟨hk, rfl, rfl⟩ := Parser.expectOr_eq_ok.1 hname
    have hfunc := inScope hC (readFunc hC hty h id s.position) s.next hs₁
    refine .bind hC.outer hfunc fun func s₂ hread hs₂ => ?_
    rw [noted_noteFuncs_of_ok hk hread] at hnoted
    refine .bind hC.outer (kind hC.outer s₂ hs₂) fun k s₃ hkind _ => ?_
    obtain ⟨rfl, rfl⟩ := Parser.kind_eq_ok.1 hkind
    split
    · next hand =>
      rw [if_pos hand, List.length_cons, List.length_cons, Nat.add_le_add_iff_right] at hnoted
      refine .bind hC.outer (advance hC.outer s₂ hs₂) fun t s₃ hnext hs₃ => ?_
      obtain ⟨-, rfl⟩ := Parser.advance_eq_ok.1 hnext
      exact .bind hC.outer (ih hs₃ hnoted) fun funcs s₃ _ hs₃ => pure hC.outer _ s₃ hs₃
    · exact pure hC.outer _ s₂ hs₂

/-- A bundle is read without fault as long as no more names are taken than were found ahead. -/
private theorem readBundle (hty : Steady C ty) (h : Steady C sub) {names : List String} {s : State}
    (hs : s.Ended) (hnoted : firstRepeated? names = none →
      ((noteFuncs ty sub (List.range' s.scopes.size names.length)).noted
        (s.withScopes (s.scopes.bindAll names))).length ≤ names.length) :
    Fares D s (BranchIR.readBundle ty sub names s) := by
  unfold BranchIR.readBundle
  cases hdistinct : firstRepeated? names with
  | some name =>
    refine unexpected hC.inner (fun heq => ?_) s hs
    -- the messages begin with different letters
    have hfirst := congrArg (fun m : String => m.toList.head?) heq
    simp [String.toList_append] at hfirst
  | none =>
    refine .bind hC.inner (bindNames hC names s hs) fun ids s₁ hids hs₁ => ?_
    rw [mapM_bindName] at hids
    cases hids
    have hfuncs := @readFuncs _ _ hC _ _ hty h (List.range' s.scopes.size names.length) _ hs₁
      (by rw [List.length_range']; exact hnoted hdistinct)
    refine .bind hC.inner (hfuncs.mono fun _ => hC.weaken) fun funcs s₂ _ hs₂ => ?_
    refine bind hC.inner (expect hC.inner _) (fun _ => ?_) s₂ hs₂
    exact bind hC.inner (weaken hC h) fun _ => pure hC.inner _

/-- A bundle never turns out malformed. -/
theorem readRec (h : Steady C sub) (hsound : Sound sub Reads) {s : State} (hs : s.Ended)
    (hk : s.current.kind = .recWord) :
    Fares C s (OpeningForm.readRec Grammar.full.ty sub s) := by
  refine .bind hC.outer (get hC.outer s hs) fun s₀ _ hget _ => ?_
  obtain ⟨rfl, rfl⟩ := Parser.get_eq_ok.1 hget
  refine .bind hC.outer (advance hC.outer s hs) fun t s₁ hnext hs₁ => ?_
  obtain ⟨rfl, rfl⟩ := Parser.advance_eq_ok.1 hnext
  have hbundle : Fares D (s.next.withScopes s.next.scopes.push)
      (BranchIR.readBundle Grammar.full.ty sub (s.bundleNames.map (·.text))
        (s.next.withScopes s.next.scopes.push)) := by
    refine readBundle hC (ty hC.outer _) h hs₁ fun hdistinct => ?_
    -- the names taken are the first ones of those found
    have hprefix := (noteRec_takes_first hsound hs hk).length_le
    rw [noted_noteRec, if_pos hdistinct] at hprefix
    simpa [State.bundleScopes] using hprefix
  refine .bind hC.outer (hbundle.inScope hC) ?_
  rintro ⟨funcs, body⟩ s₁ - hs₁
  exact bind hC.outer (spanFrom hC.outer _) (fun _ => pure hC.outer _) s₁ hs₁

end Bundles

end Lasting

/-! ## Forms -/

section Forms

variable {sub : Parser (Exp Span)}

section Moves

variable (hC : Moves C)

include hC

/-- Atoms are read steadily. -/
private theorem readAtom : Steady C OpeningForm.readAtom := by
  refine bind hC (kind hC) fun k => ?_
  split
  · refine bind hC (advance hC) fun t => ?_
    cases literal? t.text with
    | some literal => exact pure hC _
    | none => exact throw hC (by simp [Error.Malformed])
  · exact bind hC (advance hC) fun t => bind hC (resolve hC _ _) fun _ => pure hC _
  · exact unexpected hC (by decide)

variable (h : Steady C sub)

include h

/-- A base and a path are read steadily. -/
private theorem readBased : Steady C (OpeningForm.readBased sub) :=
  bind hC (expect hC _) fun _ => bind hC h fun _ => bind hC (readPath hC h) fun _ =>
    bind hC (expect hC _) fun _ => pure hC _

private theorem readCase : Steady C (OpeningForm.readCase sub) :=
  bind hC (advance hC) fun _ => bind hC h fun _ => bind hC (expect hC _) fun _ =>
    bind hC (listTo hC (readArm hC h) _) fun _ => bind hC (spanFrom hC _) fun _ => pure hC _

private theorem readStore : Steady C (OpeningForm.readStore sub) :=
  bind hC (advance hC) fun _ => bind hC h fun _ => bind hC (readPath hC h) fun _ =>
    bind hC (expect hC _) fun _ => bind hC h fun _ => bind hC (expect hC _) fun _ =>
      bind hC h fun _ => bind hC (spanFrom hC _) fun _ => pure hC _

private theorem readUpdate : Steady C (OpeningForm.readUpdate sub) :=
  bind hC (advance hC) fun _ => bind hC (expect hC _) fun _ => bind hC h fun _ =>
    bind hC (readPath hC h) fun _ => bind hC (expect hC _) fun _ => bind hC h fun _ =>
      bind hC (expect hC _) fun _ => bind hC (spanFrom hC _) fun _ => pure hC _

/-- Every trailing form is read steadily. -/
private theorem trailingForm (g : Grammar) (form : TrailingForm) (left : Exp Span) :
    Steady C (form.read g.ty sub left) := by
  cases form with
  | ascription | coercion =>
    exact bind hC (advance hC) fun _ => bind hC (ty hC g) fun _ => bind hC (spanFrom hC _) fun _ =>
      pure hC _
  | call =>
    exact bind hC (advance hC) fun _ => bind hC (listTo hC h _) fun _ =>
      bind hC (spanFrom hC _) fun _ => pure hC _

/-- Trailing forms are read steadily, one after the other. -/
private theorem trail (g : Grammar) (fuel : Nat) (left : Exp Span) :
    Steady C (g.trail sub fuel left) := by
  induction fuel generalizing left with
  | zero => exact pure hC left
  | succ fuel ih =>
    refine bind hC (kind hC) fun k => ?_
    cases g.trailing.lookup k with
    | none => exact pure hC left
    | some form => exact bind hC (trailingForm hC h g form left) fun e => ih e

end Moves

section Lasting

variable (hC : Lasting C D) (h : Steady C sub)

include hC h

/-- A let is read steadily: the name is bound in a scope of its own. -/
private theorem readLet (g : Grammar) : Steady C (OpeningForm.readLet g.ty sub) := by
  have hM := hC.outer
  refine bind hM (advance hM) fun start => bind hM (expectOr hM _ (by decide)) fun name => ?_
  refine bind hM (expect hM _) fun _ => bind hM (ty hM g) fun t => bind hM (expect hM _) fun _ => ?_
  refine bind hM h fun value => bind hM (expect hM _) fun _ => ?_
  have hbody : Steady C (Parser.inScope do
      let id ← Parser.bindName name.text
      return (id, ← sub)) :=
    inScope hC (bind hC.inner (bindName hC _) fun _ => bind hC.inner (weaken hC h) fun _ =>
      pure hC.inner _)
  exact bind hM hbody fun _ => bind hM (spanFrom hM _) fun _ => pure hM _

variable (hsound : Sound sub Reads)

include hsound

/-- Every opening form is read steadily where it is chosen: a bundle has its names ahead, and is not
    malformed. -/
private theorem openingForm {form : OpeningForm} {s : State} (hs : s.Ended)
    (hk : s.current.kind ∈ form.kinds) : Fares C s (form.read Grammar.full.ty sub s) := by
  have hM := hC.outer
  cases form with
  | recIn => exact readRec hC h hsound hs (List.mem_singleton.1 hk)
  | atom => exact readAtom hM s hs
  | group =>
    exact bind hM (advance hM) (fun _ => bind hM h fun _ => bind hM (expect hM _) fun _ =>
      pure hM _) s hs
  | tuple | vector =>
    exact bind hM (advance hM) (fun _ => bind hM (listTo hM h _) fun _ =>
      bind hM (spanFrom hM _) fun _ => pure hM _) s hs
  | prim =>
    exact bind hM (advance hM) (fun _ => bind hM (expect hM _) fun _ =>
      bind hM (listTo hM h _) fun _ => bind hM (spanFrom hM _) fun _ => pure hM _) s hs
  | letIn => exact readLet hC h Grammar.full s hs
  | caseOf => exact readCase hM h s hs
  | gep | load =>
    exact bind hM (advance hM) (fun _ => bind hM (readBased hM h) fun _ =>
      bind hM (spanFrom hM _) fun _ => pure hM _) s hs
  | store => exact readStore hM h s hs
  | update => exact readUpdate hM h s hs

/-- Heads are read steadily. -/
private theorem head : Steady C (Grammar.full.head sub) := by
  intro s hs
  refine .bind hC.outer (kind hC.outer s hs) fun k s₁ hkind _ => ?_
  obtain ⟨rfl, rfl⟩ := Parser.kind_eq_ok.1 hkind
  cases hform : Grammar.full.opening.lookup s.current.kind with
  | none => exact unexpected hC.outer (by decide) s hs
  | some form => exact openingForm hC h hsound hs (OpeningForm.mem_kinds_of_lookup hform)

end Lasting

end Forms

/-! ## Expressions -/

section Expressions

variable (hC : Lasting C D)

include hC

/-- Expressions are read steadily at every depth. -/
theorem exprAt (fuel : Nat) (bp : BindingPower) : Steady C (Grammar.full.exprAt fuel bp) := by
  induction fuel generalizing bp with
  | zero => exact unexpected hC.outer (by decide)
  | succ fuel ih =>
    have hhead := head hC (ih .loose) (exprAt_sound fuel .loose)
    cases bp with
    | trailing => exact hhead
    | loose =>
      refine bind hC.outer hhead fun first => bind hC.outer (get hC.outer) fun s => ?_
      exact trail hC.outer (ih .loose) Grammar.full _ first

/-- Programs are read steadily. -/
theorem program : Steady C Grammar.full.program := by
  have hexpr : Steady C (Grammar.full.expr .loose) :=
    bind hC.outer (get hC.outer) fun s => exprAt hC _ _
  refine bind hC.outer hexpr fun e => bind hC.outer (kind hC.outer) fun k => ?_
  split
  · exact pure hC.outer e
  · exact unexpected hC.outer (by decide)

end Expressions

end Steady

/-! ## The tokens and the scopes -/

/-- The tokens are the same, and so are the scopes around the one that is open. -/
structure Within (s s' : State) : Prop where
  tokens : s'.tokens = s.tokens
  outer : s'.scopes.outer = s.scopes.outer
  names : s.scopes.names.toList <+: s'.scopes.names.toList

private theorem Onward.within {s s' : State} (h : Onward s s') : Within s s' :=
  ⟨h.tokens, h.scopes.outer, h.scopes.names⟩

/-- Whatever comes of reading, the tokens are the same and the scopes that were open before are
    open after it. -/
theorem lasting_onward : Lasting Onward Within where
  outer := ⟨along_onward.refl, along_onward.trans, fun s => ⟨s.tokens_next, .of_eq s.scopes_next⟩⟩
  inner :=
    ⟨fun _ => ⟨rfl, rfl, List.prefix_refl _⟩,
      fun h h' => ⟨h'.tokens.trans h.tokens, h'.outer.trans h.outer, h.names.trans h'.names⟩,
      fun s => (Onward.mk s.tokens_next (.of_eq s.scopes_next)).within⟩
  weaken := Onward.within
  bind _ _ := ⟨rfl, rfl, by simp [Scopes.bind]⟩
  leave {s s'} h := by
    obtain ⟨htokens, houter, hnames⟩ := h
    -- around the scope that is closed stand those from before
    rw [State.scopes_withScopes, Scopes.push] at houter
    refine ⟨htokens, ?_⟩
    rw [State.scopes_withScopes, Scopes.pop, houter]
    exact ⟨rfl, rfl, hnames⟩

end BranchIR
