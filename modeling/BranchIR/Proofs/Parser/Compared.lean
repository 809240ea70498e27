import BranchIR.Exp.Parser
import BranchIR.Proofs.Exp.MapAnn
import BranchIR.Proofs.Parser.InStep

/-!
# All readers run in step

No reader decides anything by a span, and a name only counts as far as it is the same as another
one. So from states that are alike every reader reads the same types, trees with the same
identities and, as far as they are compared, the same spans, or fails at matching tokens.
-/

namespace BranchIR

open Exp

variable {c : Comparison}

namespace InStep

/-! ## Types -/

section Types

variable {sub : Parser Ty}

/-- A type word is read in step, since no type word is renamed. -/
private theorem readWord : InStep c Eq TypeForm.readWord TypeForm.readWord := by
  refine .bind (.expect _) fun t t' ht => ?_
  rw [ht.ofWord?_eq]
  cases Ty.ofWord? t.text with
  | some ty => exact .pure rfl
  | none => exact .throw (.of_text (fun _ _ => rfl) ht.sameText) ht.firsts

/-- A length is read in step: the number is the same, and so is the `x` after it. -/
private theorem readLength : InStep c Eq TypeForm.readLength TypeForm.readLength := by
  refine .bind (.expectOr _ _) fun t t' ht => .bind (.wordOf ht (by decide)) fun n _ hn => ?_
  subst hn
  refine .bind (.expectOr _ _) fun times times' htimes => ?_
  simp only [htimes.eq_times_iff]
  split
  · exact .pure rfl
  · exact .refuseToken htimes.toMatches (.inl rfl)

/-- A vector type is read in step if the type of its lanes is. -/
private theorem readVector (h : InStep c Eq sub sub) :
    InStep c Eq (TypeForm.readVector sub) (TypeForm.readVector sub) := by
  refine .bind .advance fun _ _ _ => .bind readLength fun length _ hlength => ?_
  subst hlength
  -- the only place that is not that of a token just read: where the lane begins
  refine .bind .position fun start start' hstart => .bind h fun lane _ hlane => ?_
  subst hlane
  refine .bind (.expect _) fun _ _ _ => ?_
  cases lane.prim? with
  | some p => exact .pure rfl
  | none => exact .throw (.inl rfl) hstart

/-- Types in a list are read in step if each of them is. -/
private theorem tys (h : InStep c Eq sub sub) (close : Kind) :
    InStep c Eq (Parser.listTo close sub) (Parser.listTo close sub) := by
  have hlist : InStep c (Same (List.map id)) (Parser.listTo close sub) (Parser.listTo close sub) :=
    .listTo h
  exact hlist.mono fun _ _ hsame => by simpa [Same] using hsame

/-- Every form of types is read in step if the types in it are. -/
private theorem typeForm (h : InStep c Eq sub sub) (form : TypeForm) :
    InStep c Eq (form.read sub) (form.read sub) := by
  cases form with
  | word => exact readWord
  | pointer => exact .bind .advance fun _ _ _ => .bind h fun _ _ hty => .pure (congrArg _ hty)
  | vector => exact readVector h
  | array =>
    refine .bind .advance fun _ _ _ => .bind readLength fun length _ hlength => ?_
    subst hlength
    exact .bind h fun _ _ hty => .bind (.expect _) fun _ _ _ => .pure (congrArg _ hty)
  | tuple =>
    exact .bind .advance fun _ _ _ => .bind (tys h _) fun _ _ htys => .pure (congrArg _ htys)
  | function =>
    refine .bind .advance fun _ _ _ => .bind (.expect _) fun _ _ _ => ?_
    refine .bind (tys h _) fun params _ hparams => ?_
    subst hparams
    exact .bind (.expect _) fun _ _ _ => .bind h fun _ _ hty => .pure (congrArg _ hty)
  | group =>
    refine .bind .advance fun _ _ _ => .bind h fun _ _ hty => ?_
    exact .bind (.expect _) fun _ _ _ => .pure hty

/-- Types are read in step at every depth. -/
private theorem tyAt (g : Grammar) (fuel : Nat) : InStep c Eq (g.tyAt fuel) (g.tyAt fuel) := by
  induction fuel with
  | zero => exact .unexpected (.inl rfl)
  | succ fuel ih =>
    refine .bind .kind fun k _ hk => ?_
    subst hk
    cases g.types.lookup k with
    | none => exact .unexpected (.inl rfl)
    | some form => exact typeForm ih form

/-- Types are read in step. -/
theorem ty (g : Grammar) : InStep c Eq g.ty g.ty := by
  refine .bind .get fun s s' hs => ?_
  rw [hs.remaining_eq]
  exact tyAt g _

end Types

/-! ## Parts of expressions -/

section Parts

variable {sub : Parser (Exp Span)} {tyParser : Parser Ty}

private theorem readOffset : InStep c Eq BranchIR.readOffset BranchIR.readOffset :=
  .bind (.expectOr _ _) fun _ _ ht => .wordOf ht (by decide)

/-- Paths are read in step: which step comes next is told by kinds alone. -/
private theorem readSteps (h : InStep c (Same (mapAnn c.span)) sub sub) (fuel : Nat) :
    InStep c (Same (List.map (Step.map (mapAnn c.span)))) (BranchIR.readSteps sub fuel)
      (BranchIR.readSteps sub fuel) := by
  induction fuel with
  | zero => exact .pure rfl
  | succ fuel ih =>
    refine .bind .kind fun k _ hk => ?_
    subst hk
    -- both runs see the same kind of token and read the same kind of step
    split
    · refine .bind .advance fun _ _ _ => .bind readOffset fun n _ hn => ?_
      subst hn
      refine .bind ih fun _ _ hpath => .pure ?_
      exact congrArg (List.cons (.field n)) hpath
    · refine .bind .advance fun _ _ _ => .bind readOffset fun n _ hn => ?_
      subst hn
      refine .bind (.expect _) fun _ _ _ => .bind ih fun _ _ hpath => .pure ?_
      exact congrArg (List.cons (.element n)) hpath
    · refine .bind .advance fun _ _ _ => .bind h fun e e' he => .bind (.expect _) fun _ _ _ => ?_
      refine .bind ih fun path path' hpath => .pure ?_
      simp only [Same, List.map_cons, Step.map] at he hpath ⊢
      rw [he, hpath]
    · refine .bind .advance fun _ _ _ => .bind h fun e e' he => ?_
      refine .bind ih fun path path' hpath => .pure ?_
      simp only [Same, List.map_cons, Step.map] at he hpath ⊢
      rw [he, hpath]
    · exact .pure rfl

/-- A path is read in step, however many tokens are left in the two runs. -/
private theorem readPath (h : InStep c (Same (mapAnn c.span)) sub sub) :
    InStep c (Same (List.map (Step.map (mapAnn c.span)))) (BranchIR.readPath sub)
      (BranchIR.readPath sub) := by
  refine .bind .get fun s s' hs => ?_
  rw [hs.remaining_eq]
  exact readSteps h _

/-- Patterns are read in step, since numbers are not renamed. -/
private theorem readPattern : InStep c Eq BranchIR.readPattern BranchIR.readPattern := by
  refine .kindThen fun k => ?_
  split
  · exact atKind (.bind .advance fun _ _ _ => .pure rfl)
  · refine .advanceThen fun t t' ht => ?_
    rw [ht.text_eq (by decide)]
    cases Text.wideInt? t.text with
    | some value => exact .pure rfl
    | none => exact .throw (.inl rfl) ht.firsts
  · exact atKind (.unexpected (.inl rfl))

/-- An arm is read in step if its body is. -/
private theorem readArm (h : InStep c (Same (mapAnn c.span)) sub sub) :
    InStep c (Same (Arm.map (mapAnn c.span))) (BranchIR.readArm sub) (BranchIR.readArm sub) := by
  refine .bind readPattern fun pattern _ hpattern => .bind (.expect _) fun _ _ _ => ?_
  subst hpattern
  exact .bind h fun _ _ he => .pure (congrArg (Arm.mk pattern) he)

/-! ## Bundles -/

/-- The name of a parameter is an identifier in both runs. -/
private theorem readParamName :
    InStep c (Token.MatchesAs c .identifier) BranchIR.readParamName BranchIR.readParamName := by
  refine .bind (.expectOr _ _) fun t t' ht => .bind .get fun s s' hs => ?_
  rw [ht.name_eq, hs.scopes, Scopes.bindsHere_rename c.rename_injective]
  split
  · exact .refuseToken ht.toMatches
      (Comparison.sameText_rename (fun name => "parameter `" ++ name ++ "` declared twice") _)
  · exact .pure ht

/-- A parameter is read in step: its name is bound under the new name. -/
private theorem readParam (hty : InStep c Eq tyParser tyParser) :
    InStep c (Same (Param.map c.span)) (BranchIR.readParam tyParser)
      (BranchIR.readParam tyParser) := by
  refine .bind readParamName fun name name' hname => .bind (.expect _) fun _ _ _ => ?_
  rw [hname.name_eq]
  refine .bind hty fun t _ ht => .bind (.spanFrom hname.samePlace) fun span span' hspan => ?_
  refine .bind (.bindName hname.named) fun id _ hid => .pure ?_
  subst ht hid
  simp only [Same, Param.map] at hspan ⊢
  rw [hspan]

/-- A function is read in step, in a scope of its own. -/
private theorem readFunc (hty : InStep c Eq tyParser tyParser)
    (h : InStep c (Same (mapAnn c.span)) sub sub) (id : VarId) {start start' : Position}
    (hstart : c.SamePlace start start') :
    InStep c (Same (Func.map c.span (mapAnn c.span))) (BranchIR.readFunc tyParser sub id start)
      (BranchIR.readFunc tyParser sub id start') := by
  refine .bind (.expect _) fun _ _ _ => .bind (.listTo (readParam hty)) fun ps ps' hps => ?_
  refine .bind (.expect _) fun _ _ _ => .bind hty fun result _ hresult => ?_
  subst hresult
  refine .bind (.expect _) fun _ _ _ => .bind h fun e e' he => ?_
  refine .bind (.spanFrom hstart) fun span span' hspan => .pure ?_
  simp only [Same, Func.map] at hps he hspan ⊢
  rw [hps, he, hspan]

/-- Further functions are read in step, as many as there are identities for. -/
private theorem readFuncs (hty : InStep c Eq tyParser tyParser)
    (h : InStep c (Same (mapAnn c.span)) sub sub) (ids : List VarId) :
    InStep c (Same (List.map (Func.map c.span (mapAnn c.span))))
      (BranchIR.readFuncs tyParser sub ids) (BranchIR.readFuncs tyParser sub ids) := by
  induction ids with
  | nil => exact .bind (.expectOr _ _) fun _ _ _ => .unexpected (.inl rfl)
  | cons id ids ih =>
    refine .bind (.expectOr _ _) fun name name' hname => ?_
    refine .bind (.inScope (readFunc hty h id hname.samePlace)) fun f f' hf => ?_
    refine .bind .kind fun k _ hk => ?_
    subst hk
    have hhead : f.map c.span (mapAnn c.span) = f'.map c.span (mapAnn c.span) := hf
    split
    · refine .bind .advance fun _ _ _ => .bind ih fun fs fs' hfs => .pure ?_
      simp only [Same, List.map_cons] at hfs ⊢
      rw [hhead, hfs]
    · exact .pure (congrArg (fun func => [func]) hhead)

/-- Binding names one after the other is in step with binding the new names. -/
private theorem mapM_bindName {names : List String} (h : ∀ name ∈ names, c.Named name) :
    InStep c Eq (names.mapM Parser.bindName) ((names.map c.rename).mapM Parser.bindName) := by
  induction names with
  | nil =>
    rw [List.map_nil, List.mapM_nil]
    exact .pure rfl
  | cons name names ih =>
    obtain ⟨hname, hnames⟩ := List.forall_mem_cons.1 h
    rw [List.map_cons, List.mapM_cons, List.mapM_cons]
    refine .bind (.bindName hname) fun id _ hid => .bind (ih hnames) fun ids _ hids => ?_
    subst hid hids
    exact .pure rfl

/-- Functions and the expression after them, with what counts of their spans. -/
private abbrev bundleShape (c : Comparison) (b : List (Func Span (Exp Span)) × Exp Span) :=
  (b.1.map (Func.map c.span (mapAnn c.span)), b.2.mapAnn c.span)

/-- A bundle is read in step if its names are bound under the new names. -/
private theorem readBundle (hty : InStep c Eq tyParser tyParser)
    (h : InStep c (Same (mapAnn c.span)) sub sub) {names : List String}
    (hnames : ∀ name ∈ names, c.Named name) :
    InStep c (Same (bundleShape c)) (BranchIR.readBundle tyParser sub names)
      (BranchIR.readBundle tyParser sub (names.map c.rename)) := by
  unfold BranchIR.readBundle
  rw [firstRepeated?_map c.rename_injective]
  cases firstRepeated? names with
  | some name =>
    exact .unexpected (Comparison.sameText_rename
      (fun name => "function `" ++ name ++ "` defined twice in one rec bundle") name)
  | none =>
    refine .bind (mapM_bindName hnames) fun ids _ hids => ?_
    subst hids
    refine .bind (readFuncs hty h ids) fun fs fs' hfs => .bind (.expect _) fun _ _ _ => ?_
    exact .bind h fun e e' he => .pure (Prod.ext hfs he)

/-! ## Looking ahead -/

/-- A token that names a function names it in both runs. -/
private theorem identifier?_matches {ts ts' : List Token}
    (h : List.Forall₂ (Token.Matches c) ts ts') :
    List.Forall₂ (Token.MatchesAs c .identifier) (State.identifier? ts.head?)
      (State.identifier? ts'.head?) := by
  cases h with
  | nil => exact .nil
  | @cons t t' _ _ ht _ =>
    by_cases hk : t.kind = .identifier
    · have hk' : t'.kind = .identifier := ht.kind ▸ hk
      simpa [State.identifier?, Option.filter, hk, hk'] using Token.MatchesAs.mk ht hk
    · have hk' : t'.kind ≠ .identifier := ht.kind ▸ hk
      simp [State.identifier?, Option.filter, hk, hk']

/-- The look-ahead goes by kinds, and finds matching names. -/
private theorem laterNames_matches {ts ts' : List Token}
    (h : List.Forall₂ (Token.Matches c) ts ts') (depth : Nat) :
    List.Forall₂ (Token.MatchesAs c .identifier) (State.laterNames depth ts)
      (State.laterNames depth ts') := by
  induction h generalizing depth with
  | nil => exact .nil
  | cons ht hts ih =>
    rw [State.laterNames.eq_def, State.laterNames.eq_def]
    dsimp only
    rw [ht.kind]
    split
    · exact ih _
    · exact ih _
    · exact ih _
    · cases depth with
      | zero => exact .nil
      | succ depth => exact ih depth
    · cases depth with
      | zero => exact List.rel_append (identifier?_matches hts) (ih 0)
      | succ depth => exact ih _
    · exact .nil
    · exact ih depth

/-- The names that stand ahead are those of the other run, renamed. -/
private theorem bundleNames_matches {s s' : State} (h : State.Alike c s s') :
    List.Forall₂ (Token.MatchesAs c .identifier) s.bundleNames s'.bundleNames :=
  List.rel_append (identifier?_matches h.after) (laterNames_matches h.after 0)

/-- Tokens that match as identifiers have texts that are renamed. -/
private theorem texts_of_matches {ts ts' : List Token}
    (h : List.Forall₂ (Token.MatchesAs c .identifier) ts ts') :
    ts'.map (·.text) = (ts.map (·.text)).map c.rename ∧ ∀ name ∈ ts.map (·.text), c.Named name := by
  induction h with
  | nil => exact ⟨rfl, by simp⟩
  | cons ht _ ih =>
    exact ⟨List.cons_eq_cons.2 ⟨ht.name_eq, ih.1⟩, List.forall_mem_cons.2 ⟨ht.named, ih.2⟩⟩

/-! ## Forms of expressions -/

/-- Trees that are the same up to what is compared begin at the same place, as far as places are
    compared. -/
private theorem samePlace_of_mapAnn {e e' : Exp Span} (h : e.mapAnn c.span = e'.mapAnn c.span) :
    c.SamePlace e.ann.first e'.ann.first := by
  have hann := congrArg Exp.ann h
  rw [ann_mapAnn, ann_mapAnn] at hann
  exact fun hspans => congrArg Span.first (Comparison.span_eq_iff.1 hann hspans)

/-- A literal, a variable or an expression in parentheses is read in step. -/
private theorem readAtom :
    InStep c (Same (mapAnn c.span)) OpeningForm.readAtom OpeningForm.readAtom := by
  refine .kindThen fun k => ?_
  split
  · refine .advanceThen fun t t' ht => ?_
    rw [ht.text_eq (by decide)]
    cases literal? t.text with
    | some literal => exact .pure (by simp [Same, ht.span])
    | none => exact .throw (.inl rfl) ht.firsts
  · refine .advanceThen fun t t' ht => .bind (.resolve ht) fun id _ hid => ?_
    subst hid
    exact .pure (by simp [Same, ht.span])
  · exact atKind (.unexpected (.inl rfl))

/-- A base and its path, with what counts of their spans. -/
private abbrev basedShape (c : Comparison) (b : Exp Span × List (Step (Exp Span))) :=
  (b.1.mapAnn c.span, b.2.map (Step.map (mapAnn c.span)))

/-- A base and a path in parentheses are read in step. -/
private theorem readBased (h : InStep c (Same (mapAnn c.span)) sub sub) :
    InStep c (Same (basedShape c)) (OpeningForm.readBased sub) (OpeningForm.readBased sub) := by
  refine .bind (.expect _) fun _ _ _ => .bind h fun e e' he => ?_
  refine .bind (readPath h) fun path path' hpath => .bind (.expect _) fun _ _ _ => ?_
  exact .pure (Prod.ext he hpath)

/-- A let is read in step: its name is bound in both runs before the body is read. -/
private theorem readLet (hty : InStep c Eq tyParser tyParser)
    (h : InStep c (Same (mapAnn c.span)) sub sub) :
    InStep c (Same (mapAnn c.span)) (OpeningForm.readLet tyParser sub)
      (OpeningForm.readLet tyParser sub) := by
  refine .bind .advance fun t t' ht => .bind (.expectOr _ _) fun name name' hname => ?_
  rw [hname.name_eq]
  refine .bind (.expect _) fun _ _ _ => .bind hty fun ty _ hty => .bind (.expect _) fun _ _ _ => ?_
  subst hty
  refine .bind h fun value value' hvalue => .bind (.expect _) fun _ _ _ => ?_
  have hbody : InStep c (Same fun b : VarId × Exp Span => (b.1, b.2.mapAnn c.span))
      (Parser.inScope do
        let id ← Parser.bindName name.text
        return (id, ← sub))
      (Parser.inScope do
        let id ← Parser.bindName (c.rename name.text)
        return (id, ← sub)) := by
    refine .inScope (.bind (.bindName hname.named) fun id _ hid => ?_)
    subst hid
    exact .bind h fun _ _ he => .pure (Prod.ext rfl he)
  refine .bind hbody fun b b' hb => .bind (.spanFrom ht.samePlace) fun _ _ hspan => .pure ?_
  obtain ⟨hid, hbody⟩ := Prod.mk.inj hb
  simp only [Same] at hvalue hspan
  simp [Same, hid, hbody, hvalue, hspan]

/-- A bundle is read in step: the names ahead are distinct in both runs or in neither. -/
private theorem readRec (hty : InStep c Eq tyParser tyParser)
    (h : InStep c (Same (mapAnn c.span)) sub sub) :
    InStep c (Same (mapAnn c.span)) (OpeningForm.readRec tyParser sub)
      (OpeningForm.readRec tyParser sub) := by
  refine .bind .get fun s s' hs => .bind .advance fun t t' ht => ?_
  obtain ⟨htexts, hnamed⟩ := texts_of_matches (bundleNames_matches hs)
  rw [htexts]
  refine .bind (.inScope (readBundle hty h hnamed)) fun b b' hb => ?_
  refine .bind (.spanFrom ht.samePlace) fun _ _ hspan => .pure ?_
  obtain ⟨hfs, hbody⟩ := Prod.mk.inj hb
  simp only [Same] at hspan
  simp [Same, hfs, hbody, hspan]

/-- A case is read in step if its parts are. -/
private theorem readCase (h : InStep c (Same (mapAnn c.span)) sub sub) :
    InStep c (Same (mapAnn c.span)) (OpeningForm.readCase sub) (OpeningForm.readCase sub) := by
  refine .bind .advance fun t t' ht => .bind h fun e e' he => .bind (.expect _) fun _ _ _ => ?_
  refine .bind (.listTo (readArm h)) fun arms arms' harms => ?_
  refine .bind (.spanFrom ht.samePlace) fun _ _ hspan => .pure ?_
  simp only [Same] at he harms hspan
  simp [Same, he, harms, hspan]

/-- A store is read in step if its parts are. -/
private theorem readStore (h : InStep c (Same (mapAnn c.span)) sub sub) :
    InStep c (Same (mapAnn c.span)) (OpeningForm.readStore sub) (OpeningForm.readStore sub) := by
  refine .bind .advance fun t t' ht => .bind h fun dest dest' hdest => ?_
  refine .bind (readPath h) fun path path' hpath => .bind (.expect _) fun _ _ _ => ?_
  refine .bind h fun value value' hvalue => .bind (.expect _) fun _ _ _ => ?_
  refine .bind h fun body body' hbody => .bind (.spanFrom ht.samePlace) fun _ _ hspan => .pure ?_
  simp only [Same] at hdest hpath hvalue hbody hspan
  simp [Same, hdest, hpath, hvalue, hbody, hspan]

/-- An update is read in step if its parts are. -/
private theorem readUpdate (h : InStep c (Same (mapAnn c.span)) sub sub) :
    InStep c (Same (mapAnn c.span)) (OpeningForm.readUpdate sub) (OpeningForm.readUpdate sub) := by
  refine .bind .advance fun t t' ht => .bind (.expect _) fun _ _ _ => ?_
  refine .bind h fun base base' hbase => .bind (readPath h) fun path path' hpath => ?_
  refine .bind (.expect _) fun _ _ _ => ?_
  refine .bind h fun value value' hvalue => .bind (.expect _) fun _ _ _ => ?_
  refine .bind (.spanFrom ht.samePlace) fun _ _ hspan => .pure ?_
  simp only [Same] at hbase hpath hvalue hspan
  simp [Same, hbase, hpath, hvalue, hspan]

/-- The word of an operation is no identifier, so it is the same in both runs. -/
private theorem openingForm (hty : InStep c Eq tyParser tyParser)
    (h : InStep c (Same (mapAnn c.span)) sub sub) {k : Kind} {form : OpeningForm}
    (hprim : form = .prim → k ≠ .identifier) :
    InStepAt c k (Same (mapAnn c.span)) (form.read tyParser sub) (form.read tyParser sub) := by
  -- the two runs take tokens of the same kind, so they take the same branches
  cases form with
  | atom => exact atKind readAtom
  | group =>
    exact atKind (.bind .advance fun _ _ _ => .bind h fun _ _ he => .bind (.expect _) fun _ _ _ =>
      .pure he)
  | tuple | vector =>
    refine atKind (.bind .advance fun t t' ht => .bind (.listTo h) fun es es' hes => ?_)
    refine .bind (.spanFrom ht.samePlace) fun _ _ hspan => .pure ?_
    simp only [Same] at hes hspan
    simp [Same, hes, hspan]
  | prim =>
    refine .advanceThen fun t t' ht => .bind (.expect _) fun _ _ _ => ?_
    refine .bind (.listTo h) fun es es' hes => ?_
    refine .bind (.spanFrom ht.samePlace) fun _ _ hspan => .pure ?_
    simp only [Same] at hes hspan
    -- the word of an operation is no identifier, so its text is the same, too
    simp [Same, hes, hspan, ht.text_eq (hprim rfl)]
  | letIn => exact atKind (readLet hty h)
  | recIn => exact atKind (readRec hty h)
  | caseOf => exact atKind (readCase h)
  | gep | load =>
    refine atKind (.bind .advance fun t t' ht => .bind (readBased h) fun b b' hb => ?_)
    refine .bind (.spanFrom ht.samePlace) fun _ _ hspan => .pure ?_
    obtain ⟨hbase, hpath⟩ := Prod.mk.inj hb
    simp only [Same] at hspan
    simp [Same, hbase, hpath, hspan]
  | store => exact atKind (readStore h)
  | update => exact atKind (readUpdate h)

/-- A trailing form is read in step if what stands left of it is the same. -/
private theorem trailingForm (hty : InStep c Eq tyParser tyParser)
    (h : InStep c (Same (mapAnn c.span)) sub sub) {left left' : Exp Span}
    (hleft : left.mapAnn c.span = left'.mapAnn c.span) (form : TrailingForm) :
    InStep c (Same (mapAnn c.span)) (form.read tyParser sub left)
      (form.read tyParser sub left') := by
  have hplace := samePlace_of_mapAnn hleft
  cases form with
  | ascription | coercion =>
    refine .bind .advance fun _ _ _ => .bind hty fun ty _ hty => ?_
    subst hty
    refine .bind (.spanFrom hplace) fun _ _ hspan => .pure ?_
    simp only [Same] at hspan
    simp [Same, hleft, hspan]
  | call =>
    refine .bind .advance fun _ _ _ => .bind (.listTo h) fun es es' hes => ?_
    refine .bind (.spanFrom hplace) fun _ _ hspan => .pure ?_
    simp only [Same] at hes hspan
    simp [Same, hleft, hes, hspan]

end Parts

/-! ## Expressions -/

section Expressions

variable {g : Grammar} {sub : Parser (Exp Span)}

/-- The head of an expression is read in step: which form it has is told by a kind. -/
private theorem head (hg : g.opening.lookup .identifier ≠ some .prim)
    (h : InStep c (Same (mapAnn c.span)) sub sub) :
    InStep c (Same (mapAnn c.span)) (g.head sub) (g.head sub) := by
  refine .kindThen fun k => ?_
  cases hform : g.opening.lookup k with
  | none => exact atKind (.unexpected (.inl rfl))
  | some form =>
    refine openingForm (ty g) h ?_
    rintro rfl rfl
    exact hg hform

/-- Trailing forms are read in step as long as there are some. -/
private theorem trail (h : InStep c (Same (mapAnn c.span)) sub sub) (fuel : Nat)
    {left left' : Exp Span} (hleft : left.mapAnn c.span = left'.mapAnn c.span) :
    InStep c (Same (mapAnn c.span)) (g.trail sub fuel left) (g.trail sub fuel left') := by
  induction fuel generalizing left left' with
  | zero => exact .pure hleft
  | succ fuel ih =>
    refine .bind .kind fun k _ hk => ?_
    subst hk
    cases g.trailing.lookup k with
    | none => exact .pure hleft
    | some form => exact .bind (trailingForm (ty g) h hleft form) fun _ _ he => ih he

/-- Expressions are read in step at every depth, if no identifier is taken for an operator. -/
theorem exprAt (hg : g.opening.lookup .identifier ≠ some .prim) (fuel : Nat) (bp : BindingPower) :
    InStep c (Same (mapAnn c.span)) (g.exprAt fuel bp) (g.exprAt fuel bp) := by
  induction fuel generalizing bp with
  | zero => exact .unexpected (.inl rfl)
  | succ fuel ih =>
    cases bp with
    | trailing => exact head hg (ih .loose)
    | loose =>
      refine .bind (head hg (ih .loose)) fun e e' he => .bind .get fun s s' hs => ?_
      rw [hs.remaining_eq]
      exact trail (ih .loose) _ he

/-- Programs are read in step by a grammar in which no identifier is the word of an operation. -/
theorem program (hg : g.opening.lookup .identifier ≠ some .prim) :
    InStep c (Same (mapAnn c.span)) g.program g.program := by
  have hexpr : InStep c (Same (mapAnn c.span)) (g.expr .loose) (g.expr .loose) := by
    refine .bind .get fun s s' hs => ?_
    rw [hs.remaining_eq]
    exact exprAt hg _ _
  refine .bind hexpr fun e e' he => .bind .kind fun k _ hk => ?_
  subst hk
  split
  · exact .pure he
  · exact .unexpected (.inl rfl)

end Expressions

end InStep

/-- In the grammar of the language, an identifier is no word of an operation. -/
private theorem Grammar.lookup_identifier_ne_prim :
    Grammar.full.opening.lookup .identifier ≠ some .prim := by
  decide

/-! ## Where reading begins -/

section Programs

variable {tokens tokens' : List Token} {file file' : String}

/-- Ends of input match, at the same place if places are compared. -/
private theorem endAt_matches {offset offset' : Nat} (hend : c.known (Token.endAt offset file))
    (hsame : c.spans = true → offset = offset' ∧ file = file') :
    Token.Matches c (Token.endAt offset file) (Token.endAt offset' file') where
  kind := rfl
  name hk := by cases hk
  text _ := rfl
  span := Comparison.span_eq_iff.2 fun hspans => by
    obtain ⟨rfl, rfl⟩ := hsame hspans
    rfl
  known := hend

/-- Matching tokens are closed with matching tokens. -/
private theorem closing_matches (hend : ∀ offset file, c.known (Token.endAt offset file))
    {last last' : Token} (hlast : Token.Matches c last last')
    (h : List.Forall₂ (Token.Matches c) tokens tokens') :
    List.Forall₂ (Token.Matches c) (State.closing last tokens) (State.closing last' tokens') := by
  induction h generalizing last last' with
  | nil =>
    rw [State.closing, State.closing, hlast.kind]
    split
    · exact .nil
    · refine .cons (endAt_matches (hend _ _) fun hspans => ?_) .nil
      rw [Comparison.span_eq_iff.1 hlast.span hspans]
      exact ⟨rfl, rfl⟩
  | cons ht _ ih => exact .cons ht (ih ht)

/-- Matching token lists are read from states that are alike. -/
theorem State.alike_ofTokens (hend : ∀ offset file, c.known (Token.endAt offset file))
    (hfile : c.spans = true → file = file') (h : List.Forall₂ (Token.Matches c) tokens tokens') :
    State.Alike c (State.ofTokens file tokens) (State.ofTokens file' tokens') := by
  cases h with
  | nil =>
    have hempty := endAt_matches (hend 0 file) fun hspans => ⟨rfl, hfile hspans⟩
    exact ⟨.nil, hempty, .nil, (Scopes.rename_empty _).symm, by simp [State.ofTokens, Scopes.empty]⟩
  | cons ht hts =>
    exact ⟨.nil, ht, closing_matches hend ht hts, (Scopes.rename_empty _).symm,
      by simp [State.ofTokens, Scopes.empty]⟩

/-- Both runs read programs with the same trees, as far as they are compared, and the same scopes
    under the new names, or both fail where matching tokens begin. -/
inductive SameOutcome (c : Comparison) : Except Error Program → Except Error Program → Prop
  | ok {p p' : Program} (tree : p.tree.mapAnn c.span = p'.tree.mapAnn c.span)
      (scopes : p'.scopes = p.scopes.rename c.rename)
      (named : ∀ name ∈ p.scopes.names, c.Named name) : SameOutcome c (.ok p) (.ok p')
  | error {e e' : Error} (cause : c.SameCause e.cause e'.cause)
      (places : Firsts c e.position e'.position) : SameOutcome c (.error e) (.error e')

/-- From states that are alike, programs are read in step. -/
theorem ofTokens_inStep
    (h : State.Alike c (State.ofTokens file tokens) (State.ofTokens file' tokens')) :
    SameOutcome c (Program.ofTokens file tokens) (Program.ofTokens file' tokens') := by
  have hrun := InStep.program Grammar.lookup_identifier_ne_prim _ _ h
  rw [Program.ofTokens, Program.ofTokens]
  generalize Grammar.full.program (State.ofTokens file tokens) = r at hrun
  generalize Grammar.full.program (State.ofTokens file' tokens') = r' at hrun
  cases hrun with
  | ok related alike => exact .ok related alike.scopes alike.named
  | error cause places => exact .error cause places

end Programs

end BranchIR
