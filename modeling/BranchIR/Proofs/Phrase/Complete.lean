import BranchIR.Proofs.Parser.FormsText
import BranchIR.Proofs.Phrase.Words

/-!
# Every phrase is read

Wherever the phrase of an expression stands and the names it needs are in scope, the reader of
expressions takes it. A let, a bundle and a store have no closing token: what looks like a
trailing form behind one of them is read into its body. So the statement about a phrase is one
about the phrase with any trailing forms behind it, whichever of its parts they end up in.
-/

namespace BranchIR

variable {Γ Δ : List String} {u v : List Lexeme} {fuel : Nat} {σ : Scopes} {s s' : State}

/-- The same scopes are open afterwards. -/
def Kept {β : Type} (σ : Scopes) (_ : β) (σ' : Scopes) : Prop := σ.Extends σ'

/-- The lexemes are a trailing form, which is read where the names are in scope. -/
def Follows (Γ : List String) (v : List Lexeme) : Prop :=
  ∃ form w us, v = w :: us ∧ Grammar.full.trailing.lookup w.kind = some form ∧
    ∀ {fuel : Nat} {left : Exp Span} {σ : Scopes} {s s' : State}, Γ ⊆ σ.visible → s.Shows v s' →
      s.remaining ≤ fuel + 1 →
        Runs (form.read Grammar.full.ty (Grammar.full.exprAt fuel .loose) left) s σ s' (Kept σ)

/-- The lexemes are read as an expression where the names are in scope, with any trailing forms
    behind them. -/
def Accepted (Γ : List String) (u : List Lexeme) : Prop :=
  ∀ vs : List (List Lexeme), (∀ v ∈ vs, Follows Γ v) → ∀ {σ : Scopes}, Γ ⊆ σ.visible → ∀ fuel,
    Yields (Grammar.full.exprAt fuel .loose) fuel (u ++ vs.flatten) σ (Kept σ)

/-- A trailing form stays one where more names are in scope. -/
private theorem Follows.mono (h : Follows Γ v) (hsub : Γ ⊆ Δ) : Follows Δ v := by
  obtain ⟨form, w, us, heq, hform, hread⟩ := h
  exact ⟨form, w, us, heq, hform, fun hΔ => hread (List.Subset.trans hsub hΔ)⟩

namespace Accepted

/-- Without trailing forms. -/
theorem yields (h : Accepted Γ u) (hΓ : Γ ⊆ σ.visible) (fuel : Nat) :
    Yields (Grammar.full.exprAt fuel .loose) fuel u σ (Kept σ) := by
  have hyield := h [] (by simp) hΓ fuel
  rwa [List.flatten_nil, List.append_nil] at hyield

/-! ## Parts -/

/-- Expressions are read one after the other. -/
private theorem yieldsAll {us : List (List Lexeme)} (h : ∀ u ∈ us, Accepted Γ u)
    (hΓ : Γ ⊆ σ.visible)
    (fuel : Nat) : YieldsAll (Grammar.full.exprAt fuel .loose) fuel us σ (Kept σ) := by
  induction us generalizing σ with
  | nil => exact .refl σ
  | cons u us ih =>
    obtain ⟨hu, hus⟩ := List.forall_mem_cons.1 h
    refine (hu.yields hΓ fuel).mono fun e σ₁ hσ₁ => ?_
    exact (ih hus (hσ₁.subset_visible hΓ)).mono fun es σ' hσ => hσ₁.trans hσ

/-- The offsets of a path are read one after the other. -/
private theorem yieldsPath {path : List (Step (List Lexeme))}
    (h : ∀ u ∈ path.filterMap Step.offset?, Accepted Γ u) (hΓ : Γ ⊆ σ.visible) (fuel : Nat) :
    YieldsPath (Grammar.full.exprAt fuel .loose) fuel path σ (Kept σ) := by
  induction path generalizing σ with
  | nil => exact .refl σ
  | cons step path ih =>
    cases step with
    | field n | element n => exact ih (by simpa [Step.offset?] using h) hΓ
    | lane u | index u =>
      obtain ⟨hu, hpath⟩ := List.forall_mem_cons.1 h
      refine (hu.yields hΓ fuel).mono fun e σ₁ hσ₁ => ?_
      exact (ih hpath (hσ₁.subset_visible hΓ)).mono fun steps σ' hσ => hσ₁.trans hσ

/-- Arms are read one after the other. -/
private theorem yieldsArms {arms : List Branch}
    (hpatterns : ∀ arm ∈ arms, PatternPhrase arm.pattern arm.mark)
    (h : ∀ arm ∈ arms, Accepted Γ arm.body) (hΓ : Γ ⊆ σ.visible) (fuel : Nat) :
    YieldsAll (readArm (Grammar.full.exprAt fuel .loose)) fuel (arms.map (·.phrase)) σ
      (Kept σ) := by
  induction arms generalizing σ with
  | nil => exact .refl σ
  | cons arm arms ih =>
    obtain ⟨hpattern, hothers⟩ := List.forall_mem_cons.1 hpatterns
    obtain ⟨harm, harms⟩ := List.forall_mem_cons.1 h
    refine readArm_yields hpattern ((harm.yields hΓ fuel).mono fun body σ₁ hσ₁ => ?_)
    have hσ₁ : Kept σ body σ₁ := hσ₁
    exact (ih hothers harms (hσ₁.subset_visible hΓ)).mono fun arms' σ' hσ => hσ₁.trans hσ

/-- Functions are read one after the other, each in a scope of its own. -/
private theorem yieldsFuncs {ms : List Member} (h : ∀ m ∈ ms, Accepted (m.paramNames ++ Γ) m.body)
    (hΓ : Γ ⊆ σ.visible) {ids : List VarId} (hids : ids.length = ms.length) (fuel : Nat) :
    YieldsFuncs (Grammar.full.exprAt fuel .loose) fuel ids ms σ (Kept σ) := by
  induction ms generalizing σ ids with
  | nil =>
    rw [List.length_nil, List.length_eq_zero_iff] at hids
    rw [hids]
    exact Scopes.Extends.refl σ
  | cons m ms ih =>
    obtain ⟨id, ids, rfl⟩ := List.exists_cons_of_length_eq_add_one hids
    obtain ⟨hm, hms⟩ := List.forall_mem_cons.1 h
    -- the scope of the function binds the parameters, latest first
    have hopen : m.paramNames ++ Γ ⊆ (σ.push.bindAll m.paramNames).visible := by
      rw [Scopes.visible_bindAll, Scopes.visible_push]
      exact List.append_subset.2 ⟨by simp, List.subset_append_of_subset_right _ hΓ⟩
    refine (hm.yields hopen fuel).mono fun body σ₁ hσ₁ f _ _ => ?_
    have hσ₁ : Kept σ body σ₁.pop := Scopes.Extends.pop _ hσ₁
    have hlength : ids.length = ms.length := by simpa using hids
    exact (ih hms (hσ₁.subset_visible hΓ) hlength).mono fun fs σ' hσ => hσ₁.trans hσ

/-! ## Opening and trailing forms -/

/-- Trailing forms are read one after the other. -/
private theorem trail_run {vs : List (List Lexeme)} (h : ∀ v ∈ vs, Follows Γ v)
    (hΓ : Γ ⊆ σ.visible) (hshows : s.Shows vs.flatten s') (hstops : s'.Stops)
    (hfuel : s.remaining ≤ fuel + 1) {k : Nat} (hk : s.remaining ≤ k) (e : Exp Span) :
    Runs (Grammar.full.trail (Grammar.full.exprAt fuel .loose) k e) s σ s' (Kept σ) := by
  induction vs generalizing s σ k e with
  | nil =>
    obtain rfl := hshows
    exact trail_nil hstops (.refl σ) k
  | cons v vs ih =>
    obtain ⟨⟨form, w, us, rfl, hform, hread⟩, hvs⟩ := List.forall_mem_cons.1 h
    obtain ⟨s₁, hv, hrest⟩ := State.shows_append.1 hshows
    obtain ⟨s₂, htakes, -⟩ := id hv
    have hcount := hv.remaining
    rw [List.length_cons] at hcount
    -- a trailing form takes a token, so there is fuel for as many as can still come
    obtain ⟨k, rfl⟩ : ∃ j, k = j + 1 := ⟨k - 1, by omega⟩
    refine trail_cons form htakes hform ((hread hΓ hv hfuel).mono fun e σ₁ hσ₁ => ?_)
    have hless : s₁.remaining ≤ k := by omega
    have hothers := ih hvs (hσ₁.subset_visible hΓ) hrest (by omega) hless e
    exact hothers.mono fun e' σ' hσ => hσ₁.trans hσ

/-- An expression with a trailing form behind it. -/
private theorem follows (h : Accepted Γ u) (hv : Follows Γ v) : Accepted Γ (u ++ v) := by
  intro vs hvs σ hΓ fuel
  have hyield := h (v :: vs) (List.forall_mem_cons.2 ⟨hv, hvs⟩) hΓ fuel
  rwa [List.flatten_cons, ← List.append_assoc] at hyield

section Forms

variable {w : Lexeme} (form : OpeningForm) (hform : Grammar.full.opening.lookup w.kind = some form)

include hform

/-- A form that does not end with an expression: trailing forms are read after it. -/
private theorem of_closed (h : ∀ {fuel : Nat} {σ : Scopes} {s s' : State}, Γ ⊆ σ.visible →
      s.Shows (w :: u) s' → s.remaining ≤ fuel + 1 →
        Runs (form.read Grammar.full.ty (Grammar.full.exprAt fuel .loose)) s σ s' (Kept σ)) :
    Accepted Γ (w :: u) := by
  intro vs hvs σ hΓ fuel s s' hshows hbound hstops
  obtain ⟨s₁, hu, hrest⟩ := State.shows_append.1 hshows
  obtain ⟨s₂, htakes, -⟩ := id hu
  obtain ⟨fuel, rfl, -⟩ := htakes.fuel hbound
  have hcount := hu.remaining
  have hless : s₁.remaining ≤ fuel + 1 := by omega
  refine exprAt_of_form form htakes hform ((h hΓ hu hbound).mono fun e σ₁ hσ₁ => ?_)
  have htrail := trail_run hvs (hσ₁.subset_visible hΓ) hrest hstops hless (Nat.le_refl _) e
  exact htrail.mono fun e' σ' hσ => hσ₁.trans hσ

/-- A form that ends with an expression: trailing forms are read into that expression. -/
private theorem of_open (h : ∀ vs : List (List Lexeme), (∀ v ∈ vs, Follows Γ v) →
      ∀ {fuel : Nat} {σ : Scopes} {s s' : State},
      Γ ⊆ σ.visible → s.Shows (w :: (u ++ vs.flatten)) s' → s.remaining ≤ fuel + 1 → s'.Stops →
        Runs (form.read Grammar.full.ty (Grammar.full.exprAt fuel .loose)) s σ s' (Kept σ)) :
    Accepted Γ (w :: u) := by
  intro vs hvs σ hΓ fuel s s' hshows hbound hstops
  obtain ⟨s₁, htakes, -⟩ := id hshows
  obtain ⟨fuel, rfl, -⟩ := htakes.fuel hbound
  have hrun := h vs hvs hΓ hshows hbound hstops
  exact exprAt_of_form form htakes hform (hrun.mono fun e σ₁ hσ₁ => trail_nil hstops hσ₁ _)

end Forms

/-! ## The forms -/

/-- A literal is read. -/
private theorem int {text : String} (h : LiteralText text) : Accepted Γ [⟨.intLiteral, text⟩] := by
  refine of_closed .atom rfl fun _ hshows _ => ?_
  obtain ⟨htakes, htext⟩ := State.shows_singleton.1 hshows
  obtain ⟨value, width, hread⟩ := literal?_isSome.2 h
  rw [← show _ = text from htext] at hread
  exact readInt_run htakes hread (.refl _)

/-- A name in scope is read. -/
private theorem var {name : String} (h : name ∈ Γ) : Accepted Γ [.name name] := by
  refine of_closed .atom rfl fun hΓ hshows _ => ?_
  obtain ⟨htakes, htext⟩ := State.shows_singleton.1 hshows
  obtain ⟨id, hfind⟩ := Scopes.mem_visible_iff.1 (hΓ h)
  rw [← show _ = name from htext] at hfind
  exact readVar_run htakes hfind (.refl _)

/-- An expression in parentheses is read. -/
private theorem group (h : Accepted Γ u) :
    Accepted Γ (Kind.openParen.lexeme :: (u ++ [Kind.closeParen.lexeme])) :=
  of_closed .group rfl fun hΓ hshows hbound => readGroup_run (h.yields hΓ _) hshows hbound

section Lists

variable {us : List (List Lexeme)} (hlist : Commas us v) (hphrases : ∀ u ∈ us, ExpPhrase Γ u)
  (h : ∀ u ∈ us, Accepted Γ u)

include hlist hphrases h

/-- A tuple is read with its elements. -/
private theorem tuple : Accepted Γ (Kind.openCurly.lexeme :: (v ++ [Kind.closeCurly.lexeme])) := by
  refine of_closed .tuple rfl fun hΓ hshows hbound => ?_
  exact readElems_run hphrases hlist .tuple rfl rfl (by decide) rfl
    ((yieldsAll h hΓ _).mono fun es σ' hσ a => hσ) hshows hbound

private theorem vector : Accepted Γ (Kind.less.lexeme :: (v ++ [Kind.greater.lexeme])) := by
  refine of_closed .vector rfl fun hΓ hshows hbound => ?_
  exact readElems_run hphrases hlist .vector rfl rfl (by decide) rfl
    ((yieldsAll h hΓ _).mono fun es σ' hσ a => hσ) hshows hbound

private theorem prim (op : PrimOp) : Accepted Γ (⟨.primWord, op.name⟩ :: Kind.openParen.lexeme ::
    (v ++ [Kind.closeParen.lexeme])) := by
  refine of_closed .prim rfl fun hΓ hshows hbound => ?_
  exact readPrim_run hphrases hlist ((yieldsAll h hΓ _).mono fun es σ' hσ a => hσ) hshows hbound

/-- A call is read with its callee and its arguments. -/
private theorem call (hcallee : Accepted Γ u) :
    Accepted Γ (u ++ Kind.openParen.lexeme :: (v ++ [Kind.closeParen.lexeme])) := by
  refine hcallee.follows ⟨.call, _, _, rfl, rfl, fun hΓ hshows hbound => ?_⟩
  exact readCall_run hphrases hlist ((yieldsAll h hΓ _).mono fun es σ' hσ a => hσ) hshows hbound

end Lists

section Types

variable {ty : Ty} {t : List Lexeme} (htype : TyPhrase ty t)

include htype

private theorem ascribe (h : Accepted Γ u) : Accepted Γ (u ++ Kind.colon.lexeme :: t) := by
  refine h.follows ⟨.ascription, _, _, rfl, rfl, fun _ hshows _ => ?_⟩
  exact readTyped_run .ascription (fun _ => rfl) htype (fun _ => .refl _) hshows

private theorem coerce (h : Accepted Γ u) : Accepted Γ (u ++ Kind.asWord.lexeme :: t) := by
  refine h.follows ⟨.coercion, _, _, rfl, rfl, fun _ hshows _ => ?_⟩
  exact readTyped_run .coercion (fun _ => rfl) htype (fun _ => .refl _) hshows

/-- What stands behind a let is read into its body. -/
private theorem letIn {name : String} (hvalue : Accepted Γ u) (hbody : Accepted (name :: Γ) v) :
    Accepted Γ (Kind.letWord.lexeme :: .name name :: Kind.colon.lexeme ::
      (t ++ Kind.assignment.lexeme :: (u ++ Kind.inWord.lexeme :: v))) := by
  refine of_open .letIn rfl fun vs hvs fuel σ s s' hΓ hshows hbound hstops => ?_
  refine readLet_run (v := v ++ vs.flatten) htype ?_ (by simpa using hshows) hbound hstops
  refine (hvalue.yields hΓ fuel).mono fun value σ₁ hσ₁ => ?_
  have hopen : name :: Γ ⊆ (σ₁.push.bind name).2.visible := by
    rw [Scopes.visible_bind, Scopes.visible_push]
    exact List.cons_subset_cons _ (hσ₁.subset_visible hΓ)
  have hbodies := hbody vs (fun w hw => (hvs w hw).mono (List.subset_cons_self ..)) hopen fuel
  refine hbodies.mono fun body σ' hσ a => ?_
  exact Scopes.Extends.trans hσ₁ (Scopes.Extends.pop [name] hσ)

end Types

/-- What stands behind a bundle is read into the expression that uses it. -/
private theorem recIn {ms : List Member} (hne : ms ≠ []) (hheads : ∀ m ∈ ms, m.HeadOk)
    (hdistinct : (ms.map Member.name).Nodup) (heven : ∀ m ∈ ms, Even m.body)
    (h : ∀ m ∈ ms, Accepted (m.paramNames ++ (ms.map Member.name ++ Γ)) m.body)
    (hbody : Accepted (ms.map Member.name ++ Γ) v) :
    Accepted Γ (Kind.recWord.lexeme :: (separated Kind.andWord.lexeme (ms.map Member.phrase) ++
      Kind.inWord.lexeme :: v)) := by
  refine of_open .recIn rfl fun vs hvs fuel σ s s' hΓ hshows hbound hstops => ?_
  obtain ⟨s₁, hrec, -, hrest⟩ := hshows
  -- the scope of the bundle binds all of the names, latest first
  have hopen : ms.map Member.name ++ Γ ⊆ (σ.push.bindAll (ms.map Member.name)).visible := by
    rw [Scopes.visible_bindAll, Scopes.visible_push]
    exact List.append_subset.2 ⟨by simp, List.subset_append_of_subset_right _ hΓ⟩
  refine readRec_run (v := v ++ vs.flatten) hne hheads hdistinct heven ?_ hrec
    (by simpa using hrest) (hrec.below hbound) hstops
  refine (yieldsFuncs h hopen (by simp) fuel).mono fun fs σ₁ hσ₁ => ?_
  have hpending : ∀ w ∈ vs, Follows (ms.map Member.name ++ Γ) w :=
    fun w hw => (hvs w hw).mono (List.subset_append_right ..)
  refine (hbody vs hpending (hσ₁.subset_visible hopen) fuel).mono fun body σ' hσ a => ?_
  exact Scopes.Extends.pop _ (Scopes.Extends.trans hσ₁ hσ)

/-- A case is read with its scrutinee and its arms. -/
private theorem caseOf {arms : List Branch} (hscrutinee : Accepted Γ u)
    (hlist : Commas (arms.map (·.phrase)) v)
    (hpatterns : ∀ arm ∈ arms, PatternPhrase arm.pattern arm.mark)
    (h : ∀ arm ∈ arms, Accepted Γ arm.body) :
    Accepted Γ (Kind.caseWord.lexeme :: (u ++ Kind.openCurly.lexeme ::
      (v ++ [Kind.closeCurly.lexeme]))) := by
  refine of_closed .caseOf rfl fun hΓ hshows hbound => ?_
  refine readCase_run hpatterns hlist ?_ hshows hbound
  refine (hscrutinee.yields hΓ _).mono fun scrutinee σ₁ hσ₁ => ?_
  exact (yieldsArms hpatterns h (hσ₁.subset_visible hΓ) _).mono fun arms' σ' hσ a => hσ₁.trans hσ

section Paths

variable {path : List (Step (List Lexeme))} {a b : List Lexeme} (hbase : Accepted Γ u)
  (h : ∀ w ∈ path.filterMap Step.offset?, Accepted Γ w) (hpath : PathPhrase path v)

include hbase h

/-- What a path starts from and its offsets are read one after the other. -/
private theorem yieldsBased (hΓ : Γ ⊆ σ.visible) (fuel : Nat)
    {next : Exp Span → List (Step (Exp Span)) → Scopes → Prop}
    (hnext : ∀ base steps σ', σ.Extends σ' → next base steps σ') :
    Yields (Grammar.full.exprAt fuel .loose) fuel u σ fun base σ₁ =>
      YieldsPath (Grammar.full.exprAt fuel .loose) fuel path σ₁ fun steps σ' =>
        next base steps σ' := by
  refine (hbase.yields hΓ fuel).mono fun base σ₁ hσ₁ => ?_
  exact (yieldsPath h (hσ₁.subset_visible hΓ) fuel).mono fun steps σ' hσ =>
    hnext base steps σ' (Scopes.Extends.trans hσ₁ hσ)

include hpath

/-- A `gep` is read with its base and its path. -/
private theorem gep : Accepted Γ (Kind.gepWord.lexeme :: Kind.openParen.lexeme ::
    (u ++ (v ++ [Kind.closeParen.lexeme]))) := by
  refine of_closed .gep rfl fun hΓ hshows hbound => ?_
  exact readAddress_run hpath .gep rfl (yieldsBased hbase h hΓ _ fun _ _ _ hσ _ => hσ) hshows
    hbound

private theorem load : Accepted Γ (Kind.loadWord.lexeme :: Kind.openParen.lexeme ::
    (u ++ (v ++ [Kind.closeParen.lexeme]))) := by
  refine of_closed .load rfl fun hΓ hshows hbound => ?_
  exact readAddress_run hpath .load rfl (yieldsBased hbase h hΓ _ fun _ _ _ hσ _ => hσ) hshows
    hbound

/-- What stands behind a store is read into its body. -/
private theorem store (hvalue : Accepted Γ a) (hbody : Accepted Γ b) :
    Accepted Γ (Kind.storeWord.lexeme :: (u ++ (v ++ Kind.assignment.lexeme ::
      (a ++ Kind.inWord.lexeme :: b)))) := by
  refine of_open .store rfl fun vs hvs fuel σ s s' hΓ hshows hbound hstops => ?_
  refine readStore_run (b := b ++ vs.flatten) hpath ?_ (by simpa using hshows) hbound hstops
  refine yieldsBased hbase h hΓ fuel fun dest steps σ₁ hσ₁ => ?_
  refine (hvalue.yields (hσ₁.subset_visible hΓ) fuel).mono fun value σ₂ hσ₂ => ?_
  have hσ₂ : σ.Extends σ₂ := hσ₁.trans hσ₂
  exact (hbody vs hvs (hσ₂.subset_visible hΓ) fuel).mono fun body σ' hσ span => hσ₂.trans hσ

/-- An update is read with its base, its path and its value. -/
private theorem update (hvalue : Accepted Γ a) :
    Accepted Γ (Kind.updateWord.lexeme :: Kind.openParen.lexeme ::
      (u ++ (v ++ Kind.comma.lexeme :: (a ++ [Kind.closeParen.lexeme])))) := by
  refine of_closed .update rfl fun hΓ hshows hbound => ?_
  refine readUpdate_run hpath ?_ hshows hbound
  refine yieldsBased hbase h hΓ _ fun base steps σ₁ hσ₁ => ?_
  exact (hvalue.yields (hσ₁.subset_visible hΓ) _).mono fun value σ' hσ span => hσ₁.trans hσ

end Paths

end Accepted

/-- The phrase of an expression is read wherever it stands. -/
theorem ExpPhrase.accepted (h : ExpPhrase Γ u) : Accepted Γ u := by
  induction h with
  | int literal => exact .int literal
  | var bound => exact .var bound
  | group _ ih => exact .group ih
  | tuple list each ih => exact .tuple list each ih
  | vector list each ih => exact .vector list each ih
  | prim op list each ih => exact .prim list each ih op
  | letIn type _ _ ihvalue ihbody => exact .letIn type ihvalue ihbody
  | recIn nonempty heads distinct each _ iheach ihbody =>
    exact .recIn nonempty heads distinct (fun m hm => (each m hm).even) iheach ihbody
  | caseOf _ list patterns _ ih iheach => exact .caseOf ih list patterns iheach
  | gep _ steps _ ih iheach => exact .gep ih iheach steps
  | load _ steps _ ih iheach => exact .load ih iheach steps
  | store _ steps _ _ _ ih iheach ihvalue ihbody => exact .store ih iheach steps ihvalue ihbody
  | update _ steps _ _ ih iheach ihvalue => exact .update ih iheach steps ihvalue
  | ascribe _ type ih => exact .ascribe type ih
  | coerce _ type ih => exact .coerce type ih
  | call _ list each ih iheach => exact .call list each iheach ih

end BranchIR
