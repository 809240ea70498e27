import BranchIR.Proofs.Exp.Numbering
import BranchIR.Proofs.Parser.Lookahead

/-!
# Scopes and identities while reading

Reading an expression of the grammar leaves the open scopes as they were and hands out the
identities of its binders in order. So the tree that is read is numbered, from the identities
handed out before it, in the scope of the bindings that are open around it.
-/

namespace BranchIR

namespace Scopes

/-- The identities that are bound in the open scopes, latest first. -/
def ids (s : Scopes) : List VarId := (s.inner :: s.outer).flatMap fun frame => frame.map (·.2)

@[simp] theorem ids_push (s : Scopes) : s.push.ids = s.ids := rfl

/-- A name that is bound brings the next identity into scope. -/
private theorem ids_bind (s : Scopes) (name : String) : (s.bind name).2.ids = s.size :: s.ids := rfl

/-- A name leads to an identity that is bound in an open scope. -/
private theorem mem_ids_of_find? {s : Scopes} {name : String} {id : VarId}
    (h : s.find? name = some id) :
    id ∈ s.ids := by
  obtain ⟨frame, hframe, hlookup⟩ := List.exists_of_findSome?_eq_some h
  obtain ⟨_, _, rfl, -⟩ := List.lookup_eq_some_iff.1 hlookup
  exact List.mem_flatMap.2 ⟨_, hframe, List.mem_map.2 ⟨(name, id), by simp, rfl⟩⟩

/-- Every name that is bound takes an identity. -/
@[simp] theorem size_bindAll (s : Scopes) (names : List String) :
    (s.bindAll names).size = s.size + names.length := by
  induction names generalizing s with
  | nil => rfl
  | cons name names ih =>
    have hrest := ih (s.bind name).2
    rw [size_bind] at hrest
    rw [List.length_cons, Nat.add_comm names.length, ← Nat.add_assoc]
    exact hrest

/-- Names are bound in the innermost scope and leave the others. -/
@[simp] theorem outer_bindAll (s : Scopes) (names : List String) :
    (s.bindAll names).outer = s.outer := by
  induction names generalizing s with
  | nil => rfl
  | cons name names ih => exact ih (s.bind name).2

/-- The names get the next identities, one after the other. -/
private theorem ids_bindAll (s : Scopes) (names : List String) :
    (s.bindAll names).ids = (List.range' s.size names.length).reverse ++ s.ids := by
  induction names generalizing s with
  | nil => rfl
  | cons name names ih =>
    have hrest := ih (s.bind name).2
    rw [ids_bind, size_bind] at hrest
    rw [List.length_cons, List.range'_succ, List.reverse_cons, List.append_assoc]
    exact hrest

/-- The names that are bound in the open scopes, latest first. -/
def visible (s : Scopes) : List String := (s.inner :: s.outer).flatMap fun frame => frame.map (·.1)

@[simp] theorem visible_empty : empty.visible = [] := rfl

@[simp] theorem visible_push (s : Scopes) : s.push.visible = s.visible := rfl

/-- A name that is bound is visible at the front. -/
theorem visible_bind (s : Scopes) (name : String) : (s.bind name).2.visible = name :: s.visible :=
  rfl

/-- Names that are bound come in front of those that were visible. -/
theorem visible_bindAll (s : Scopes) (names : List String) :
    (s.bindAll names).visible = names.reverse ++ s.visible := by
  induction names generalizing s with
  | nil => rfl
  | cons name names ih =>
    have hrest := ih (s.bind name).2
    rw [visible_bind] at hrest
    rw [List.reverse_cons, List.append_assoc]
    exact hrest

/-- A name leads to an identity when an open scope binds it. -/
theorem mem_visible_iff {s : Scopes} {name : String} :
    name ∈ s.visible ↔ ∃ id, s.find? name = some id := by
  simp only [visible, find?, List.mem_flatMap, List.mem_map, ← Option.isSome_iff_exists,
    List.findSome?_isSome_iff, List.lookup_isSome_iff]
  simp

/-- The table keeps the names in the order in which they are bound. -/
theorem names_bindAll (s : Scopes) (names : List String) :
    (s.bindAll names).names.toList = s.names.toList ++ names := by
  induction names generalizing s with
  | nil => simp [bindAll]
  | cons name names ih =>
    have hrest := ih (s.bind name).2
    simp only [bind, Array.toList_push, List.append_assoc, List.singleton_append] at hrest
    exact hrest

/-- The same scopes are open, and more identities may have been handed out. -/
structure Extends (a b : Scopes) : Prop where
  inner : b.inner = a.inner
  outer : b.outer = a.outer
  names : a.names.toList <+: b.names.toList

namespace Extends

variable {a b c : Scopes}

theorem refl (a : Scopes) : a.Extends a := ⟨rfl, rfl, List.prefix_refl _⟩

theorem of_eq (h : b = a) : a.Extends b := h ▸ refl a

/-- What extends an extension extends the whole. -/
theorem trans (h : a.Extends b) (h' : b.Extends c) : a.Extends c :=
  ⟨h'.inner.trans h.inner, h'.outer.trans h.outer, h.names.trans h'.names⟩

/-- What extends has the same identities in scope. -/
private theorem ids_eq (h : a.Extends b) : b.ids = a.ids := by
  rw [ids, h.inner, h.outer, ids]

/-- What extends has the same names in scope. -/
theorem visible_eq (h : a.Extends b) : b.visible = a.visible := by
  rw [visible, h.inner, h.outer, visible]

/-- What is in scope stays so. -/
theorem subset_visible {names : List String} (h : a.Extends b) (hnames : names ⊆ a.visible) :
    names ⊆ b.visible := by
  rwa [visible_eq h]

/-- A scope that was opened, filled and used is closed again. -/
theorem pop (names : List String) (h : (a.push.bindAll names).Extends b) : a.Extends b.pop := by
  -- below the scope that was opened stand the scopes from before
  have houter : b.outer = a.inner :: a.outer := by rw [h.outer, outer_bindAll, push]
  have htable : a.names.toList <+: b.names.toList := by
    have hbound := h.names
    rw [names_bindAll] at hbound
    exact (List.prefix_append _ _).trans hbound
  rw [Scopes.pop, houter]
  exact ⟨rfl, rfl, htable⟩

end Extends

end Scopes

/-! ## What leaves the scopes alone -/

/-- Scopes that stay the same go on doing so. -/
private theorem goesOn_scopes_eq : GoesOn fun s s' => s'.scopes = s.scopes where
  refl _ := rfl
  trans h h' := h'.trans h
  takes _ h := h.scopes_eq

/-- Reading a type touches no scope. -/
private theorem ReadsTy.scopes_eq {ty : Ty} {s s' : State} (h : ReadsTy s ty s') :
    s'.scopes = s.scopes :=
  h.goesOn goesOn_scopes_eq

/-! ## Numbering -/

/-- An expression is numbered from the scopes before it, and these are open after it. -/
structure Threads (s : State) (e : Exp Span) (s' : State) : Prop where
  scopes : s.scopes.Extends s'.scopes
  numbered : Numbered s.scopes.ids s.scopes.size e s'.scopes.size

/-- How an expression is numbered depends on the scopes alone, not on the tokens before it. -/
private theorem Threads.of_scopes {s s₁ s' : State} {e : Exp Span} (h : Threads s₁ e s')
    (hs : s₁.scopes = s.scopes) : Threads s e s' := by
  obtain ⟨hscopes, hnumbered⟩ := h
  rw [hs] at hscopes hnumbered
  exact ⟨hscopes, hnumbered⟩

section Containers

variable {s s' : State}

/-- Expressions are numbered one after the other, and the scopes before them are open after
    them. -/
def ThreadsAll (s : State) (es : List (Exp Span)) (s' : State) : Prop :=
  s.scopes.Extends s'.scopes ∧ NumberedAll s.scopes.ids s.scopes.size es s'.scopes.size

/-- How expressions in a list are numbered depends on the scopes alone. -/
private theorem ThreadsAll.of_scopes {s₁ : State} {es : List (Exp Span)} (h : ThreadsAll s₁ es s')
    (hs : s₁.scopes = s.scopes) : ThreadsAll s es s' := by
  rw [ThreadsAll, ← hs]
  exact h

/-- Expressions are numbered one after the other. -/
private theorem ThreadsAll.cons {s₁ : State} {e : Exp Span} {es : List (Exp Span)}
    (h : Threads s e s₁) (hs : ThreadsAll s₁ es s') : ThreadsAll s (e :: es) s' := by
  obtain ⟨hscopes, hall⟩ := hs
  rw [h.scopes.ids_eq] at hall
  exact ⟨h.scopes.trans hscopes, _, h.numbered, hall⟩

private theorem ThreadsAll.nil (hs : s'.scopes = s.scopes) : ThreadsAll s [] s' :=
  ⟨.of_eq hs, congrArg Scopes.size hs⟩

/-- What stands in a list is numbered from left to right; `body` is the expression in an item. -/
private theorem Listed.threadsAll {α : Type} (body : α → Exp Span) {close : Kind}
    {ps : List (Piece α)}
    (h : Listed close s ps s') (each : ∀ p ∈ ps, Threads p.start (body p.item) p.stop) :
    ThreadsAll s (ps.map fun p => body p.item) s' := by
  induction h with
  | nil ends => exact .nil ends.scopes_eq
  | @last p s' ends => exact .cons (each p (by simp)) (.nil ends.scopes_eq)
  | more comma _ ih =>
    obtain ⟨hp, hps⟩ := List.forall_mem_cons.1 each
    exact .cons hp ((ih hps).of_scopes comma.scopes_eq)

/-- The offsets that a path computes are numbered from left to right. -/
private theorem ReadsPath.threadsAll {path : List (Step (Piece (Exp Span)))}
    (h : ReadsPath s path s')
    (each : ∀ p ∈ path.filterMap Step.offset?, Threads p.start p.item p.stop) :
    ThreadsAll s (Exp.offsets (path.map (Step.map Piece.item))) s' := by
  induction h with
  | nil => exact .nil rfl
  | field dot offset _ ih =>
    have hscopes := offset.1.scopes_eq.trans dot.scopes_eq
    exact (ih (by simpa using each)).of_scopes hscopes
  | element opens offset ends _ ih =>
    have hscopes := ends.scopes_eq.trans (offset.1.scopes_eq.trans opens.scopes_eq)
    exact (ih (by simpa using each)).of_scopes hscopes
  | lane opens ends _ ih =>
    obtain ⟨hp, hps⟩ := List.forall_mem_cons.1 each
    exact .cons (hp.of_scopes opens.scopes_eq) ((ih hps).of_scopes ends.scopes_eq)
  | index sign _ ih =>
    obtain ⟨hp, hps⟩ := List.forall_mem_cons.1 each
    exact .cons (hp.of_scopes sign.scopes_eq) (ih hps)

/-- An arm is numbered from its pattern on. -/
private theorem ReadsArm.threads {arm : Piece (Arm (Piece (Exp Span)))} (h : ReadsArm arm)
    (hbody : Threads arm.item.body.start arm.item.body.item arm.item.body.stop) :
    Threads arm.start arm.item.body.item arm.stop := by
  have hstart := hbody.of_scopes (h.goesOn goesOn_scopes_eq)
  obtain ⟨_, _, _, hstop⟩ := h
  rwa [hstop] at hstart

/-- The type of a parameter binds nothing, so its name gets the next identity. -/
theorem ReadsParam.binds {p : Piece (Param Span)} (h : ReadsParam p) :
    p.item.name = p.start.scopes.size ∧
      p.stop.scopes = (p.start.scopes.bind p.start.current.text).2 := by
  obtain ⟨s₁, s₂, s₃, hname, -, hcolon, hty, -, hid, hstop⟩ := h
  have hscopes : s₃.scopes = p.start.scopes := by
    rw [hty.scopes_eq, hcolon.scopes_eq, hname.scopes_eq]
  rw [hid, hstop, State.scopes_withScopes, hscopes]
  exact ⟨rfl, rfl⟩

/-- The parameters of a list are bound in order. -/
theorem Listed.params {close : Kind} {ps : List (Piece (Param Span))} (h : Listed close s ps s')
    (each : ∀ p ∈ ps, ReadsParam p) :
    s'.scopes = s.scopes.bindAll (ps.map fun p => p.start.current.text) ∧
      ((ps.map Piece.item).map (·.name)) = List.range' s.scopes.size ps.length := by
  induction h with
  | nil ends => exact ⟨ends.scopes_eq, rfl⟩
  | @last p s' ends =>
    obtain ⟨hid, hscopes⟩ := (each p (by simp)).binds
    rw [ends.scopes_eq, hscopes]
    exact ⟨rfl, by simp [hid]⟩
  | @more p ps s s' comma _ ih =>
    obtain ⟨hp, hps⟩ := List.forall_mem_cons.1 each
    obtain ⟨hid, hscopes⟩ := hp.binds
    obtain ⟨hbound, hnames⟩ := ih hps
    rw [comma.scopes_eq, hscopes] at hbound hnames
    refine ⟨hbound, ?_⟩
    rw [Scopes.size_bind] at hnames
    rw [List.map_cons, List.map_cons, hid, hnames, List.length_cons, List.range'_succ]

/-- The parameters of a function are bound right before its body, in a scope that is closed
    after it. -/
theorem ReadsFunc.numbered {f : Func Span (Piece (Exp Span))} (h : ReadsFunc s f s')
    (hbody : Threads f.body.start f.body.item f.body.stop) :
    s.scopes.Extends s'.scopes ∧
      f.params.map (·.name) = List.range' s.scopes.size f.params.length ∧
      Numbered (f.params.map (·.name) ++ s.scopes.ids) (s.scopes.size + f.params.length)
        f.body.item s'.scopes.size := by
  cases h with
  | @mk f params s s₁ s₂ s₃ _ _ _ name opens list each items colon result assignment _ leaves =>
    -- the parameters are bound in a scope opened after the name, and the body is read there
    have hopen : s₂.scopes = s.scopes.push := by
      rw [opens.scopes_eq, State.scopes_withScopes, name.scopes_eq]
    obtain ⟨hbound, hnames⟩ := list.params each
    rw [hopen] at hbound hnames
    have hstart : f.body.start.scopes = s₃.scopes := by
      rw [assignment.scopes_eq, result.scopes_eq, colon.scopes_eq]
    obtain ⟨hscopes, hnumbered⟩ := hbody
    rw [hstart, hbound] at hscopes hnumbered
    rw [leaves, items, hnames, List.length_map]
    refine ⟨hscopes.pop _, rfl, ?_⟩
    -- the scope lists the parameters latest first
    rw [Scopes.ids_bindAll, Scopes.size_bindAll, List.length_map] at hnumbered
    rw [State.scopes_withScopes, Scopes.size_pop]
    apply hnumbered.mono
    simp

/-- The functions of a bundle are numbered from left to right. -/
theorem ReadsFuncs.numbered {fs : List (Func Span (Piece (Exp Span)))} (h : ReadsFuncs s fs s')
    (each : ∀ f ∈ fs, Threads f.body.start f.body.item f.body.stop) :
    s.scopes.Extends s'.scopes ∧ NumberedFuncs s.scopes.ids s.scopes.size
      (fs.map (Func.map id Piece.item)) s'.scopes.size := by
  induction h with
  | @last f s s' func =>
    obtain ⟨hscopes, hparams, hbody⟩ := func.numbered (each f (by simp))
    exact ⟨hscopes, by simpa [NumberedFuncs] using And.intro hparams hbody⟩
  | more func word _ ih =>
    obtain ⟨hf, hfs⟩ := List.forall_mem_cons.1 each
    obtain ⟨hscopes, hparams, hbody⟩ := func.numbered hf
    -- the `and` and the function before it leave the scopes open that the others are read in
    obtain ⟨hrest, hfuncs⟩ := ih hfs
    rw [word.scopes_eq] at hrest hfuncs
    rw [hscopes.ids_eq] at hfuncs
    refine ⟨hscopes.trans hrest, ?_, _, ?_, hfuncs⟩
    · simpa using hparams
    · simpa using hbody

end Containers

/-! ## Expressions -/

section Binding

variable {s s₁ s₂ s₃ : State} {a : Span} {body : Exp Span}

/-- A let is numbered with its name between its value and its body. -/
private theorem Threads.letIn {ty : Ty} {value : Exp Span} {name : String}
    (hvalue : Threads s value s₁) (hin : s₂.scopes = s₁.scopes)
    (hbody : Threads (s₂.withScopes (s₂.scopes.push.bind name).2) body s₃) :
    Threads s (.letIn a s₂.scopes.size ty value body) (s₃.withScopes s₃.scopes.pop) := by
  obtain ⟨hscopes, hinner⟩ := hbody
  rw [State.scopes_withScopes, hin] at hscopes hinner
  rw [Scopes.ids_bind, Scopes.size_bind, Scopes.ids_push, Scopes.size_push,
    hvalue.scopes.ids_eq] at hinner
  refine ⟨hvalue.scopes.trans (hscopes.pop [name]), numbered_letIn.2 ⟨?_, ?_⟩⟩
  · rw [hin]
    exact hvalue.numbered
  · rw [State.scopes_withScopes, Scopes.size_pop, hin]
    exact hinner

/-- A bundle is numbered with the names of its functions first, which are as many as the
    look-ahead has found. -/
private theorem Threads.recIn {fs : List (Func Span (Piece (Exp Span)))} (named : BundleNamed s fs)
    (hlength : s.bundleNames.length = fs.length) (funcs : ReadsFuncs s₁ fs s₂)
    (hopen : s₁.scopes = s.bundleScopes)
    (each : ∀ f ∈ fs, Threads f.body.start f.body.item f.body.stop)
    (hbody : Threads s₂ body s₃) :
    Threads s (.recIn a (fs.map (Func.map id Piece.item)) body)
      (s₃.withScopes s₃.scopes.pop) := by
  -- the functions have the first identities that were handed out, and there are no more
  have hnames : fs.map (·.name) = List.range' s.scopes.size fs.length := by
    have heq := named.eq_of_length (by simp [hlength])
    rwa [hlength] at heq
  obtain ⟨hscopes, hfuncs⟩ := funcs.numbered each
  have hinner := hbody.numbered
  rw [hscopes.ids_eq] at hinner
  rw [hopen, State.bundleScopes] at hscopes
  simp only [hopen, State.bundleScopes, Scopes.ids_bindAll, Scopes.ids_push, Scopes.size_bindAll,
    Scopes.size_push, List.length_map, hlength] at hfuncs hinner
  -- the scope lists the names latest first
  have hscope : (List.range' s.scopes.size fs.length).reverse ++ s.scopes.ids ⊆
      fs.map (·.name) ++ s.scopes.ids := by
    rw [hnames]
    simp
  refine ⟨(hscopes.trans hbody.scopes).pop _, numbered_recIn.2 ⟨?_, s₂.scopes.size, ?_, ?_⟩⟩
  · simpa [Function.comp_def] using hnames
  · simpa [Function.comp_def] using hfuncs.mono hscope
  · simpa [Function.comp_def] using hinner.mono hscope

end Binding

/-- An expression is numbered as it is read, and the scopes open before it are open after it. -/
theorem Reads.threads {e : Exp Span} {s s' : State} (h : Reads s e s') : Threads s e s' := by
  -- tokens and types leave the scopes alone, so what is known of each part is moved over them
  -- to where the part before it ends
  induction h with
  | int token => exact ⟨.of_eq token.scopes_eq, numbered_int.2 (by rw [token.scopes_eq])⟩
  | var token names =>
    -- a name is only resolved to what an open scope binds
    have hid := Scopes.mem_ids_of_find? names
    exact ⟨.of_eq token.scopes_eq, numbered_var.2 ⟨hid, by rw [token.scopes_eq]⟩⟩
  | group opens _ ends ih =>
    obtain ⟨hscopes, hnumbered⟩ := ih.of_scopes opens.scopes_eq
    rw [← ends.scopes_eq] at hscopes hnumbered
    exact ⟨hscopes, hnumbered⟩
  | tuple opens list _ ih =>
    obtain ⟨hscopes, hall⟩ := (list.threadsAll id ih).of_scopes opens.scopes_eq
    exact ⟨hscopes, numbered_tuple.2 hall⟩
  | vector opens list _ ih =>
    obtain ⟨hscopes, hall⟩ := (list.threadsAll id ih).of_scopes opens.scopes_eq
    exact ⟨hscopes, numbered_vector.2 hall⟩
  | prim word opens list _ ih =>
    have hopen := opens.scopes_eq.trans word.scopes_eq
    obtain ⟨hscopes, hall⟩ := (list.threadsAll id ih).of_scopes hopen
    exact ⟨hscopes, numbered_prim.2 hall⟩
  | letIn word name colon type assignment _ inWord _ leaves ihvalue ihbody =>
    have htype := type.scopes_eq.trans (colon.scopes_eq.trans (name.scopes_eq.trans word.scopes_eq))
    have hvalue := ihvalue.of_scopes (assignment.scopes_eq.trans htype)
    subst leaves
    exact hvalue.letIn inWord.scopes_eq ihbody
  | recIn word _ named funcs each inWord _ leaves ihfuncs ihbody =>
    have hlength := funcs.length_bundleNames word each inWord
    have hbody := ihbody.of_scopes inWord.scopes_eq
    subst leaves
    exact .recIn named hlength funcs (State.scopes_withScopes ..) ihfuncs hbody
  | @caseOf scrutinee arms s s₁ s₂ s₃ s' word _ opens list heads _ ihscrutinee iharms =>
    have hscrutinee := ihscrutinee.of_scopes word.scopes_eq
    -- a pattern binds nothing, so an arm is numbered as its body
    have harm : ∀ a ∈ arms, Threads a.start a.item.body.item a.stop :=
      fun a ha => (heads a ha).threads (iharms a ha)
    have harms := (list.threadsAll (fun arm => arm.body.item) harm).of_scopes opens.scopes_eq
    obtain ⟨hscopes, k, hfirst, hrest⟩ := ThreadsAll.cons hscrutinee harms
    have hbodies : (arms.map fun a => a.item.map Piece.item).map (·.body) =
        arms.map fun a => a.item.body.item := by simp [Arm.map]
    rw [← hbodies] at hrest
    exact ⟨hscopes, numbered_caseOf.2 ⟨k, hfirst, hrest⟩⟩
  | gep word opens _ steps _ ends ihbase ihpath =>
    have hbase := ihbase.of_scopes (opens.scopes_eq.trans word.scopes_eq)
    have hpath := steps.threadsAll ihpath
    rw [ThreadsAll, ← ends.scopes_eq] at hpath
    obtain ⟨hscopes, hall⟩ := ThreadsAll.cons hbase hpath
    exact ⟨hscopes, numbered_gep.2 hall⟩
  | load word opens _ steps _ ends ihbase ihpath =>
    have hbase := ihbase.of_scopes (opens.scopes_eq.trans word.scopes_eq)
    have hpath := steps.threadsAll ihpath
    rw [ThreadsAll, ← ends.scopes_eq] at hpath
    obtain ⟨hscopes, hall⟩ := ThreadsAll.cons hbase hpath
    exact ⟨hscopes, numbered_load.2 hall⟩
  | store word _ steps _ assignment _ inWord _ ihdest ihpath ihvalue ihbody =>
    have hdest := ihdest.of_scopes word.scopes_eq
    obtain ⟨hpath, hoffsets⟩ := steps.threadsAll ihpath
    have hvalue := ihvalue.of_scopes assignment.scopes_eq
    have hbody := ihbody.of_scopes inWord.scopes_eq
    -- each part is numbered in the scopes that the parts before it leave open
    have hafter := hdest.scopes.trans hpath
    have hlast := hafter.trans hvalue.scopes
    have hgiven := hvalue.numbered
    have hinner := hbody.numbered
    rw [hdest.scopes.ids_eq] at hoffsets
    rw [hafter.ids_eq] at hgiven
    rw [hlast.ids_eq] at hinner
    exact ⟨hlast.trans hbody.scopes,
      numbered_store.2 ⟨_, hdest.numbered, _, hoffsets, _, hgiven, hinner⟩⟩
  | update word opens _ steps _ comma _ ends ihbase ihpath ihvalue =>
    have hbase := ihbase.of_scopes (opens.scopes_eq.trans word.scopes_eq)
    obtain ⟨hpath, hoffsets⟩ := steps.threadsAll ihpath
    have hvalue := ihvalue.of_scopes comma.scopes_eq
    have hafter := hbase.scopes.trans hpath
    obtain ⟨hscopes, hlast⟩ := hvalue
    rw [← ends.scopes_eq] at hscopes hlast
    rw [hbase.scopes.ids_eq] at hoffsets
    rw [hafter.ids_eq] at hlast
    exact ⟨hafter.trans hscopes, numbered_update.2 ⟨_, hbase.numbered, _, hoffsets, hlast⟩⟩
  | ascribe _ colon type ih =>
    obtain ⟨hscopes, hnumbered⟩ := ih
    rw [← colon.scopes_eq, ← type.scopes_eq] at hscopes hnumbered
    exact ⟨hscopes, numbered_ascribe.2 hnumbered⟩
  | coerce _ word type ih =>
    obtain ⟨hscopes, hnumbered⟩ := ih
    rw [← word.scopes_eq, ← type.scopes_eq] at hscopes hnumbered
    exact ⟨hscopes, numbered_coerce.2 hnumbered⟩
  | call _ opens list _ ih iheach =>
    -- the callee was read before the parenthesis
    have hargs := (list.threadsAll id iheach).of_scopes opens.scopes_eq
    obtain ⟨hscopes, hall⟩ := ThreadsAll.cons ih hargs
    exact ⟨hscopes, numbered_call.2 hall⟩

/-! ## Programs -/

theorem State.scopes_ofTokens (file : String) (tokens : List Token) :
    (State.ofTokens file tokens).scopes = .empty := by
  cases tokens <;> rfl

/-- A program is numbered from 0 on, and no scope is around it. -/
theorem Reads.numbered_program {file : String} {tokens : List Token} {e : Exp Span} {s' : State}
    (h : Reads (State.ofTokens file tokens) e s') : Numbered [] 0 e s'.scopes.size := by
  have hnumbered := h.threads.numbered
  rw [State.scopes_ofTokens] at hnumbered
  exact hnumbered

end BranchIR
