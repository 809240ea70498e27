import BranchIR.Proofs.Parser.Known
import BranchIR.Proofs.Parser.Onward

/-!
# Where the nodes of a tree come from

Every node of a tree that was read begins where a token does. A binder has the name of a token:
the one after the `let`, or the one that the function or the parameter begins with. A variable
is a token by itself, and stands for the innermost identity of the token's name among those that
are in scope around it.
-/

namespace BranchIR

open Exp

/-- The identity in a scope that has the name, the innermost one first. -/
def Scopes.innermost? (names : Scopes) (scope : List VarId) (name : String) : Option VarId :=
  scope.find? fun x => names.nameOf? x = some name

/-! ## Looking up names -/

/-- Names are looked up in the open scopes as they are in the list of identities, when these
    have the names that they finally have. -/
def Resolves (names σ : Scopes) (scope : List VarId) : Prop :=
  ∀ name, σ.find? name = names.innermost? scope name

namespace Resolves

variable {names σ σ' : Scopes} {scope : List VarId}

/-- In no scope nothing resolves. -/
theorem empty (names : Scopes) : Resolves names .empty [] := fun _ => rfl

/-- A new scope resolves what is around it. -/
private theorem push (h : Resolves names σ scope) : Resolves names σ.push scope := h

/-- The same scopes are open later on. -/
private theorem of_extends (h : Resolves names σ scope) (hσ : σ.Extends σ') :
    Resolves names σ' scope := by
  intro name
  rw [Scopes.find?, hσ.inner, hσ.outer]
  exact h name

/-- Names resolve with one more binding: the new name leads to the new identity, the others where
    they led. -/
theorem bind {name : String} (h : Resolves names σ scope)
    (hname : names.nameOf? σ.size = some name) :
    Resolves names (σ.bind name).2 (σ.size :: scope) := by
  intro other
  by_cases heq : other = name
  · subst heq
    rw [Scopes.find?_bind_self, Scopes.innermost?, List.find?_cons_of_pos (by simpa using hname)]
  · have hne : names.nameOf? σ.size ≠ some other := by
      rw [hname]
      exact fun hsome => heq (Option.some.inj hsome).symm
    rw [Scopes.find?_bind_of_ne _ heq, Scopes.innermost?,
      List.find?_cons_of_neg (by simpa using hne)]
    exact h other

/-- An identity may stand behind others that have other names. -/
private theorem innermost?_move {x : VarId} {xs : List VarId} {name : String}
    (h : names.nameOf? x = some name → ∀ y ∈ xs, names.nameOf? y ≠ some name) :
    names.innermost? (xs ++ x :: scope) name = names.innermost? (x :: xs ++ scope) name := by
  rw [Scopes.innermost?, Scopes.innermost?, List.cons_append]
  by_cases hx : names.nameOf? x = some name
  · have hnone : xs.find? (fun y => names.nameOf? y = some name) = none :=
      List.find?_eq_none.2 fun y hy => by simpa using h hx y hy
    rw [List.find?_append, hnone, Option.none_or, List.find?_cons_of_pos (by simpa using hx),
      List.find?_cons_of_pos (by simpa using hx)]
  · rw [List.find?_append, List.find?_cons_of_neg (by simpa using hx),
      List.find?_cons_of_neg (by simpa using hx), List.find?_append]

/-- Names that differ from each other are bound in any order. -/
theorem bindAll {texts : List String} (h : Resolves names σ scope) (hdistinct : texts.Nodup)
    (hnames : ∀ i, i < texts.length → names.nameOf? (σ.size + i) = texts[i]?) :
    Resolves names (σ.bindAll texts) (List.range' σ.size texts.length ++ scope) := by
  induction texts generalizing σ scope with
  | nil => exact h
  | cons text texts ih =>
    obtain ⟨hnot, hrest⟩ := List.nodup_cons.1 hdistinct
    have hfirst : names.nameOf? σ.size = some text := hnames 0 (by simp)
    have hlater : ∀ i, i < texts.length → names.nameOf? (σ.size + 1 + i) = texts[i]? := by
      intro i hi
      have hi' := hnames (i + 1) (by simpa using hi)
      rwa [List.getElem?_cons_succ, Nat.add_comm i, ← Nat.add_assoc] at hi'
    have hbound := ih (h.bind hfirst) hrest (by rwa [Scopes.size_bind])
    rw [Scopes.size_bind] at hbound
    intro name
    have hfind := hbound name
    rw [innermost?_move] at hfind
    · rw [List.length_cons, List.range'_succ]
      exact hfind
    · -- the first name is none of the later ones
      intro hx y hy hy'
      obtain ⟨i, hi, rfl⟩ := List.mem_range'.1 hy
      rw [Nat.one_mul, hlater i hi] at hy'
      rw [hfirst, Option.some.injEq] at hx
      exact hnot (hx ▸ List.mem_of_getElem? hy')

end Resolves

@[simp] theorem Scopes.names_pop (σ : Scopes) : σ.pop.names = σ.names := by
  unfold pop
  split <;> rfl

/-- The names that were handed out first have the identities from the size before on. -/
private theorem Scopes.nameOf?_of_bindAll {names σ : Scopes} {texts : List String}
    (h : (σ.bindAll texts).names.toList <+: names.names.toList) (i : Nat)
    (hi : i < texts.length) : names.nameOf? (σ.size + i) = texts[i]? := by
  obtain ⟨rest, hrest⟩ := h
  rw [nameOf?, ← Array.getElem?_toList, ← hrest, names_bindAll, List.append_assoc,
    List.getElem?_append_right (by simp [size]),
    List.getElem?_append_left (by simpa [size] using hi)]
  simp [size]

/-! ## Origins -/

section Origins

variable (tokens : List Token) (names : Scopes)

/-- The identity has the name of an identifier that begins where the annotation does. -/
def NamedAt (a : Span) (x : VarId) : Prop :=
  ∃ t ∈ tokens, t.kind = .identifier ∧ t.span.first = a.first ∧ names.nameOf? x = some t.text

/-- What a node of a tree has of the tokens that the tree was read from, in the scope around
    the node. -/
structure NodeOrigin (scope : List VarId) (e : Exp Span) : Prop where
  /-- The node begins where a token does. -/
  start : ∃ t ∈ tokens, t.span.first = e.ann.first
  /-- A variable is a token, and the innermost identity of the token's name. -/
  var : ∀ a x, e = .var a x → ∃ t ∈ tokens, t.kind = .identifier ∧ t.span = a ∧
    names.innermost? scope t.text = some x
  /-- A let begins with its word, and has the name that stands next. -/
  letIn : ∀ a x ty value body, e = .letIn a x ty value body → ∃ word t, [word, t] <:+: tokens ∧
    word.kind = .letWord ∧ word.span.first = a.first ∧ t.kind = .identifier ∧
    names.nameOf? x = some t.text
  /-- A function has the name that it begins with. -/
  func : ∀ f ∈ e.funcs, NamedAt tokens names f.ann f.name
  /-- So has a parameter. -/
  param : ∀ f ∈ e.funcs, ∀ p ∈ f.params, NamedAt tokens names p.ann p.name

/-- All nodes of the tree have their origins. -/
def Origins (scope : List VarId) (e : Exp Span) : Prop :=
  ∀ trail x, Leads e trail x → NodeOrigin tokens names (Trail.scope trail scope) x

variable {tokens names} {scope : List VarId} {e : Exp Span}

/-- The origins of an expression are those of its root, too. -/
theorem Origins.node (h : Origins tokens names scope e) : NodeOrigin tokens names scope e :=
  h [] e .here

/-- A tree has its origins in the tokens if its root has and its parts have. -/
private theorem Origins.of_parts (hnode : NodeOrigin tokens names scope e)
    (hparts : ∀ p ∈ e.parts, Origins tokens names (e.binds p.1 ++ scope) p.2) :
    Origins tokens names scope e := by
  intro trail x hl
  cases hl with
  | here => exact hnode
  | down hp rest => exact hparts _ hp _ _ rest

/-- A node that neither binds nor is a variable. -/
private theorem Origins.of_children (hstart : ∃ t ∈ tokens, t.span.first = e.ann.first)
    (hvar : e.var? = none) (hfuncs : e.funcs = []) (hown : ∀ role, e.own role = [])
    (hchildren : ∀ child ∈ e.children, Origins tokens names scope child) :
    Origins tokens names scope e := by
  refine .of_parts ⟨hstart, ?_, ?_, ?_, ?_⟩ fun p hp => ?_
  · rintro a x rfl
    cases hvar
  · rintro a x ty value body rfl
    exact absurd (hown .under) (by simp [own])
  · simp [hfuncs]
  · simp [hfuncs]
  · rw [binds, hown, hfuncs]
    exact hchildren p.2 (mem_children_of_mem_parts hp)

end Origins

/-! ## Reading a part -/

section Parts

variable {s s' : State} {e : Exp Span}

/-- Wherever the names before the expression resolve, what is read has its origins in the
    tokens. -/
def Traced (s : State) (e : Exp Span) (s' : State) : Prop :=
  ∀ names scope, s'.scopes.names.toList <+: names.names.toList → Resolves names s.scopes scope →
    Origins s.tokens names scope e

/-- A part is read between what stands before it and what stands after it. -/
private theorem Traced.part {s₁ s₂ : State} {names : Scopes} {scope : List VarId}
    (h : Traced s₁ e s₂) (hbefore : Onward s s₁) (hafter : Onward s₂ s')
    (hnames : s'.scopes.names.toList <+: names.names.toList)
    (hscope : Resolves names s.scopes scope) : Origins s.tokens names scope e := by
  have horigins := h names scope (hafter.scopes.names.trans hnames)
    (hscope.of_extends hbefore.scopes)
  rwa [hbefore.tokens] at horigins

end Parts

/-! ## Functions -/

section Functions

variable {s s' : State} {names : Scopes} {scope : List VarId}

/-- The tokens are the same, and more identities may have been handed out. -/
def Later (s s' : State) : Prop :=
  s'.tokens = s.tokens ∧ s.scopes.names.toList <+: s'.scopes.names.toList

/-- To come later in the tokens is kept from token to token. -/
private theorem along_later : Along Later where
  refl _ := ⟨rfl, List.prefix_refl _⟩
  trans h h' := ⟨h'.1.trans h.1, h.2.trans h'.2⟩
  takes h _ := ⟨h.tokens_eq, h.onward.scopes.names⟩

/-- Behind a parameter is later than before it. -/
private theorem ReadsParam.later {p : Piece (Param Span)} (h : ReadsParam p) :
    Later p.start p.stop := by
  refine ⟨h.along along_tokens_eq fun _ _ => rfl, ?_⟩
  rw [h.binds.2]
  simp [Scopes.bind]

/-- Parameters have the names that they begin with. -/
private theorem Listed.params_named {ps : List (Piece (Param Span))}
    (h : Listed .closeParen s ps s')
    (each : ∀ p ∈ ps, ReadsParam p) (hnames : s'.scopes.names.toList <+: names.names.toList) :
    ∀ p ∈ ps, NamedAt s.tokens names p.item.ann p.item.name := by
  intro p hp
  obtain ⟨hbefore, hafter⟩ := h.around along_later rfl (fun q hq => (each q hq).later) p hp
  obtain ⟨hid, hbound⟩ := (each p hp).binds
  have hbind : (p.start.scopes.bindAll [p.start.current.text]).names.toList <+:
      names.names.toList := by
    have hlater := hafter.2.trans hnames
    rw [hbound] at hlater
    exact hlater
  have hname := Scopes.nameOf?_of_bindAll hbind 0 (by simp)
  obtain ⟨s₁, s₂, s₃, hidentifier, -, -, -, hann, -, -⟩ := each p hp
  refine ⟨p.start.current, ?_, hidentifier.kind, ?_, ?_⟩
  · rw [← hbefore.1]
    exact p.start.current_mem_tokens
  · rw [hann, State.first_spanFrom]
    rfl
  · rw [hid]
    exact hname

/-- The parameters of a function have different names. -/
theorem Listed.params_distinct {ps : List (Piece (Param Span))} {close : Kind}
    (h : Listed close s ps s') (each : ∀ p ∈ ps, ReadsParam p) :
    (ps.map fun p => p.start.current.text).Nodup ∧
      ∀ p ∈ ps, s.scopes.bindsHere p.start.current.text = false := by
  -- no name is bound by the scope of the parameters when it is read
  have hfresh {p : Piece (Param Span)} (hp : ReadsParam p) :
      p.start.scopes.bindsHere p.start.current.text = false := by
    obtain ⟨_, _, _, _, hfresh, _⟩ := hp
    exact hfresh
  induction h with
  | nil => simp
  | @last p s' ends => simpa using hfresh (each p (by simp))
  | @more p ps s s' comma _ ih =>
    obtain ⟨hp, hps⟩ := List.forall_mem_cons.1 each
    obtain ⟨hdistinct, hlater⟩ := ih hps
    rw [comma.scopes_eq, hp.binds.2] at hlater
    simp only [Scopes.bindsHere_bind, Bool.or_eq_false_iff, beq_eq_false_iff_ne] at hlater
    refine ⟨List.nodup_cons.2 ⟨fun hmem => ?_, hdistinct⟩,
      List.forall_mem_cons.2 ⟨hfresh hp, fun q hq => (hlater q hq).2⟩⟩
    obtain ⟨q, hq, heq⟩ := List.mem_map.1 hmem
    exact (hlater q hq).1 heq

/-- The parameters of a function are named, and its body is read in their scope. -/
private theorem ReadsFunc.origins {f : Func Span (Piece (Exp Span))} (h : ReadsFunc s f s')
    (hbody : Traced f.body.start f.body.item f.body.stop)
    (hnames : s'.scopes.names.toList <+: names.names.toList)
    (honward : Onward f.body.start f.body.stop) (hscope : Resolves names s.scopes scope) :
    (∀ p ∈ f.params, NamedAt s.tokens names p.ann p.name) ∧
      Origins s.tokens names (f.params.map (·.name) ++ scope) f.body.item := by
  cases h with
  | @mk f params s s₁ s₂ s₃ s₄ s₅ _ name opens list each items colon result assignment _ leaves =>
    obtain ⟨hbound, hids⟩ := list.params each
    have hopen : s₂.scopes = s.scopes.push := by
      rw [opens.scopes_eq, State.scopes_withScopes, name.scopes_eq]
    have hname := name.tokens_eq
    have htokens : s₂.tokens = s.tokens := (along_tokens_eq.takes opens).trans hname
    have hstart : Onward s₃ f.body.start :=
      colon.onward.trans (result.onward.trans assignment.onward)
    -- closing the scope of the parameters takes no name away
    have hlast : f.body.stop.scopes.names.toList <+: names.names.toList := by
      rwa [leaves, State.scopes_withScopes, Scopes.names_pop] at hnames
    have hparams : s₃.scopes.names.toList <+: names.names.toList :=
      (hstart.trans honward).scopes.names.trans hlast
    have hpieces : s₃.tokens = s₂.tokens :=
      list.goesOn along_tokens_eq.goesOn rfl fun p hp => (each p hp).later.1
    refine ⟨?_, ?_⟩
    -- a parameter is named by the token that it begins with
    · rw [items, ← htokens]
      intro p hp
      obtain ⟨piece, hpiece, rfl⟩ := List.mem_map.1 hp
      exact list.params_named each hparams piece hpiece
    · -- the scope of the body: the parameters in a scope of their own
      have hinner : Resolves names s₃.scopes (f.params.map (·.name) ++ scope) := by
        have hpush : Resolves names s₂.scopes scope := by
          rw [hopen]
          exact hscope.push
        rw [hbound] at hparams ⊢
        rw [items, hids]
        have hall := hpush.bindAll (list.params_distinct each).1
          (Scopes.nameOf?_of_bindAll hparams)
        rwa [List.length_map] at hall
      have horigins := hbody names _ hlast (hinner.of_extends hstart.scopes)
      rwa [hstart.tokens, hpieces, htokens] at horigins

end Functions

/-! ## Bundles -/

/-- A name that is found is a token, and an identifier. -/
private theorem mem_identifier? {t : Token} {first : Option Token}
    (h : t ∈ State.identifier? first) :
    first = some t ∧ t.kind = .identifier := by
  simpa [State.identifier?, Option.filter_eq_some_iff] using h

/-- The look-ahead finds identifiers. -/
private theorem mem_laterNames {t : Token} {depth : Nat} {ts : List Token}
    (h : t ∈ State.laterNames depth ts) : t ∈ ts ∧ t.kind = .identifier := by
  induction ts generalizing depth with
  | nil => simp [State.laterNames] at h
  | cons first rest ih =>
    have hrest {d : Nat} (ht : t ∈ State.laterNames d rest) :
        t ∈ first :: rest ∧ t.kind = .identifier :=
      ⟨List.mem_cons_of_mem _ (ih ht).1, (ih ht).2⟩
    -- names are taken behind an `and` that is not in a form inside; all other tokens are passed
    -- over
    rw [State.laterNames.eq_def] at h
    dsimp only at h
    split at h
    · exact hrest h
    · exact hrest h
    · exact hrest h
    · cases depth with
      | zero => simp at h
      | succ depth => exact hrest h
    · cases depth with
      | zero =>
        rcases List.mem_append.1 h with hname | hlater
        · obtain ⟨hhead, hkind⟩ := mem_identifier? hname
          exact ⟨List.mem_cons_of_mem _ (List.mem_of_head? hhead), hkind⟩
        · exact hrest hlater
      | succ depth => exact hrest h
    · simp at h
    · exact hrest h

/-- The names that are found ahead are identifiers among the tokens. -/
private theorem State.mem_bundleNames {s : State} {t : Token} (h : t ∈ s.bundleNames) :
    t ∈ s.tokens ∧ t.kind = .identifier := by
  have hafter : t ∈ s.after ∧ t.kind = .identifier := by
    rcases List.mem_append.1 h with hname | hlater
    · obtain ⟨hhead, hkind⟩ := mem_identifier? hname
      exact ⟨List.mem_of_head? hhead, hkind⟩
    · exact mem_laterNames hlater
  exact ⟨by simp [State.tokens, hafter.1], hafter.2⟩

section Bundle

variable {s s₁ s₂ s₃ s₄ : State} {names : Scopes} {scope : List VarId}
  {fs : List (Func Span (Piece (Exp Span)))}

/-- The functions of a bundle have the names that they begin with. -/
private theorem ReadsFuncs.named (hrec : s.Takes .recWord s₁)
    (h : ReadsFuncs (s₁.withScopes s.bundleScopes) fs s₂) (hin : s₂.Takes .inWord s₃)
    (each : ∀ f ∈ fs, Reads f.body.start f.body.item f.body.stop) (named : BundleNamed s fs)
    (hnames : s.bundleScopes.names.toList <+: names.names.toList) :
    ∀ f ∈ fs, NamedAt s.tokens names f.ann f.name := by
  have hplaces := h.bundleNames hrec each hin
  have hids : fs.map (·.name) = List.range' s.scopes.size s.bundleNames.length :=
    named.eq_of_length (by simp [hplaces.length_eq])
  intro f hf
  -- the function, its name ahead and its identity stand at the same place in their lists
  obtain ⟨i, hi, rfl⟩ := List.getElem_of_mem hf
  have hi' : i < s.bundleNames.length := hplaces.length_eq ▸ hi
  have hfirst := hplaces.get hi hi'
  simp only [List.get_eq_getElem] at hfirst
  have hid : fs[i].name = s.scopes.size + i := by
    have hget : (fs.map (·.name))[i]? = (List.range' s.scopes.size s.bundleNames.length)[i]? := by
      rw [hids]
    simpa [hi, hi'] using hget
  have hname := Scopes.nameOf?_of_bindAll hnames i (by simpa using hi')
  obtain ⟨hmem, hkind⟩ := State.mem_bundleNames (List.getElem_mem hi')
  refine ⟨_, hmem, hkind, hfirst.symm, ?_⟩
  rw [hid]
  simpa [hi'] using hname

/-- The parts of a bundle are read in the scope of its names. -/
private theorem ReadsFuncs.resolves (hrec : s.Takes .recWord s₁)
    (h : ReadsFuncs (s₁.withScopes s.bundleScopes) fs s₂) (hin : s₂.Takes .inWord s₃)
    (each : ∀ f ∈ fs, Reads f.body.start f.body.item f.body.stop) (named : BundleNamed s fs)
    (distinct : firstRepeated? (s.bundleNames.map (·.text)) = none)
    (hnames : s.bundleScopes.names.toList <+: names.names.toList)
    (hscope : Resolves names s.scopes scope) :
    Resolves names s.bundleScopes (fs.map (·.name) ++ scope) := by
  have hlength := h.length_bundleNames hrec each hin
  have hids : fs.map (·.name) = List.range' s.scopes.size s.bundleNames.length :=
    named.eq_of_length (by simp [hlength])
  have hall := hscope.push.bindAll (firstRepeated?_eq_none.1 distinct)
    (Scopes.nameOf?_of_bindAll hnames)
  rw [List.length_map] at hall
  rw [hids]
  exact hall

end Bundle

/-! ## Expressions -/

section Forms

variable {s s₁ s' : State} {e : Exp Span}

/-- A form begins where its first token does. -/
private theorem State.exists_first (s s' : State) :
    ∃ t ∈ s.tokens, t.span.first = (s'.spanFrom s.position).first :=
  ⟨s.current, s.current_mem_tokens, (s'.first_spanFrom s.position).symm⟩

/-- An expression begins where a token does: its own first one, or that of the expression in
    parentheses or before a trailing form. -/
private theorem Reads.exists_first (h : Reads s e s') :
    ∃ t ∈ s.tokens, t.span.first = e.ann.first := by
  induction h with
  | int | var => exact ⟨_, State.current_mem_tokens _, rfl⟩
  | group opens _ _ ih =>
    rw [opens.onward.tokens] at ih
    exact ih
  | ascribe _ _ _ ih | coerce _ _ _ ih | call _ _ _ _ ih =>
    rw [ann, State.first_spanFrom]
    exact ih
  | _ => exact State.exists_first ..

/-- What a part of a form is read as, with the tokens before it and after it. -/
def PartTraced (s : State) (child : Exp Span) (s' : State) : Prop :=
  ∃ s₁ s₂, Traced s₁ child s₂ ∧ Onward s s₁ ∧ Onward s₂ s'

/-- What is traced between two states is traced between states around them. -/
private theorem PartTraced.mono {s₂ : State} {child : Exp Span} (h : PartTraced s₁ child s₂)
    (hbefore : Onward s s₁) (hafter : Onward s₂ s') : PartTraced s child s' := by
  obtain ⟨s₃, s₄, htraced, hb, ha⟩ := h
  exact ⟨s₃, s₄, htraced, hbefore.trans hb, ha.trans hafter⟩

/-- A form that is neither a binder nor a variable. -/
private theorem Traced.of_children (hstart : ∃ t ∈ s.tokens, t.span.first = e.ann.first)
    (hvar : e.var? = none) (hfuncs : e.funcs = []) (hown : ∀ role, e.own role = [])
    (hchildren : ∀ child ∈ e.children, PartTraced s child s') : Traced s e s' := by
  intro names scope hnames hscope
  refine .of_children hstart hvar hfuncs hown fun child hc => ?_
  obtain ⟨s₁, s₂, htraced, hbefore, hafter⟩ := hchildren child hc
  exact htraced.part hbefore hafter hnames hscope

/-- The items of a list. -/
private theorem Listed.traced {close : Kind} {ps : List (Piece (Exp Span))}
    (h : Listed close s ps s')
    (hclose : close.counts = false) (each : ∀ p ∈ ps, Reads p.start p.item p.stop)
    (ih : ∀ p ∈ ps, Traced p.start p.item p.stop) :
    ∀ child ∈ ps.map Piece.item, PartTraced s child s' := by
  intro child hc
  obtain ⟨p, hp, rfl⟩ := List.mem_map.1 hc
  obtain ⟨hbefore, hafter⟩ := h.around along_onward hclose (fun q hq => (each q hq).onward) p hp
  exact ⟨p.start, p.stop, ih p hp, hbefore, hafter⟩

/-- The offsets of a path. -/
private theorem ReadsPath.traced {path : List (Step (Piece (Exp Span)))} (h : ReadsPath s path s')
    (each : ∀ p ∈ path.filterMap Step.offset?, Reads p.start p.item p.stop)
    (ih : ∀ p ∈ path.filterMap Step.offset?, Traced p.start p.item p.stop) :
    ∀ child ∈ offsets (path.map (Step.map Piece.item)), PartTraced s child s' := by
  intro child hc
  rw [offsets_map_item] at hc
  obtain ⟨p, hp, rfl⟩ := List.mem_map.1 hc
  obtain ⟨hbefore, hafter⟩ := h.around along_onward (fun q hq => (each q hq).onward) p hp
  exact ⟨p.start, p.stop, ih p hp, hbefore, hafter⟩

/-- Reading a path leaves the scopes before open. -/
theorem ReadsPath.onward {path : List (Step (Piece (Exp Span)))} (h : ReadsPath s path s')
    (each : ∀ p ∈ path.filterMap Step.offset?, Reads p.start p.item p.stop) : Onward s s' :=
  h.goesOn along_onward.goesOn fun p hp => (each p hp).onward

/-- A base and the offsets of the path behind it. -/
private theorem ReadsPath.traced_based {base : Exp Span} {path : List (Step (Piece (Exp Span)))}
    (h : ReadsPath s₁ path s')
    (each : ∀ p ∈ path.filterMap Step.offset?, Reads p.start p.item p.stop)
    (start : Onward s s₁) (tbase : Traced s base s₁)
    (tpath : ∀ p ∈ path.filterMap Step.offset?, Traced p.start p.item p.stop) :
    ∀ child ∈ base :: offsets (path.map (Step.map Piece.item)), PartTraced s child s' := by
  refine List.forall_mem_cons.2 ⟨⟨_, _, tbase, along_onward.refl _, h.onward each⟩, ?_⟩
  exact fun child hc => (h.traced each tpath child hc).mono start (along_onward.refl _)

end Forms

section Binding

variable {s s₁ s₂ s₃ s₄ s₅ s₆ s' : State} {a : Span} {body : Exp Span}

/-- Two tokens that are taken one after the other stand next to each other. -/
private theorem State.Takes.infix {k k' : Kind} (h : s.Takes k s₁) (h' : s₁.Takes k' s₂) :
    [s.current, s₁.current] <:+: s.tokens := by
  have hupcoming := h.upcoming_eq
  rw [h'.upcoming_eq] at hupcoming
  exact ⟨s.behind.reverse, s₂.upcoming, by rw [State.tokens, ← State.upcoming, hupcoming]; simp⟩

/-- A let is named by the token after its word, in scope of its body only. -/
private theorem Traced.letIn {ty : Ty} {value : Exp Span} (word : s.Takes .letWord s₁)
    (name : s₁.Takes .identifier s₂) (hbefore : Onward s s₃) (hvalue : Onward s₃ s₄)
    (hin : Onward s₄ s₅)
    (hbody : Onward (s₅.withScopes (s₅.scopes.push.bind s₁.current.text).2) s₆)
    (leaves : s' = s₆.withScopes s₆.scopes.pop) (tvalue : Traced s₃ value s₄)
    (tbody : Traced (s₅.withScopes (s₅.scopes.push.bind s₁.current.text).2) body s₆) :
    Traced s (.letIn (s'.spanFrom s.position) s₅.scopes.size ty value body) s' := by
  intro names scope hnames hscope
  -- the scope of the body is closed at the end
  have hclosed : Onward s₅ s' := by
    subst leaves
    exact ⟨hbody.tokens, hbody.scopes.pop [s₁.current.text]⟩
  -- closing it takes no name away
  have hlast : s₆.scopes.names.toList <+: names.names.toList := by
    rwa [leaves, State.scopes_withScopes, Scopes.names_pop] at hnames
  have hname : names.nameOf? s₅.scopes.size = some s₁.current.text :=
    @Scopes.nameOf?_of_bindAll names s₅.scopes.push [s₁.current.text]
      (hbody.scopes.names.trans hlast) 0 (by simp)
  have hopen := hbefore.trans (hvalue.trans hin)
  refine .of_parts ⟨State.exists_first .., ?_, ?_, ?_, ?_⟩ ?_
  · rintro b x heq
    cases heq
  · rintro b x ty' value' body' heq
    cases heq
    refine ⟨_, _, word.infix name, word.kind, ?_, name.kind, hname⟩
    rw [State.first_spanFrom]
    rfl
  · simp [funcs]
  · simp [funcs]
  · simp only [parts, List.forall_mem_cons]
    refine ⟨?_, ?_, by simp⟩
    · exact tvalue.part hbefore (hin.trans hclosed) hnames hscope
    -- the body is read where the name resolves to what the let binds
    · have hinner := tbody names _ hlast ((hscope.of_extends hopen.scopes).push.bind hname)
      rw [← hopen.tokens]
      exact hinner

/-- The functions of a bundle are named by the tokens that they begin with, in scope of all its
    parts. -/
private theorem Traced.recIn {fs : List (Func Span (Piece (Exp Span)))} (word : s.Takes .recWord s₁)
    (distinct : firstRepeated? (s.bundleNames.map (·.text)) = none) (named : BundleNamed s fs)
    (funcs : ReadsFuncs (s₁.withScopes s.bundleScopes) fs s₂)
    (each : ∀ f ∈ fs, Reads f.body.start f.body.item f.body.stop) (inWord : s₂.Takes .inWord s₃)
    (hbody : Onward s₃ s₄) (leaves : s' = s₄.withScopes s₄.scopes.pop)
    (tfuncs : ∀ f ∈ fs, Traced f.body.start f.body.item f.body.stop) (tbody : Traced s₃ body s₄) :
    Traced s (.recIn (s'.spanFrom s.position) (fs.map (Func.map id Piece.item)) body) s' := by
  intro names scope hnames hscope
  -- the scope of the bundle is closed at the end, which takes no name away
  have hlast : s₄.scopes.names.toList <+: names.names.toList := by
    rwa [leaves, State.scopes_withScopes, Scopes.names_pop] at hnames
  have hbundle := funcs.onward each
  have hstart : s₁.tokens = s.tokens := word.onward.tokens
  have hafter := hbundle.trans inWord.onward
  -- the names of the functions are there before the first of them is read
  have hopen : s.bundleScopes.names.toList <+: names.names.toList :=
    (hafter.trans hbody).scopes.names.trans hlast
  have hresolves := funcs.resolves word inWord each named distinct hopen hscope
  -- each function is read in the scope of the names
  have hfunc : ∀ f ∈ fs, (∀ p ∈ f.params, NamedAt s.tokens names p.ann p.name) ∧
      Origins s.tokens names (f.params.map (·.name) ++ (fs.map (·.name) ++ scope))
        f.body.item := by
    intro f hf
    obtain ⟨-, haround⟩ := funcs.around along_onward fun g hg _ _ hreads =>
      hreads.onward (each g hg)
    obtain ⟨t, t', hreads, hb, ha⟩ := haround f hf
    have hrest := ha.trans (inWord.onward.trans hbody)
    have horigins := hreads.origins (tfuncs f hf) (hrest.scopes.names.trans hlast)
      (each f hf).onward (hresolves.of_extends hb.scopes)
    have htokens : t.tokens = s.tokens := hb.tokens.trans hstart
    rwa [htokens] at horigins
  -- the tree has the functions without the places that they were read between
  have hids : (fs.map (Func.map id Piece.item)).map (·.name) = fs.map (·.name) := by
    simp [Function.comp_def]
  refine .of_parts ⟨State.exists_first .., ?_, ?_, ?_, ?_⟩ ?_
  · rintro b x heq
    cases heq
  · rintro b x ty' value' body' heq
    cases heq
  · simp only [Exp.funcs, List.forall_mem_map]
    exact funcs.named word inWord each named hopen
  · simp only [Exp.funcs, List.forall_mem_map, Func.map]
    intro f hf p hp
    exact (hfunc f hf).1 p hp
  · simp only [parts, List.forall_mem_append, List.forall_mem_map, List.forall_mem_singleton]
    refine ⟨fun f hf => ?_, ?_⟩
    · rw [binds, own, Exp.funcs, hids, Func.paramNames_map, List.append_assoc]
      exact (hfunc f hf).2
    · have hinner := tbody names _ hlast (hresolves.of_extends hafter.scopes)
      have htokens : s₃.tokens = s.tokens := hafter.tokens.trans hstart
      rw [htokens] at hinner
      simp only [binds, own, Exp.funcs, hids, List.nil_append]
      exact hinner

end Binding

section Others

variable {s s₁ s₂ s₃ s₄ s₅ s₆ s' : State} {base value body : Exp Span}
  {path : List (Step (Piece (Exp Span)))}

/-- The parts of a case are its scrutinee and the bodies of its arms; a pattern is none. -/
private theorem Traced.caseOf {scrutinee : Exp Span} {arms : List (Piece (Arm (Piece (Exp Span))))}
    (word : s.Takes .caseWord s₁) (switch : Onward s₁ s₂) (opens : s₂.Takes .openCurly s₃)
    (list : Listed .closeCurly s₃ arms s') (heads : ∀ a ∈ arms, ReadsArm a)
    (each : ∀ a ∈ arms, Onward a.item.body.start a.item.body.stop)
    (tscrutinee : Traced s₁ scrutinee s₂)
    (tarms : ∀ a ∈ arms, Traced a.item.body.start a.item.body.item a.item.body.stop) :
    Traced s (.caseOf (s'.spanFrom s.position) scrutinee
      (arms.map fun a => a.item.map Piece.item)) s' := by
  -- an arm goes from its pattern to the end of its body
  have harm : ∀ a ∈ arms, Onward a.start a.item.body.start ∧ Onward a.item.body.stop a.stop := by
    intro a ha
    obtain ⟨_, _, _, hstop⟩ := heads a ha
    exact ⟨(heads a ha).goesOn along_onward.goesOn, hstop ▸ along_onward.refl _⟩
  have harms : ∀ a ∈ arms, Onward a.start a.stop := fun a ha =>
    (harm a ha).1.trans ((each a ha).trans (harm a ha).2)
  have hlist := list.goesOn along_onward.goesOn rfl harms
  have hopen := word.onward.trans (switch.trans opens.onward)
  refine .of_children (State.exists_first ..) rfl rfl (fun _ => rfl) fun child hc => ?_
  rcases List.mem_cons.1 hc with rfl | hc
  · exact ⟨_, _, tscrutinee, word.onward, opens.onward.trans hlist⟩
  · simp only [List.map_map, List.mem_map] at hc
    obtain ⟨a, ha, rfl⟩ := hc
    obtain ⟨hbefore, hafter⟩ := list.around along_onward rfl harms a ha
    exact ⟨_, _, tarms a ha, hopen.trans (hbefore.trans (harm a ha).1), (harm a ha).2.trans hafter⟩

/-- The value and the body of a store come behind its destination and its path. -/
private theorem Traced.store (word : s.Takes .storeWord s₁) (hpath : Onward s₁ s₃)
    (assignment : s₃.Takes .assignment s₄) (hvalue : Onward s₄ s₅) (inWord : s₅.Takes .inWord s₆)
    (hbody : Onward s₆ s') (tvalue : Traced s₄ value s₅) (tbody : Traced s₆ body s')
    (tbased : ∀ child ∈ base :: offsets (path.map (Step.map Piece.item)), PartTraced s₁ child s₃) :
    Traced s (.store (s'.spanFrom s.position) base (path.map (Step.map Piece.item)) value body)
      s' := by
  have hgiven := word.onward.trans (hpath.trans assignment.onward)
  have hlast := hvalue.trans (inWord.onward.trans hbody)
  have hall : ∀ child ∈ (base :: offsets (path.map (Step.map Piece.item))) ++ [value, body],
      PartTraced s child s' := by
    refine List.forall_mem_append.2 ⟨fun child hc => ?_, List.forall_mem_cons.2 ⟨?_, ?_⟩⟩
    · exact (tbased child hc).mono word.onward (assignment.onward.trans hlast)
    · exact ⟨_, _, tvalue, hgiven, inWord.onward.trans hbody⟩
    · refine List.forall_mem_singleton.2 ⟨_, _, tbody, ?_, along_onward.refl _⟩
      exact hgiven.trans (hvalue.trans inWord.onward)
  exact .of_children (State.exists_first ..) rfl rfl (fun _ => rfl) hall

/-- The value of an update comes behind its base and its path. -/
private theorem Traced.update (word : s.Takes .updateWord s₁) (opens : s₁.Takes .openParen s₂)
    (hpath : Onward s₂ s₄) (comma : s₄.Takes .comma s₅) (hvalue : Onward s₅ s₆)
    (ends : s₆.Takes .closeParen s') (tvalue : Traced s₅ value s₆)
    (tbased : ∀ child ∈ base :: offsets (path.map (Step.map Piece.item)), PartTraced s₂ child s₄) :
    Traced s (.update (s'.spanFrom s.position) base (path.map (Step.map Piece.item)) value) s' := by
  have hopen := word.onward.trans opens.onward
  have hall : ∀ child ∈ (base :: offsets (path.map (Step.map Piece.item))) ++ [value],
      PartTraced s child s' := by
    refine List.forall_mem_append.2 ⟨fun child hc => ?_, List.forall_mem_singleton.2 ?_⟩
    · exact (tbased child hc).mono hopen (comma.onward.trans (hvalue.trans ends.onward))
    · exact ⟨_, _, tvalue, hopen.trans (hpath.trans comma.onward), ends.onward⟩
  exact .of_children (State.exists_first ..) rfl rfl (fun _ => rfl) hall

end Others

/-- The nodes of an expression have their origins in the tokens that it was read from. -/
theorem Reads.traced {e : Exp Span} {s s' : State} (h : Reads s e s') : Traced s e s' := by
  -- names and scopes only grow, so what holds of a part where it ends still holds where the whole
  -- does
  induction h with
  | int token =>
    exact .of_children ⟨_, State.current_mem_tokens _, rfl⟩ rfl rfl (fun _ => rfl)
      (by simp [children])
  | @var _ s _ token found =>
    -- the name of the token is what the scopes resolve to the variable
    intro names scope _ hscope
    refine .of_parts ⟨⟨_, s.current_mem_tokens, rfl⟩, ?_, ?_, ?_, ?_⟩ ?_
    · rintro a x heq
      cases heq
      exact ⟨_, s.current_mem_tokens, token.kind, rfl, (hscope _).symm.trans found⟩
    · rintro a x ty value body heq
      cases heq
    · simp [funcs]
    · simp [funcs]
    · simp [parts]
  -- parentheses leave no node: the origins are those of what stands in them
  | group opens _ ends ih =>
    intro names scope hnames hscope
    exact ih.part opens.onward ends.onward hnames hscope
  -- a form without binders has its origins if its parts have theirs
  | tuple opens list each ih | vector opens list each ih =>
    refine .of_children (State.exists_first ..) rfl rfl (fun _ => rfl) fun child hc => ?_
    exact (list.traced rfl each ih child hc).mono opens.onward (along_onward.refl _)
  | prim word opens list each ih =>
    refine .of_children (State.exists_first ..) rfl rfl (fun _ => rfl) fun child hc => ?_
    have hopen := word.onward.trans opens.onward
    exact (list.traced rfl each ih child hc).mono hopen (along_onward.refl _)
  | letIn word name colon type assignment given inWord inner leaves ihvalue ihbody =>
    have htype := word.onward.trans (name.onward.trans (colon.onward.trans type.onward))
    exact .letIn word name (htype.trans assignment.onward) given.onward inWord.onward inner.onward
      leaves ihvalue ihbody
  | recIn word distinct named funcs each inWord inner leaves ihfuncs ihbody =>
    exact .recIn word distinct named funcs each inWord inner.onward leaves ihfuncs ihbody
  | caseOf word switch opens list heads each ihscrutinee iharms =>
    exact .caseOf word switch.onward opens list heads (fun a ha => (each a ha).onward) ihscrutinee
      iharms
  | gep word opens start steps each ends ihbase ihpath
  | load word opens start steps each ends ihbase ihpath =>
    refine .of_children (State.exists_first ..) rfl rfl (fun _ => rfl) fun child hc => ?_
    have hbased := steps.traced_based each start.onward ihbase ihpath child hc
    exact hbased.mono (word.onward.trans opens.onward) ends.onward
  | store word start steps each assignment given inWord inner ihdest ihpath ihvalue ihbody =>
    exact .store word (start.onward.trans (steps.onward each)) assignment given.onward inWord
      inner.onward ihvalue ihbody (steps.traced_based each start.onward ihdest ihpath)
  | update word opens start steps each comma given ends ihbase ihpath ihvalue =>
    exact .update word opens (start.onward.trans (steps.onward each)) comma given.onward ends
      ihvalue (steps.traced_based each start.onward ihbase ihpath)
  | ascribe inner mark type ih | coerce inner mark type ih =>
    refine .of_children ?_ rfl rfl (fun _ => rfl) fun child hc => ?_
    · rw [ann, State.first_spanFrom]
      -- a trailing form begins where its left side does
      exact inner.exists_first
    · obtain rfl := List.mem_singleton.1 hc
      exact ⟨_, _, ih, along_onward.refl _, mark.onward.trans type.onward⟩
  | call inner opens list each ih iheach =>
    refine .of_children ?_ rfl rfl (fun _ => rfl) fun child hc => ?_
    · rw [ann, State.first_spanFrom]
      exact inner.exists_first
    · have hlist := list.goesOn along_onward.goesOn rfl fun p hp => (each p hp).onward
      rcases List.mem_cons.1 hc with rfl | hc
      · exact ⟨_, _, ih, along_onward.refl _, opens.onward.trans hlist⟩
      · exact (list.traced rfl each iheach child hc).mono (inner.onward.trans opens.onward)
          (along_onward.refl _)

end BranchIR
