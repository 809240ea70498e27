import BranchIR.Proofs.Exp.Lexemes
import BranchIR.Proofs.Parser.Known
import BranchIR.Proofs.Parser.Writable

/-!
# What is written is a phrase

The lexemes of a type whose numbers can be written are a phrase of the type, and those of an
expression, where it is numbered, are a phrase of the grammar with the texts of the variables in
scope.
-/

namespace BranchIR

open Text (natText intText maxWord maxWideInt)

/-! ## Types -/

/-- The types of a list with what each is written with. -/
private theorem phrases_of_types {ts : List Ty} (h : ∀ t ∈ ts, TyPhrase t t.lexemes) :
    ∃ items : List (Ty × List Lexeme), items.map (·.1) = ts ∧
      Commas (items.map (·.2)) (separated Kind.comma.lexeme (Ty.lexemeLists ts)) ∧
      ∀ i ∈ items, TyPhrase i.1 i.2 := by
  refine ⟨ts.map fun t => (t, t.lexemes), by simp [Function.comp_def], ?_,
    List.forall_mem_map.2 h⟩
  rw [Ty.lexemeLists_eq_map, List.map_map]
  exact .separated _

mutual

theorem PrimTy.phrase : (p : PrimTy) → p.Writable → TyPhrase (.prim p) p.lexemes
  | .int width, h => by
    have hword : width ≤ maxWord := Nat.le_trans h.2 (by decide)
    exact .word (.int (Text.word?_natText hword) h.1 h.2)
  | .float kind, _ => .word (.float kind)
  | .ptr target, h => .pointer (target.phrase h)

/-- The lexemes of a type are a phrase of it. -/
theorem Ty.phrase : (ty : Ty) → ty.Writable → TyPhrase ty ty.lexemes
  | .void, _ => .word .void
  | .prim p, h => p.phrase h
  | .vector _ lane, h => .vector (Text.word?_natText h.1) (lane.phrase h.2)
  | .array _ element, h => .array (Text.word?_natText h.1) (element.phrase h.2)
  | .tuple fields, h => by
    obtain ⟨items, rfl, hlist, heach⟩ := phrases_of_types (Ty.phrase_all fields h)
    exact .tuple hlist heach
  | .fn params result, h => by
    obtain ⟨items, rfl, hlist, heach⟩ := phrases_of_types (Ty.phrase_all params h.1)
    exact .function hlist heach (result.phrase h.2)

/-- The same for the types of a list. -/
private theorem Ty.phrase_all : (ts : List Ty) → Ty.AllWritable ts → ∀ t ∈ ts, TyPhrase t t.lexemes
  | [], _ => by simp
  | t :: ts, h => List.forall_mem_cons.2 ⟨t.phrase h.1, Ty.phrase_all ts h.2⟩

end

/-! ## Parts of expressions -/

/-- A pattern that can be written is the phrase of itself. -/
theorem Pattern.phrase {pattern : Pattern} (h : pattern.Writable) :
    PatternPhrase pattern pattern.lexeme := by
  cases pattern with
  | default => exact .default
  | literal value => exact .literal (Text.wideInt?_intText h.1 h.2)

/-- What an arm is written with. -/
def Arm.branch {α : Type} (arm : Arm (Exp α)) : Branch :=
  ⟨arm.pattern, arm.pattern.lexeme, arm.body.lexemes⟩

/-- What a parameter is written with. -/
def Param.parameter {α : Type} (p : Param α) : Parameter :=
  ⟨VarId.text p.name, p.ty, p.ty.lexemes⟩

/-- What a function is written with. -/
def Func.member {α : Type} (f : Func α (Exp α)) : Member where
  name := VarId.text f.name
  params := f.params.map Param.parameter
  list := separated Kind.comma.lexeme (f.params.map Param.lexemes)
  result := f.result
  type := f.result.lexemes
  body := f.body.lexemes

section Parts

variable {α : Type}

theorem Func.paramNames_member (f : Func α (Exp α)) :
    f.member.paramNames = (f.params.map (·.name)).map VarId.text := by
  simp [Member.paramNames, member, Param.parameter]

theorem map_name_member (fs : List (Func α (Exp α))) :
    (fs.map Func.member).map Member.name = (fs.map (·.name)).map VarId.text := by
  simp [Func.member]

/-- The names are the texts of different identities. -/
theorem nodup_map_name_member {fs : List (Func α (Exp α))} {n : Nat}
    (hids : fs.map (·.name) = List.range' n fs.length) :
    ((fs.map Func.member).map Member.name).Nodup := by
  rw [map_name_member, hids]
  exact nodup_map_text n _

/-- Written functions with `and` between. -/
theorem map_phrase_member (fs : List (Func α (Exp α))) :
    (fs.map Func.member).map Member.phrase = Exp.funcLexemes fs := by
  rw [Exp.funcLexemes_eq_map, List.map_map]
  rfl

/-- The head of a function is right when its parameters are numbered. -/
theorem Func.headOk {f : Func α (Exp α)} {n : Nat} (hw : f.HeadWritable)
    (hparams : f.params.map (·.name) = List.range' n f.params.length) : f.member.HeadOk where
  list := by
    have hphrases : f.member.params.map (·.phrase) = f.params.map Param.lexemes := by
      rw [member, List.map_map]
      rfl
    rw [hphrases]
    exact .separated _
  types := List.forall_mem_map.2 fun p hp => p.ty.phrase (hw.2 p hp)
  distinct := by
    rw [paramNames_member, hparams]
    exact nodup_map_text n _
  result := f.result.phrase hw.1

/-- The lexemes of a path are a path of the lexemes of its offsets. -/
theorem Exp.pathPhrase {path : List (Step (Exp α))} (hw : ∀ step ∈ path, step.Writable) :
    PathPhrase (path.map (Step.map Exp.lexemes)) (Exp.pathLexemes path) := by
  induction path with
  | nil => exact .nil
  | cons step path ih =>
    obtain ⟨hstep, hpath⟩ := List.forall_mem_cons.1 hw
    have hrest := ih hpath
    cases step with
    | field n => exact .field (Text.word?_natText hstep) hrest
    | element n => exact .element (Text.word?_natText hstep) hrest
    | lane e => exact .lane hrest
    | index e => exact .index hrest

end Parts

/-! ## Expressions -/

/-- Nothing fits a width that integer types may not have. -/
theorem width_of_fits {value : Int} {width : Nat} (h : fits value width = true) :
    1 ≤ width ∧ width ≤ Ty.maxIntWidth := by
  have hwidth : ¬(width = 0 ∨ Ty.maxIntWidth < width) := by
    intro hout
    rw [fits, if_pos hout] at h
    cases h
  omega

/-- The width of a value that fits is a word. -/
theorem le_of_fits {value : Int} {width : Nat} (h : fits value width = true) : width ≤ maxWord :=
  Nat.le_trans (width_of_fits h).2 (by decide)

namespace Exp

variable {α : Type} {scope : List VarId} {n m : Nat}

/-- The lexemes are a phrase, wherever the expression is numbered. -/
def Phrased (e : Exp α) : Prop :=
  ∀ {scope : List VarId} {n m : Nat}, Numbered scope n e m →
    ExpPhrase (scope.map VarId.text) e.lexemes

/-- Expressions that are numbered one after the other. -/
theorem phrases_of_all {es : List (Exp α)} (h : ∀ e ∈ es, e.Phrased)
    (hnum : NumberedAll scope n es m) :
    ∀ u ∈ es.map lexemes, ExpPhrase (scope.map VarId.text) u := by
  induction es generalizing n with
  | nil => simp
  | cons e es ih =>
    obtain ⟨he, hes⟩ := List.forall_mem_cons.1 h
    obtain ⟨k, hfirst, hrest⟩ := hnum
    exact List.forall_mem_cons.2 ⟨he hfirst, ih hes hrest⟩

/-- The bodies of functions are phrases where the parameters are in scope as well. -/
theorem phrases_of_funcs {fs : List (Func α (Exp α))} (h : ∀ f ∈ fs, f.body.Phrased)
    (hw : ∀ f ∈ fs, f.HeadWritable) (hnum : NumberedFuncs scope n fs m) :
    ∀ f ∈ fs, f.member.HeadOk ∧
      ExpPhrase (f.member.paramNames ++ scope.map VarId.text) f.member.body := by
  induction fs generalizing n with
  | nil => simp
  | cons f fs ih =>
    obtain ⟨hf, hfs⟩ := List.forall_mem_cons.1 h
    obtain ⟨hwf, hwfs⟩ := List.forall_mem_cons.1 hw
    obtain ⟨hparams, k, hbody, hrest⟩ := hnum
    refine List.forall_mem_cons.2 ⟨⟨Func.headOk hwf hparams, ?_⟩, ih hfs hwfs hrest⟩
    rw [Func.paramNames_member, ← List.map_append]
    exact hf hbody

theorem commas_lexemeLists (es : List (Exp α)) :
    Commas (es.map lexemes) (separated Kind.comma.lexeme (lexemeLists es)) := by
  rw [lexemeLists_eq_map]
  exact .separated _

/-- Arms are written one after the other with commas between them. -/
theorem commas_armLexemes (arms : List (Arm (Exp α))) :
    Commas ((arms.map Arm.branch).map (·.phrase))
      (separated Kind.comma.lexeme (armLexemes arms)) := by
  rw [armLexemes_eq_map, List.map_map]
  exact .separated _

/-- The offsets of a path are phrases if each of them is where it is numbered. -/
private theorem phrases_of_path {path : List (Step (Exp α))} (h : ∀ e ∈ offsets path, e.Phrased)
    (hnum : NumberedAll scope n (offsets path) m) :
    ∀ u ∈ (path.map (Step.map lexemes)).filterMap Step.offset?,
      ExpPhrase (scope.map VarId.text) u := by
  rw [Step.offsets_map]
  exact phrases_of_all h hnum

/-- A bundle is a phrase when its functions and what comes behind `in` are: the names of the
    functions are in scope in all of them. -/
private theorem phrased_recIn {a : α} {fs : List (Func α (Exp α))} {body : Exp α}
    (hw : (recIn a fs body).RootWritable) (hfs : ∀ f ∈ fs, f.body.Phrased) (hbody : body.Phrased) :
    (recIn a fs body).Phrased := by
  intro scope n m hnum
  obtain ⟨hids, k, hfuncs, hinner⟩ := numbered_recIn.1 hnum
  have hall := phrases_of_funcs hfs hw.2 hfuncs
  rw [List.map_append, ← map_name_member] at hall
  have hinner := hbody hinner
  rw [List.map_append, ← map_name_member] at hinner
  have hphrase := ExpPhrase.recIn (by simpa using hw.1)
    (List.forall_mem_map.2 fun f hf => (hall f hf).1) (nodup_map_name_member hids)
    (List.forall_mem_map.2 fun f hf => (hall f hf).2) hinner
  rw [map_phrase_member] at hphrase
  simpa [lexemes] using hphrase.group

/-- An expression is a phrase when its direct subexpressions are. -/
private theorem phrased_of_children {e : Exp α} (hw : e.RootWritable)
    (h : ∀ child ∈ e.children, child.Phrased) : e.Phrased := by
  intro scope n m hnum
  -- what stands in parentheses is a phrase in a group
  cases e with
  | var a id => exact .var (List.mem_map_of_mem (numbered_var.1 hnum).1)
  | int a value width =>
    -- both numbers of a literal are small enough to be read again
    obtain ⟨hvalue, hfits⟩ := hw
    exact .int (.mk (Text.wideInt?_intText hvalue.1 hvalue.2)
      (Text.word?_natText (le_of_fits hfits)) hfits)
  | ascribe a inner ty =>
    have hinner := h inner (by simp [children]) (numbered_ascribe.1 hnum)
    simpa [lexemes] using (ExpPhrase.ascribe hinner (ty.phrase hw)).group
  | coerce a inner ty =>
    have hinner := h inner (by simp [children]) (numbered_coerce.1 hnum)
    simpa [lexemes] using (ExpPhrase.coerce hinner (ty.phrase hw)).group
  | prim a op args =>
    exact .prim op (commas_lexemeLists args) (phrases_of_all h (numbered_prim.1 hnum))
  | letIn a name ty value body =>
    obtain ⟨hgiven, hinner⟩ := numbered_letIn.1 hnum
    have hvalue := h value (by simp [children]) hgiven
    have hbody := h body (by simp [children]) hinner
    have hphrase := ExpPhrase.letIn (ty.phrase hw) hvalue hbody
    -- the body is numbered with the name in scope, as the phrase of a let asks for
    simpa [lexemes, VarId.lexeme, Lexeme.name] using hphrase.group
  | call a callee args =>
    obtain ⟨hcallee, hargs⟩ := List.forall_mem_cons.1 h
    -- the numbers of the arguments begin where those of the callee end
    obtain ⟨k, hfirst, hrest⟩ := numbered_call.1 hnum
    exact .call (hcallee hfirst) (commas_lexemeLists args) (phrases_of_all hargs hrest)
  | caseOf a scrutinee arms =>
    obtain ⟨hscrutinee, harms⟩ := List.forall_mem_cons.1 h
    obtain ⟨k, hfirst, hrest⟩ := numbered_caseOf.1 hnum
    have hbodies := phrases_of_all harms hrest
    rw [List.map_map, List.forall_mem_map] at hbodies
    exact .caseOf (hscrutinee hfirst) (commas_armLexemes arms)
      (List.forall_mem_map.2 fun arm harm => Pattern.phrase (hw arm harm))
      (List.forall_mem_map.2 hbodies)
  | recIn a fs body =>
    rw [children, List.forall_mem_append, List.forall_mem_map, List.forall_mem_singleton] at h
    exact phrased_recIn hw h.1 h.2 hnum
  | tuple a elems =>
    exact .tuple (commas_lexemeLists elems) (phrases_of_all h (numbered_tuple.1 hnum))
  | vector a elems =>
    exact .vector (commas_lexemeLists elems) (phrases_of_all h (numbered_vector.1 hnum))
  | gep a base path =>
    obtain ⟨hbase, hoffsets⟩ := List.forall_mem_cons.1 h
    obtain ⟨k, hfirst, hrest⟩ := numbered_gep.1 hnum
    exact .gep (hbase hfirst) (pathPhrase hw) (phrases_of_path hoffsets hrest)
  | load a base path =>
    obtain ⟨hbase, hoffsets⟩ := List.forall_mem_cons.1 h
    obtain ⟨k, hfirst, hrest⟩ := numbered_load.1 hnum
    exact .load (hbase hfirst) (pathPhrase hw) (phrases_of_path hoffsets hrest)
  | store a dest path value body =>
    rw [children, List.forall_mem_cons, List.forall_mem_append] at h
    obtain ⟨hdest, hoffsets, hrest⟩ := h
    obtain ⟨i, hfirst, j, hsteps, k, hgiven, hinner⟩ := numbered_store.1 hnum
    have hphrase := ExpPhrase.store (hdest hfirst) (pathPhrase hw)
      (phrases_of_path hoffsets hsteps) (hrest value (by simp) hgiven)
      (hrest body (by simp) hinner)
    simpa [lexemes] using hphrase.group
  | update a base path value =>
    rw [children, List.forall_mem_cons, List.forall_mem_append] at h
    obtain ⟨hbase, hoffsets, hrest⟩ := h
    obtain ⟨j, hfirst, k, hsteps, hgiven⟩ := numbered_update.1 hnum
    exact .update (hbase hfirst) (pathPhrase hw) (phrases_of_path hoffsets hsteps)
      (hrest value (by simp) hgiven)

/-- The lexemes of an expression are a phrase of the grammar. -/
theorem phrase {e : Exp α} (hw : e.Writable) : e.Phrased := by
  induction e using Exp.induct with
  | step e ih =>
    obtain ⟨hroot, hchildren⟩ := writable_iff.1 hw
    exact phrased_of_children hroot fun child hc => ih child hc (hchildren child hc)

end Exp

end BranchIR
