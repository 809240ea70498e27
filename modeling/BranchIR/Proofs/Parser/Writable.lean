import BranchIR.Proofs.Parser.Reads
import BranchIR.Proofs.Phrase.Words

/-!
# Numbers in trees that were read

Trees built by hand may hold numbers that no source text can name: an integer type of width 0,
a literal that does not fit its width, an offset of more than 32 bits, or a bundle without
functions. A tree that was read holds none of these.
-/

namespace BranchIR

open Text (maxWord maxWideInt)

/-! ## Types -/

mutual

/-- The numbers in the type can be written in a source text. -/
def PrimTy.Writable : PrimTy → Prop
  | .int width => 1 ≤ width ∧ width ≤ Ty.maxIntWidth
  | .float _ => True
  | .ptr target => target.Writable

/-- The numbers in the type can be written in a source text. -/
def Ty.Writable : Ty → Prop
  | .void => True
  | .prim p => p.Writable
  | .vector length lane => length ≤ maxWord ∧ lane.Writable
  | .array length element => length ≤ maxWord ∧ element.Writable
  | .tuple fields => Ty.AllWritable fields
  | .fn params result => Ty.AllWritable params ∧ result.Writable

/-- The numbers in the types can be written in a source text. -/
def Ty.AllWritable : List Ty → Prop
  | [] => True
  | t :: ts => t.Writable ∧ Ty.AllWritable ts

end

/-- The types of a list can be written if each of them can. -/
private theorem Ty.allWritable_iff {ts : List Ty} : Ty.AllWritable ts ↔ ∀ t ∈ ts, t.Writable := by
  induction ts with
  | nil => simp [Ty.AllWritable]
  | cons t ts ih => rw [Ty.AllWritable, ih, List.forall_mem_cons]

/-- The type of a type word can be written. -/
private theorem Ty.writable_of_ofWord? {word : String} {ty : Ty} (h : Ty.ofWord? word = some ty) :
    ty.Writable := by
  cases Ty.ofWord?_eq_some.1 h with
  | void | float => trivial
  | int _ low high => exact ⟨low, high⟩

/-- A length that is read is a word. -/
private theorem ReadsLength.le {n : Nat} {s s' : State} (h : ReadsLength s n s') : n ≤ maxWord := by
  obtain ⟨_, offset, -⟩ := h
  exact Text.word?_le offset.2

/-- The numbers in a type that was read are in range. -/
theorem ReadsTy.writable {ty : Ty} {s s' : State} (h : ReadsTy s ty s') : ty.Writable := by
  induction h with
  | word _ names => exact Ty.writable_of_ofWord? names
  | pointer _ _ ih => exact ih
  | vector _ length _ _ ih => exact ⟨length.le, ih⟩
  | array _ length _ _ ih => exact ⟨length.le, ih⟩
  | tuple _ _ _ ih => exact Ty.allWritable_iff.2 (List.forall_mem_map.2 ih)
  | function _ _ _ _ _ _ ih ihresult =>
    exact ⟨Ty.allWritable_iff.2 (List.forall_mem_map.2 ih), ihresult⟩
  | group _ _ _ ih => exact ih

/-! ## Expressions -/

/-- A literal pattern fits 128 bits. -/
def Pattern.Writable : Pattern → Prop
  | .literal value => -maxWideInt - 1 ≤ value ∧ value ≤ maxWideInt
  | .default => True

/-- A constant offset fits a word. -/
def Step.Writable {ε : Type} : Step ε → Prop
  | .field n | .element n => n ≤ maxWord
  | .lane _ | .index _ => True

/-- The types in the head of a function can be written. -/
def Func.HeadWritable {α ε : Type} (f : Func α ε) : Prop :=
  f.result.Writable ∧ ∀ p ∈ f.params, p.ty.Writable

namespace Exp

variable {α : Type}

/-- The numbers in the root of the expression can be written in a source text, and a bundle has
    a function. -/
def RootWritable : Exp α → Prop
  | .int _ value width => (-maxWideInt - 1 ≤ value ∧ value ≤ maxWideInt) ∧ fits value width = true
  | .ascribe _ _ ty | .coerce _ _ ty | .letIn _ _ ty _ _ => ty.Writable
  | .caseOf _ _ arms => ∀ arm ∈ arms, arm.pattern.Writable
  | .recIn _ fs _ => fs ≠ [] ∧ ∀ f ∈ fs, f.HeadWritable
  | .gep _ _ path | .load _ _ path | .store _ _ path _ _ | .update _ _ path _ =>
    ∀ step ∈ path, step.Writable
  | .var .. | .prim .. | .call .. | .tuple .. | .vector .. => True

/-- All numbers in the expression can be written in a source text. -/
def Writable (e : Exp α) : Prop := ∀ node ∈ e.preorder, node.RootWritable

/-- A tree can be written if its root can, and its parts can. -/
theorem writable_iff {e : Exp α} :
    e.Writable ↔ e.RootWritable ∧ ∀ child ∈ e.children, child.Writable := by
  constructor
  · intro h
    have hchildren : ∀ child ∈ e.children, child.Writable :=
      fun _ hc node hnode => h node (mem_preorder_of_child hc hnode)
    exact ⟨h e (mem_preorder_self e), hchildren⟩
  · intro ⟨hroot, hchildren⟩ node hnode
    rcases mem_preorder_iff.1 hnode with rfl | ⟨child, hc, hnode⟩
    · exact hroot
    · exact hchildren child hc node hnode

end Exp

/-! ## What was read -/

section Read

variable {α : Type} {s s' : State}

/-- A literal that is read is within the widest integers, and fits its width. -/
private theorem literal?_bounds {text : String} {value : Int} {width : Nat}
    (h : literal? text = some (value, width)) :
    (-maxWideInt - 1 ≤ value ∧ value ≤ maxWideInt) ∧ fits value width = true := by
  simp only [literal?, Option.bind_eq_bind, Option.bind_eq_some_iff] at h
  obtain ⟨_, -, v, hv, w, -, h⟩ := h
  split at h
  · next hfits =>
    cases h
    exact ⟨Text.wideInt?_bounds hv, hfits⟩
  · cases h

/-- A pattern that is read can be written. -/
private theorem ReadsPattern.writable {pattern : Pattern} (h : ReadsPattern s pattern s') :
    pattern.Writable := by
  cases h with
  | default => trivial
  | literal _ reads => exact Text.wideInt?_bounds reads

/-- The constant offsets of a path that is read can be written. -/
private theorem ReadsPath.writable {path : List (Step (Piece (Exp Span)))}
    (h : ReadsPath s path s') :
    ∀ step ∈ path.map (Step.map Piece.item), step.Writable := by
  induction h with
  | nil => simp
  | field _ offset _ ih => exact List.forall_mem_cons.2 ⟨Text.word?_le offset.2, ih⟩
  | element _ offset _ _ ih => exact List.forall_mem_cons.2 ⟨Text.word?_le offset.2, ih⟩
  | lane _ _ _ ih => exact List.forall_mem_cons.2 ⟨trivial, ih⟩
  | index _ _ ih => exact List.forall_mem_cons.2 ⟨trivial, ih⟩

/-- The head of a function that is read can be written. -/
private theorem ReadsFunc.writable {f : Func Span (Piece α)} (h : ReadsFunc s f s') :
    f.HeadWritable := by
  cases h with
  | mk name opens list each items colon result =>
    refine ⟨result.writable, ?_⟩
    rw [items, List.forall_mem_map]
    intro p hp
    obtain ⟨_, _, _, -, -, -, hty, -⟩ := each p hp
    exact hty.writable

/-- A bundle that is read has a function, and the heads of its functions can be written. -/
private theorem ReadsFuncs.writable {fs : List (Func Span (Piece α))} (h : ReadsFuncs s fs s') :
    fs ≠ [] ∧ ∀ f ∈ fs, f.HeadWritable := by
  induction h with
  | last func => exact ⟨by simp, by simpa using func.writable⟩
  | more func _ _ ih => exact ⟨by simp, List.forall_mem_cons.2 ⟨func.writable, ih.2⟩⟩

end Read

/-- The numbers in an expression that was read are in range. -/
theorem Reads.writable {e : Exp Span} {s s' : State} (h : Reads s e s') : e.Writable := by
  -- the rule tells of the root, the induction hypotheses of the direct subexpressions
  induction h with
  | int _ reads => exact Exp.writable_iff.2 ⟨literal?_bounds reads, by simp [Exp.children]⟩
  | var => exact Exp.writable_iff.2 ⟨trivial, by simp [Exp.children]⟩
  | group _ _ _ ih => exact ih
  | tuple _ _ _ ih | vector _ _ _ ih | prim _ _ _ _ ih =>
    exact Exp.writable_iff.2 ⟨trivial, List.forall_mem_map.2 ih⟩
  | letIn _ _ _ type _ _ _ _ _ ihvalue ihbody =>
    exact Exp.writable_iff.2 ⟨type.writable, by simpa [Exp.children] using And.intro ihvalue ihbody⟩
  | @recIn fs body s s₁ s₂ s₃ s₄ s' _ _ _ funcs _ _ _ _ ihfuncs ihbody =>
    -- the grammar has no bundle without functions
    obtain ⟨hne, hheads⟩ := funcs.writable
    refine Exp.writable_iff.2 ⟨⟨by simpa using hne, ?_⟩, ?_⟩
    · rw [List.forall_mem_map]
      intro f hf
      simpa [Func.HeadWritable, Func.map, Param.map] using hheads f hf
    · rw [Exp.children, List.map_map, List.forall_mem_append, List.forall_mem_map,
        List.forall_mem_singleton]
      exact ⟨ihfuncs, ihbody⟩
  | caseOf _ _ _ _ heads _ ihscrutinee iharms =>
    refine Exp.writable_iff.2 ⟨?_, ?_⟩
    · rw [Exp.RootWritable, List.forall_mem_map]
      intro a ha
      -- a pattern was read from a number, so it can be written
      obtain ⟨_, hpattern, -⟩ := heads a ha
      exact hpattern.writable
    · rw [Exp.children, List.map_map, List.forall_mem_cons, List.forall_mem_map]
      exact ⟨ihscrutinee, iharms⟩
  | gep _ _ _ steps _ _ ihbase ihpath | load _ _ _ steps _ _ ihbase ihpath =>
    refine Exp.writable_iff.2 ⟨steps.writable, ?_⟩
    rw [Exp.children, offsets_map_item, List.forall_mem_cons, List.forall_mem_map]
    exact ⟨ihbase, ihpath⟩
  | store _ _ steps _ _ _ _ _ ihdest ihpath ihvalue ihbody =>
    refine Exp.writable_iff.2 ⟨steps.writable, ?_⟩
    rw [Exp.children, offsets_map_item, List.forall_mem_cons, List.forall_mem_append,
      List.forall_mem_map]
    exact ⟨ihdest, ihpath, by simpa using And.intro ihvalue ihbody⟩
  | update _ _ _ steps _ _ _ _ ihbase ihpath ihvalue =>
    refine Exp.writable_iff.2 ⟨steps.writable, ?_⟩
    rw [Exp.children, offsets_map_item, List.forall_mem_cons, List.forall_mem_append,
      List.forall_mem_map]
    exact ⟨ihbase, ihpath, by simpa using ihvalue⟩
  | ascribe _ _ type ih | coerce _ _ type ih =>
    exact Exp.writable_iff.2 ⟨type.writable, by simpa [Exp.children] using ih⟩
  | call _ _ _ _ ih iheach =>
    refine Exp.writable_iff.2 ⟨trivial, ?_⟩
    rw [Exp.children, List.forall_mem_cons, List.forall_mem_map]
    exact ⟨ih, iheach⟩

end BranchIR
