import BranchIR.Proofs.Nesting
import BranchIR.Proofs.Parser.FormsText
import BranchIR.Proofs.Phrase.Written
import BranchIR.Proofs.Token.Partition
import BranchIR.Proofs.Typing.Sizes

/-!
# Types and their texts

The text of a type is read as the type again, if the widths in it are those that integer types may
have and its lengths are words. The parser gives only types of this kind. So does the checker: it
makes up no widths, and a vector is no longer than the source text that its elements stand in.
-/

namespace BranchIR

open Text (maxWord byteCount)

variable {source file : String}

/-- The text of the type is read as the type, up to the end of the input. -/
def Ty.ReadsBack (ty : Ty) : Prop :=
  ∀ file, ∃ tokens s', tokenize ty.text file = .ok tokens ∧
    Grammar.full.ty (State.ofTokens file tokens) = .ok ty s' ∧ s'.current.kind = .endOfInput

/-- The text of a type is read as the type, if the numbers in it can be written. -/
theorem Ty.readsBack {ty : Ty} (h : ty.Sized maxWord) : ty.ReadsBack := by
  intro file
  obtain ⟨tokens, htokens, hlexemes⟩ := tokenize_of_lexes ty.spells.lexes file
  obtain ⟨s', hshows, hend⟩ := State.shows_ofTokens hlexemes file
  have hphrase := ty.phrase (ty.writable_iff_sized.2 h)
  have hread : Runs Grammar.full.ty (State.ofTokens file tokens) .empty s' fun t _ => t = ty :=
    hphrase.ty_run hshows rfl
  obtain ⟨_, σ', hrun, rfl⟩ := hread
  rw [← State.scopes_ofTokens file tokens, State.withScopes_scopes] at hrun
  exact ⟨tokens, _, htokens, hrun, hend⟩

/-- The numbers in a type that the parser gives can be written. -/
private theorem ty_sized {ty : Ty} {s s' : State} (hs : s.Ended)
    (h : Grammar.full.ty s = .ok ty s') :
    ty.Sized maxWord := by
  obtain ⟨hreads, -⟩ := ty_sound _ _ _ hs h
  exact ty.writable_iff_sized.1 hreads.writable

/-! ## Recorded types -/

/-- The numbers in an expression from which types are made are in range if the expression can be
    written and has no longer vectors. -/
private theorem Exp.Writable.sized {α : Type} {e : Exp α} (h : e.Writable) {bound : Nat}
    (hbound : maxWord ≤ bound)
    (hvectors : ∀ a elems, .vector a elems ∈ e.preorder → elems.length ≤ bound) :
    e.Sized bound := by
  have hty {ty : Ty} (hw : ty.Writable) : ty.Sized bound :=
    (ty.writable_iff_sized.1 hw).mono hbound
  intro node hnode
  have hroot := h node hnode
  cases node with
  | int a value width => exact Ty.sized_int.2 (width_of_fits hroot.2)
  | ascribe | coerce | letIn => exact hty hroot
  | recIn a fs body =>
    intro f hf
    obtain ⟨hresult, hparams⟩ := hroot.2 f hf
    exact Ty.sized_fn.2 ⟨List.forall_mem_map.2 fun p hp => hty (hparams p hp), hty hresult⟩
  | vector a elems => exact hvectors a elems hnode
  | _ => trivial

/-- A vector in a program has no more elements than the source text has bytes. -/
private theorem readProgram_vector_length {program : Program}
    (h : readProgram source file = .ok program)
    {s : Span} {elems : List (Exp Span)} (hv : .vector s elems ∈ program.tree.preorder) :
    elems.length ≤ byteCount source.toList := by
  obtain ⟨tokens, htokens, hnested, -⟩ := readProgram_nested h
  have hnode := hnested _ hv
  -- the vector ends where a token does, and so inside the text
  obtain ⟨t, ht, hkind, hstop⟩ := hnode.onTokens.stops
  obtain ⟨before, after, htext, hspan, -⟩ := (tokenize_partition htokens).text t ht hkind
  have hend : s.stop ≤ byteCount source.toList := by
    have heq : s.stop = byteCount (before ++ t.text.toList) :=
      hstop.symm.trans (congrArg Span.stop hspan)
    rw [heq, htext, Text.byteCount_append (before ++ t.text.toList)]
    exact Nat.le_add_right ..
  -- its elements stand in it one after the other, and none of them is empty
  have helem : ∀ x ∈ (Exp.vector s elems).spansBelow, x.start < x.stop := by
    intro x hx
    obtain ⟨p, hp, rfl⟩ := List.mem_map.1 hx
    obtain ⟨e, he, rfl⟩ := List.mem_map.1 hp
    have hmem : e ∈ (Exp.vector s elems).preorder :=
      Exp.mem_preorder_of_child he (Exp.mem_preorder_self e)
    exact (hnested e (Exp.preorder_trans hmem hv)).onTokens.nonempty
  have hlength := hnode.below.length_le (Nat.le_of_lt hnode.onTokens.nonempty) helem
  rw [Exp.spansBelow, List.length_map, Exp.parts, List.length_map] at hlength
  exact Nat.le_trans hlength (Nat.le_trans (Nat.sub_le ..) hend)

/-- The widths in the types recorded in a checked program are in range, and the lengths are words
    or at most the number of bytes of the source text. -/
theorem checkSource_anns_sized {t : Exp Checked} (h : checkSource source file = .ok t) :
    ∀ a ∈ t.anns, a.ty.Sized (max maxWord (byteCount source.toList)) := by
  obtain ⟨program, hread, hcheck⟩ := checkSource_eq_ok.1 h
  obtain ⟨_, _, -, hreads, -⟩ := readProgram_sound hread
  have hsized : program.tree.Sized (max maxWord (byteCount source.toList)) := by
    refine hreads.writable.sized (Nat.le_max_left ..) fun s elems hv => ?_
    exact Nat.le_trans (readProgram_vector_length hread hv) (Nat.le_max_right ..)
  rw [← Typing.typed_erases _ _ _ _ hcheck, Exp.sized_mapAnn] at hsized
  exact (Typing.reinfers_of_typed hcheck).sized (Env.empty_sized true) hsized

/-- Types print and parse back. The text of a type is read as the type up to the end of the input,
    if the widths in the type are in range and its lengths are words, and every type that the parser
    gives is such a type. The types recorded in a checked program have widths in range as well, and
    their lengths are words where the source text has no more bytes than a word counts. -/
theorem Ty.text_reads_back :
    (∀ ty : Ty, ty.WidthsFit → ty.LengthsWithin maxWord → ty.ReadsBack) ∧
    (∀ (s : State) (ty : Ty) (s' : State), s.Ended → Grammar.full.ty s = .ok ty s' →
      ty.WidthsFit ∧ ty.ReadsBack) ∧
    ∀ (source file : String) (t : Exp Checked), checkSource source file = .ok t →
      ∀ a ∈ t.anns, a.ty.WidthsFit ∧
        (byteCount source.toList ≤ maxWord → a.ty.LengthsWithin maxWord ∧ a.ty.ReadsBack) := by
  refine ⟨fun ty hwidths hlengths => readsBack ⟨hwidths, hlengths⟩, fun s ty s' hs hrun => ?_,
    fun source file t h a ha => ?_⟩
  · have hsized := ty_sized hs hrun
    exact ⟨hsized.widths, readsBack hsized⟩
  · have hsized := checkSource_anns_sized h a ha
    refine ⟨hsized.widths, fun hsource => ?_⟩
    rw [Nat.max_eq_left hsource] at hsized
    exact ⟨hsized.lengths, readsBack hsized⟩

/-- A function type whose parameter is a pointer to a vector of pointers, and whose result is a
    function type again. -/
private def layered : Ty :=
  .fn [.ptr (.vector 4 (.ptr (.tuple [.void, .int 1]))), .array 2 (.float .half)]
    (.fn [] (.int 8388608))

/-- A function of a vector, called with a vector that is built in place. -/
private def lanes : String :=
  "rec f(p: <2 x &i8>): [3 x half] = f(p) in f(<0i8 as &i8, 1i8 as &i8>)"

/-- The type itself, the type that the parser gives for its text, and the types recorded in the
    program. -/
theorem Ty.text_reads_back_layered :
    layered.WidthsFit ∧ layered.LengthsWithin maxWord ∧ layered.ReadsBack ∧
    (∃ s ty s', s.Ended ∧ Grammar.full.ty s = .ok ty s' ∧ ty.WidthsFit ∧ ty.ReadsBack) ∧
    ∃ t, checkSource lanes "lanes" = .ok t ∧ byteCount lanes.toList ≤ maxWord ∧
      ∀ a ∈ t.anns, a.ty.WidthsFit ∧ a.ty.LengthsWithin maxWord ∧ a.ty.ReadsBack := by
  obtain ⟨hprinted, hparsed, hrecorded⟩ := text_reads_back
  -- the numbers of one type are compared with their bounds
  have hwidths : layered.WidthsFit := by
    unfold WidthsFit
    decide
  have hlengths : layered.LengthsWithin maxWord := by
    unfold LengthsWithin
    decide
  have hreads := hprinted layered hwidths hlengths
  refine ⟨hwidths, hlengths, hreads, ?_, ?_⟩
  · obtain ⟨tokens, s', -, hrun, -⟩ := hreads "layered"
    have hended := State.ofTokens_ended "layered" tokens
    exact ⟨_, layered, s', hended, hrun, hparsed _ _ _ hended hrun⟩
  · -- that the program is accepted is decided by running the checker on it
    have hrun : (checkSource lanes "lanes").toOption.isSome = true := by
      decide +kernel
    have hsource : byteCount lanes.toList ≤ maxWord := of_decide_eq_true (by decide +kernel)
    cases ht : checkSource lanes "lanes" with
    | error e =>
      rw [ht] at hrun
      cases hrun
    | ok t =>
      refine ⟨t, rfl, hsource, fun a ha => ?_⟩
      obtain ⟨hfit, hrest⟩ := hrecorded lanes "lanes" t ht a ha
      exact ⟨hfit, hrest hsource⟩

end BranchIR
