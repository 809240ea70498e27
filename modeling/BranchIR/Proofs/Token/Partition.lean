import BranchIR.Proofs.Token.Places

/-!
# Nothing is lost between tokens

The spans of the tokens cut a text into pieces: the pieces in the spans are the texts of the
tokens, and the pieces before, between and after them are white space and comments. So every
character of the text stands in one token or in one gap.
-/

namespace BranchIR

open Text (byteCount)

namespace Cuts

variable {file : String} {offset : Nat} {cs : List Char} {tokens front back : List Token}
  {t u : Token}

/-- Before the first token there is a gap. -/
theorem opening (h : Cuts file offset cs (t :: back)) :
    ∃ gap after, cs = gap ++ after ∧ t.span.start = offset + byteCount gap ∧ Gap after gap := by
  generalize htokens : t :: back = tokens at h
  induction h with
  | done =>
    cases htokens
    exact ⟨[], [], rfl, rfl, .nil⟩
  | @gap piece _ _ _ between _ ih =>
    -- a gap of several pieces
    obtain ⟨gap, after, rfl, hstart, hgap⟩ := ih htokens
    refine ⟨piece ++ gap, after, by simp, ?_, between.append hgap⟩
    rw [hstart, Text.byteCount_append, Nat.add_assoc]
  | token =>
    cases htokens
    exact ⟨[], _, rfl, rfl, .nil⟩

/-- Between a token and the next there is a gap. -/
theorem between (h : Cuts file offset cs (front ++ t :: u :: back)) :
    ∃ before gap after, cs = before ++ gap ++ after ∧ t.span.stop = offset + byteCount before ∧
      u.span.start = offset + byteCount (before ++ gap) ∧ Gap after gap := by
  generalize htokens : front ++ t :: u :: back = tokens at h
  -- both tokens lie in what is cut off first, or both in the rest, or one in each
  induction h generalizing front with
  | done =>
    have hlength := congrArg List.length htokens
    rw [List.length_append, List.length_cons, List.length_cons, List.length_singleton] at hlength
    omega
  | @gap piece _ _ _ _ _ ih =>
    obtain ⟨before, gap, after, rfl, hstop, hstart, hgap⟩ := ih htokens
    refine ⟨piece ++ before, gap, after, by simp, ?_, ?_, hgap⟩
    · rw [hstop, Text.byteCount_append, Nat.add_assoc]
    · rw [hstart, List.append_assoc, Text.byteCount_append piece, Nat.add_assoc]
  | @token _ piece _ _ _ _ _ _ _ rest ih =>
    cases front with
    | nil =>
      -- the token is the first one, and the gap opens what follows it
      obtain ⟨rfl, rfl⟩ := List.cons.inj htokens
      obtain ⟨gap, after, rfl, hstart, hgap⟩ := rest.opening
      refine ⟨piece, gap, after, by simp, rfl, ?_, hgap⟩
      rw [hstart, Text.byteCount_append, Nat.add_assoc]
    | cons first front =>
      obtain ⟨-, htokens⟩ := List.cons.inj htokens
      obtain ⟨before, gap, after, rfl, hstop, hstart, hgap⟩ := ih htokens
      refine ⟨piece ++ before, gap, after, by simp, ?_, ?_, hgap⟩
      · rw [hstop, Text.byteCount_append, Nat.add_assoc]
      · rw [hstart, List.append_assoc, Text.byteCount_append piece, Nat.add_assoc]

end Cuts

/-- The tokens of a file cut its text into their own texts and gaps. -/
structure Partition (file : String) (source : List Char) (tokens : List Token) : Prop where
  /-- The end of the input comes last and nowhere else, at the end of the text. -/
  closes : ∃ front, tokens = front ++ [Token.endAt (byteCount source) file] ∧
    ∀ t ∈ front, t.kind ≠ .endOfInput
  /-- All other tokens have a width. -/
  nonempty : ∀ t ∈ tokens, t.kind ≠ .endOfInput → t.span.start < t.span.stop
  /-- A token begins where those before it have ended. -/
  disjoint : tokens.Pairwise fun t u => t.span.stop ≤ u.span.start
  /-- The text of a token is what stands in its span; a word or a number ends where no
      character of words follows. -/
  text : ∀ t ∈ tokens, t.kind ≠ .endOfInput →
    ∃ before after, source = before ++ t.text.toList ++ after ∧
      t.span = ⟨byteCount before, byteCount (before ++ t.text.toList), file⟩ ∧
      (t.kind.isWord = true → Clean after)
  /-- Up to the first token there is a gap. -/
  opening : ∀ t back, tokens = t :: back →
    ∃ gap after, source = gap ++ after ∧ t.span.start = byteCount gap ∧ Gap after gap
  /-- From the end of a token to the beginning of the next there is a gap. -/
  between : ∀ front t u back, tokens = front ++ t :: u :: back →
    ∃ before gap after, source = before ++ gap ++ after ∧ t.span.stop = byteCount before ∧
      u.span.start = byteCount (before ++ gap) ∧ Gap after gap

variable {source file : String} {tokens : List Token}

/-- The tokens of a source text are a partition of it. -/
theorem tokenize_partition (h : tokenize source file = .ok tokens) :
    Partition file source.toList tokens := by
  have hcuts := tokensFrom_cuts h
  refine ⟨?_, fun t => hcuts.start_lt_stop, hcuts.spaced.imp (·.before), ?_, ?_, ?_⟩
  · simpa using hcuts.closes
  · intro t ht hkind
    simpa using hcuts.text ht hkind
  · rintro t back rfl
    simpa using hcuts.opening
  · rintro front t u back rfl
    simpa using hcuts.between

/-- Blanks and characters of several bytes, a sign, a mark that begins another, and a comment that
    nothing ends. -/
private def crowded : String := "// é\n　f=>-1i8//é"

/-- The name is at byte 9, and the comment after the number ends with the text. -/
theorem tokenize_partition_crowded :
    ∃ tokens, tokenize crowded "crowded" = .ok tokens ∧
      tokens.map (fun t => (t.text, t.span.start, t.span.stop)) =
        [("f", 9, 10), ("=>", 10, 12), ("-1i8", 12, 16), ("EOF", 20, 20)] ∧
      Partition "crowded" crowded.toList tokens := by
  -- the tokens are found by running the lexer
  have hrun : (tokenize crowded "crowded").toOption.map
      (List.map fun t => (t.text, t.span.start, t.span.stop)) =
        some [("f", 9, 10), ("=>", 10, 12), ("-1i8", 12, 16), ("EOF", 20, 20)] := by
    decide +kernel
  cases h : tokenize crowded "crowded" with
  | error e =>
    rw [h] at hrun
    cases hrun
  | ok tokens =>
    rw [h] at hrun
    exact ⟨tokens, rfl, Option.some.inj hrun, tokenize_partition h⟩

end BranchIR
