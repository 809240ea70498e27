import BranchIR.Proofs.Token.Front

/-!
# Where tokens stand

`Cuts` says that a text is taken apart into gaps and tokens, and where each token stands.
What the lexer finds is such a cut. All tokens, and the errors of the lexer, stand between two
characters of the text, and never in front of a blank.
-/

namespace BranchIR

open Text (byteCount isBlank)

/-- The text that begins at the byte offset of a file is cut into gaps and tokens. -/
inductive Cuts (file : String) : Nat → List Char → List Token → Prop
  | done {offset} : Cuts file offset [] [Token.endAt offset file]
  | gap {piece cs offset tokens} (between : Gap cs piece)
      (rest : Cuts file (offset + byteCount piece) cs tokens) :
      Cuts file offset (piece ++ cs) tokens
  | token {kind piece cs offset tokens} (nonempty : piece ≠ []) (ends : kind ≠ .endOfInput)
      (spelled : Lexeme.spelled ⟨kind, String.ofList piece⟩ = true)
      (clean : kind.isWord = true → Clean cs)
      (rest : Cuts file (offset + byteCount piece) cs tokens) :
      Cuts file offset (piece ++ cs)
        (⟨kind, String.ofList piece, ⟨offset, offset + byteCount piece, file⟩⟩ :: tokens)

/-- The token is not the end of the input, it is not empty, and the other one begins after it. -/
structure Token.Precedes (t u : Token) : Prop where
  kind : t.kind ≠ .endOfInput
  nonempty : t.span.start < t.span.stop
  before : t.span.stop ≤ u.span.start

/-- Each token stands before those that come later. -/
def Spaced (tokens : List Token) : Prop := tokens.Pairwise Token.Precedes

/-! ## Cuts -/

/-- A place of the text that begins at the byte offset, where a character stands that is no blank,
    or where the text ends. -/
def Stands (file : String) (offset : Nat) (cs : List Char) (p : Position) : Prop :=
  ∃ before after, cs = before ++ after ∧ p = ⟨offset + byteCount before, file⟩ ∧
    ∀ c ∈ after.head?, isBlank c = false

namespace Stands

variable {file : String} {offset : Nat}

theorem start {c : Char} (cs : List Char) (h : isBlank c = false) :
    Stands file offset (c :: cs) ⟨offset, file⟩ :=
  ⟨[], c :: cs, rfl, rfl, by simpa using h⟩

theorem nil : Stands file offset [] ⟨offset, file⟩ := ⟨[], [], rfl, rfl, by simp⟩

/-- A place of a text is not past its end. -/
theorem offset_le {cs : List Char} {p : Position} (h : Stands file offset cs p) :
    p.offset ≤ offset + byteCount cs := by
  obtain ⟨before, after, rfl, rfl, -⟩ := h
  rw [Text.byteCount_append, ← Nat.add_assoc]
  exact Nat.le_add_right ..

/-- A place further on in a text. -/
theorem append {cs : List Char} {p : Position} (piece : List Char)
    (h : Stands file (offset + byteCount piece) cs p) : Stands file offset (piece ++ cs) p := by
  obtain ⟨before, after, rfl, rfl, hafter⟩ := h
  exact ⟨piece ++ before, after, by simp, by rw [Text.byteCount_append, Nat.add_assoc], hafter⟩

/-- A place after the first characters of a text. -/
theorem after {c : Char} {cs : List Char} {n : Nat} {p : Position}
    (h : Stands file (offset + byteCount (c :: cs.take n)) (cs.drop n) p) :
    Stands file offset (c :: cs) p := by
  have hplace := h.append
  rwa [List.cons_append, List.take_append_drop] at hplace

/-- A place after a token. -/
private theorem afterToken {kind : Kind} {c : Char} {cs text : List Char} {p : Position}
    (hfront : front c cs = .token kind text)
    (h : Stands file (offset + byteCount text) (cs.drop (text.length - 1)) p) :
    Stands file offset (c :: cs) p := by
  rw [← front_text hfront]
  exact h.append

end Stands

/-- What is found in a text is a cut of it. The tokens, and what a text is refused for, stand in
    front of no blank. -/
private theorem tokensFrom_spec (file : String) (offset : Nat) (cs : List Char) :
    match tokensFrom file offset cs with
    | .ok tokens => Cuts file offset cs tokens ∧ ∀ t ∈ tokens, Stands file offset cs t.span.first
    | .error e => Stands file offset cs e.position := by
  induction offset, cs using tokensFrom.induct with
  -- the end of the input stands where the text ends
  | case1 offset =>
    rw [tokensFrom]
    exact ⟨.done, List.forall_mem_singleton.2 .nil⟩
  | case2 offset c cs more hfront ih =>
    rw [tokensFrom, hfront]
    dsimp only
    cases hrest : tokensFrom file (offset + byteCount (c :: cs.take more)) (cs.drop more) with
    | ok tokens =>
      simp only [hrest] at ih
      -- a gap is put in front of what the rest is cut into
      have hcut := Cuts.gap (front_between hfront) ih.1
      rw [List.cons_append, List.take_append_drop] at hcut
      exact ⟨hcut, fun t ht => (ih.2 t ht).after⟩
    | error e =>
      simp only [hrest] at ih
      exact ih.after
  | case3 offset c cs kind text hfront stop ih =>
    rw [tokensFrom, hfront]
    dsimp only
    cases hrest : tokensFrom file (offset + byteCount text) (cs.drop (text.length - 1)) with
    | ok tokens =>
      simp only [stop, hrest] at ih
      -- a token is put in front of it with all that the front of the text tells of it
      have hcut := Cuts.token (front_text_ne_nil hfront) (front_ne_endOfInput hfront)
        (front_spelled hfront) (front_clean hfront) ih.1
      rw [front_text hfront] at hcut
      have hc : isBlank c = false := isBlank_of_front hfront (by simp)
      exact ⟨hcut, List.forall_mem_cons.2 ⟨.start cs hc, fun t ht => (ih.2 t ht).afterToken hfront⟩⟩
    | error e =>
      simp only [stop, hrest] at ih
      exact ih.afterToken hfront
  | case4 offset c cs more hfront =>
    rw [tokensFrom, hfront]
    exact .start cs (isBlank_of_front hfront (by simp))
  | case5 offset c cs hfront =>
    rw [tokensFrom, hfront]
    exact .start cs (isBlank_of_front hfront (by simp))

section Run

variable {file : String} {offset : Nat} {cs : List Char} {tokens : List Token}

/-- What is found in a text is a cut of it. -/
theorem tokensFrom_cuts (h : tokensFrom file offset cs = .ok tokens) :
    Cuts file offset cs tokens := by
  have hspec := tokensFrom_spec file offset cs
  rw [h] at hspec
  exact hspec.1

/-- A token stands in front of no blank, be it the end of the input. -/
theorem tokensFrom_stands (h : tokensFrom file offset cs = .ok tokens) {t : Token}
    (ht : t ∈ tokens) : Stands file offset cs t.span.first := by
  have hspec := tokensFrom_spec file offset cs
  rw [h] at hspec
  exact hspec.2 t ht

/-- A text is refused in front of a character that is no blank. -/
theorem tokensFrom_error {e : Error} (h : tokensFrom file offset cs = .error e) :
    Stands file offset cs e.position := by
  have hspec := tokensFrom_spec file offset cs
  rwa [h] at hspec

/-- Identifiers are words that are no numbers and not reserved. -/
theorem tokensFrom_isName (file : String) (offset : Nat) (cs : List Char) :
    ∀ tokens, tokensFrom file offset cs = .ok tokens →
      ∀ t ∈ tokens, t.kind = .identifier → isName t.text = true := by
  -- only a token of a word can be an identifier, and the text of that token is the word
  induction offset, cs using tokensFrom.induct with
  | case1 offset =>
    rw [tokensFrom]
    intro tokens h
    cases h
    refine List.forall_mem_singleton.2 fun hk => ?_
    cases hk
  | case2 offset c cs more hfront ih =>
    rw [tokensFrom, hfront]
    exact ih
  | case3 offset c cs kind text hfront stop ih =>
    rw [tokensFrom, hfront]
    dsimp only
    intro tokens h
    cases hlater : tokensFrom file stop (cs.drop (text.length - 1)) with
    | error e =>
      rw [hlater] at h
      cases h
    | ok later =>
      rw [hlater] at h
      cases h
      refine List.forall_mem_cons.2 ⟨fun hk => ?_, ih later hlater⟩
      obtain rfl : kind = .identifier := hk
      exact front_isName hfront
  | case4 offset c cs more hfront =>
    rw [tokensFrom, hfront]
    intro tokens h
    cases h
  | case5 offset c cs hfront =>
    rw [tokensFrom, hfront]
    intro tokens h
    cases h

end Run

namespace Cuts

variable {file : String} {offset : Nat} {cs : List Char} {tokens : List Token} {t : Token}

/-- The text of a token is what stands at its place, but for the end of the input. A word ends
    where no more of it follows. -/
theorem text (h : Cuts file offset cs tokens) (ht : t ∈ tokens) (hkind : t.kind ≠ .endOfInput) :
    ∃ before after, cs = before ++ t.text.toList ++ after ∧
      t.span = ⟨offset + byteCount before, offset + byteCount (before ++ t.text.toList), file⟩ ∧
      (t.kind.isWord = true → Clean after) := by
  induction h with
  | done =>
    obtain rfl := List.mem_singleton.1 ht
    exact absurd rfl hkind
  | @gap piece _ _ _ _ _ ih =>
    obtain ⟨before, after, rfl, hspan, hclean⟩ := ih ht
    refine ⟨piece ++ before, after, by simp, ?_, hclean⟩
    simp only [hspan, Text.byteCount_append, Nat.add_assoc]
  | @token _ piece cs _ _ _ _ _ clean _ ih =>
    rcases List.mem_cons.1 ht with rfl | ht
    · exact ⟨[], cs, by simp, by simp, clean⟩
    · obtain ⟨before, after, rfl, hspan, hclean⟩ := ih ht
      refine ⟨piece ++ before, after, by simp, ?_, hclean⟩
      simp only [hspan, Text.byteCount_append, Nat.add_assoc]

/-- No token begins before the place where the text does. -/
private theorem le_start (h : Cuts file offset cs tokens) (ht : t ∈ tokens) :
    offset ≤ t.span.start := by
  induction h with
  | done =>
    obtain rfl := List.mem_singleton.1 ht
    exact Nat.le_refl _
  | gap _ _ ih => exact Nat.le_of_add_right_le (ih ht)
  | token _ _ _ _ _ ih =>
    rcases List.mem_cons.1 ht with rfl | ht
    · exact Nat.le_refl _
    · exact Nat.le_of_add_right_le (ih ht)

/-- No token goes past the end of the text. -/
theorem stop_le (h : Cuts file offset cs tokens) (ht : t ∈ tokens) :
    t.span.stop ≤ offset + byteCount cs := by
  induction h with
  | done =>
    obtain rfl := List.mem_singleton.1 ht
    exact Nat.le_refl _
  | gap _ _ ih =>
    rw [Text.byteCount_append, ← Nat.add_assoc]
    exact ih ht
  | @token _ piece cs offset _ _ _ _ _ _ ih =>
    rw [Text.byteCount_append, ← Nat.add_assoc]
    rcases List.mem_cons.1 ht with rfl | ht
    · exact Nat.le_add_right ..
    · exact ih ht

/-- A token has a character, and every character has a byte. -/
theorem start_lt_stop (h : Cuts file offset cs tokens) (ht : t ∈ tokens)
    (hkind : t.kind ≠ .endOfInput) : t.span.start < t.span.stop := by
  induction h with
  | done =>
    obtain rfl := List.mem_singleton.1 ht
    exact absurd rfl hkind
  | gap _ _ ih => exact ih ht
  | @token _ piece _ offset _ nonempty _ _ _ _ ih =>
    rcases List.mem_cons.1 ht with rfl | ht
    · obtain ⟨c, piece, rfl⟩ := List.exists_cons_of_ne_nil nonempty
      have hpos := c.utf8Size_pos
      show offset < offset + byteCount (c :: piece)
      rw [Text.byteCount_cons]
      omega
    · exact ih ht

/-- The tokens stand one after the other. -/
theorem spaced (h : Cuts file offset cs tokens) : Spaced tokens := by
  induction h with
  | done => exact List.pairwise_singleton ..
  | gap _ _ ih => exact ih
  | token nonempty ends spelled clean rest ih =>
    refine List.pairwise_cons.2 ⟨fun u hu => ⟨ends, ?_, rest.le_start hu⟩, ih⟩
    exact (Cuts.token nonempty ends spelled clean rest).start_lt_stop (List.mem_cons_self ..) ends

/-- All tokens are written as those of their kinds are. -/
theorem spelled (h : Cuts file offset cs tokens) (ht : t ∈ tokens) : t.lexeme.spelled = true := by
  induction h with
  | done =>
    obtain rfl := List.mem_singleton.1 ht
    rfl
  | gap _ _ ih => exact ih ht
  | token _ _ spelled _ _ ih =>
    rcases List.mem_cons.1 ht with rfl | ht
    · exact spelled
    · exact ih ht

/-- The end of the input comes last, and nowhere else. -/
theorem closes (h : Cuts file offset cs tokens) :
    ∃ front, tokens = front ++ [Token.endAt (offset + byteCount cs) file] ∧
      ∀ t ∈ front, t.kind ≠ .endOfInput := by
  induction h with
  | done => exact ⟨[], rfl, by simp⟩
  | gap _ _ ih =>
    obtain ⟨front, rfl, hfront⟩ := ih
    exact ⟨front, by rw [Text.byteCount_append, Nat.add_assoc], hfront⟩
  | token _ ends _ _ _ ih =>
    obtain ⟨front, rfl, hfront⟩ := ih
    rw [Text.byteCount_append, ← Nat.add_assoc]
    exact ⟨_ :: front, rfl, List.forall_mem_cons.2 ⟨ends, hfront⟩⟩

end Cuts

end BranchIR
