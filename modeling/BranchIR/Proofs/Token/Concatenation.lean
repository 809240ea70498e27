import BranchIR.Proofs.Token.Front

/-!
# Texts put together line by line

No rule of the lexer looks over the end of a line but the one for white space, and of white space
any part is left out like the whole. So the tokens of two texts with a newline between are those
of the first, without the end of its input, and then those of the second, moved on to where the
second text begins. Errors are the same in either text.
-/

namespace BranchIR

open Text (isBlank byteCount)

/-- The stretch so many bytes further on. -/
def Span.shift (n : Nat) (s : Span) : Span := ⟨s.start + n, s.stop + n, s.file⟩

/-- The token so many bytes further on. -/
def Token.shift (n : Nat) (t : Token) : Token := { t with span := t.span.shift n }

/-- The error so many bytes further on. -/
def Error.shift (n : Nat) (e : Error) : Error :=
  { e with position := ⟨e.position.offset + n, e.position.file⟩ }

variable {file : String} {offset : Nat} {c : Char} {cs blanks : List Char}

/-! ## Further on in a file -/

/-- A text further on in a file has the same tokens and errors, further on. -/
theorem tokensFrom_add (file : String) (offset n : Nat) (cs : List Char) :
    tokensFrom file (offset + n) cs =
      match tokensFrom file offset cs with
      | .ok tokens => .ok (tokens.map (Token.shift n))
      | .error e => .error (e.shift n) := by
  -- the front of a text does not depend on its offset, which is only added to
  induction offset, cs using tokensFrom.induct with
  | case1 offset =>
    rw [tokensFrom, tokensFrom]
    rfl
  | case2 offset c cs more hfront ih =>
    have hmove := Nat.add_right_comm offset n (byteCount (c :: cs.take more))
    rw [tokensFrom, tokensFrom, hfront]
    dsimp only
    rw [hmove, ih]
  | case3 offset c cs kind text hfront stop ih =>
    have hmove : offset + n + byteCount text = stop + n := Nat.add_right_comm ..
    rw [tokensFrom, tokensFrom, hfront]
    dsimp only
    rw [hmove, ih]
    cases tokensFrom file stop (cs.drop (text.length - 1)) <;> rfl
  | case4 offset c cs more hfront =>
    rw [tokensFrom, tokensFrom, hfront]
    rfl
  | case5 offset c cs hfront =>
    rw [tokensFrom, tokensFrom, hfront]
    rfl

/-! ## White space -/

/-- A blank in front is left out by itself. -/
private theorem tokensFrom_blank (hc : isBlank c = true) :
    tokensFrom file offset (c :: cs) = tokensFrom file (offset + c.utf8Size) cs := by
  rw [tokensFrom, front_of_isBlank hc]
  dsimp only
  cases cs with
  | nil => simp
  | cons d ds =>
    cases hd : isBlank d with
    | false => simp [hd]
    | true =>
      -- both texts begin with blanks, and the next step leaves out the same ones
      rw [tokensFrom, front_of_isBlank hd]
      simp [hd, Nat.add_assoc]

/-- Blanks in front are left out. -/
private theorem tokensFrom_blanks (h : ∀ c ∈ blanks, isBlank c = true) :
    tokensFrom file offset (blanks ++ cs) = tokensFrom file (offset + byteCount blanks) cs := by
  induction blanks generalizing offset with
  | nil => rfl
  | cons c blanks ih =>
    obtain ⟨hc, hblanks⟩ := List.forall_mem_cons.1 h
    rw [List.cons_append, tokensFrom_blank hc, ih hblanks, Text.byteCount_cons, Nat.add_assoc]

/-! ## The end of a line -/

section Line

variable (later : List Char)

/-- What stands at the front of a text does not depend on its later lines, unless it is a blank. -/
theorem front_append_newline (hc : isBlank c = false) :
    front c (cs ++ '\n' :: later) = front c cs := by
  have hword : (cs ++ '\n' :: later).takeWhile isWordChar = cs.takeWhile isWordChar :=
    List.takeWhile_append_cons_of_neg (by decide)
  have hline : (cs ++ '\n' :: later).takeWhile (· ≠ '\n') = cs.takeWhile (· ≠ '\n') :=
    List.takeWhile_append_cons_of_neg (by decide)
  -- a newline is none of the second characters that rules ask for
  have hhead (d : Char) (hd : d ≠ '\n') :
      (cs ++ '\n' :: later).head? = some d ↔ cs.head? = some d := by
    cases cs with
    | nil => simpa using hd.symm
    | cons => rfl
  have hdigit : (cs ++ '\n' :: later).head?.any Char.isDigit = cs.head?.any Char.isDigit := by
    cases cs with
    | nil => rfl
    | cons => rfl
  have hmark : mark? c (cs ++ '\n' :: later) = mark? c cs := by
    unfold mark?
    simp only [hhead '>' (by decide)]
  unfold front
  simp only [hword, hline, hdigit, hmark, hhead '/' (by decide), hc,
    Bool.false_eq_true, if_false]

private theorem cons_take_append_drop (c : Char) (cs : List Char) (n : Nat) :
    c :: cs.take n ++ cs.drop n = c :: cs := by
  rw [List.cons_append, List.take_append_drop]

private theorem byteCount_take_add_drop (c : Char) (cs : List Char) (n : Nat) :
    byteCount (c :: cs) = byteCount (c :: cs.take n) + byteCount (cs.drop n) := by
  rw [← Text.byteCount_append, cons_take_append_drop]

/-- Of two texts with a newline between, what the first is read as comes first. -/
theorem tokensFrom_append_newline (file : String) (offset : Nat) (cs : List Char) :
    tokensFrom file offset (cs ++ '\n' :: later) =
      match tokensFrom file offset cs, tokensFrom file (offset + byteCount cs + 1) later with
      | .ok tokens, .ok laterTokens => .ok (tokens.filter (·.kind ≠ .endOfInput) ++ laterTokens)
      | .ok _, .error e => .error e
      | .error e, _ => .error e := by
  induction offset, cs using tokensFrom.induct with
  | case1 offset =>
    -- the newline itself is left out
    have hnewline : tokensFrom file offset ('\n' :: later) = tokensFrom file (offset + 1) later :=
      tokensFrom_blank (by decide)
    rw [List.nil_append, hnewline, tokensFrom]
    dsimp only [Text.byteCount_nil, Nat.add_zero]
    cases tokensFrom file (offset + 1) later <;> rfl
  | case2 offset c cs more hfront ih =>
    -- the offsets of what comes later count the gap and all that is behind it
    rw [tokensFrom, hfront, byteCount_take_add_drop c cs more, ← Nat.add_assoc]
    dsimp only
    rw [← ih]
    rcases front_eq_gap hfront with ⟨hc, rfl⟩ | ⟨rfl, -⟩
    · -- the gap may go on after the newline, so only the blanks before it are left out
      have hblanks : ∀ d ∈ c :: cs.take (cs.takeWhile isBlank).length, isBlank d = true := by
        rw [List.take_length_takeWhile]
        exact List.forall_mem_cons.2 ⟨hc, List.all_eq_true.1 List.all_takeWhile⟩
      rw [← tokensFrom_blanks hblanks, ← List.append_assoc, cons_take_append_drop]
    · -- a comment ends before the newline
      have hle : more ≤ cs.length := by simpa [hfront, Front.more] using front_more_le '/' cs
      rw [List.cons_append, tokensFrom, front_append_newline later (by decide), hfront]
      dsimp only
      rw [List.take_append_of_le_length hle, List.drop_append_of_le_length hle]
  | case3 offset c cs kind text hfront stop ih =>
    have hle : text.length - 1 ≤ cs.length := by
      simpa only [hfront, Front.more] using front_more_le c cs
    have hc : isBlank c = false := isBlank_of_front hfront (by simp)
    have hkind : decide (kind ≠ .endOfInput) = true := by simpa using front_ne_endOfInput hfront
    -- a token is a part of the text that it begins
    have hcount : byteCount (c :: cs) = byteCount text + byteCount (cs.drop (text.length - 1)) := by
      rw [← Text.byteCount_append, front_text hfront]
    rw [List.cons_append, tokensFrom, front_append_newline later hc, hfront, tokensFrom, hfront,
      hcount, ← Nat.add_assoc]
    dsimp only
    rw [List.drop_append_of_le_length hle, ih]
    cases tokensFrom file stop (cs.drop (text.length - 1)) with
    | error e => rfl
    | ok tokens =>
      cases tokensFrom file (stop + byteCount (cs.drop (text.length - 1)) + 1) later with
      | error e => rfl
      | ok laterTokens =>
        show Except.ok _ = Except.ok _
        simp only [List.filter_cons, hkind, if_true, List.cons_append]
  | case4 offset c cs more hfront =>
    have hle : more ≤ cs.length := by simpa [hfront, Front.more] using front_more_le c cs
    have hc : isBlank c = false := isBlank_of_front hfront (by simp)
    rw [List.cons_append, tokensFrom, front_append_newline later hc, hfront, tokensFrom, hfront]
    dsimp only
    rw [List.take_append_of_le_length hle]
  | case5 offset c cs hfront =>
    have hc : isBlank c = false := isBlank_of_front hfront (by simp)
    rw [List.cons_append, tokensFrom, front_append_newline later hc, hfront, tokensFrom, hfront]

end Line

/-- Two texts with a newline between have the tokens of the first, without the end of its input,
    and then those of the second, which begins after the first and the newline. An error in the
    first text is the error of both together, and so is one in the second if the first has none. -/
theorem tokenize_append_newline (a b file : String) :
    tokenize (a ++ "\n" ++ b) file =
      match tokenize a file, tokenize b file with
      | .ok tokens, .ok laterTokens =>
        .ok (tokens.filter (·.kind ≠ .endOfInput) ++
          laterTokens.map (Token.shift (byteCount a.toList + 1)))
      | .ok _, .error e => .error (e.shift (byteCount a.toList + 1))
      | .error e, _ => .error e := by
  have htext : (a ++ "\n" ++ b).toList = a.toList ++ '\n' :: b.toList := by simp
  have hlater := tokensFrom_add file 0 (byteCount a.toList + 1) b.toList
  rw [tokenize, htext, tokensFrom_append_newline, Nat.add_assoc, hlater, tokenize, tokenize]
  cases tokensFrom file 0 a.toList <;> cases tokensFrom file 0 b.toList <;> rfl

end BranchIR
