import BranchIR.Proofs.Token.Places
import BranchIR.Token.Cursor

/-!
# The lexer as a loop

The lexer is a loop: as long as something is left, it takes the piece at its cursor off and moves
the cursor behind it. The cursor always stands between two characters, where the text after it is
what is left to read, so the loop is never stuck, and its tokens are those of the recursion on that
text. Only the places differ: a cursor keeps them as 32-bit words, which makes no difference in a
text of less than four gigabytes.
-/

namespace BranchIR

open Text (byteCount)

/-- The bytes of a text are those of its characters. -/
theorem Text.byteCount_toList (s : String) : byteCount s.toList = s.utf8ByteSize := by
  have hchars (cs : List Char) : byteCount cs = (String.ofList cs).utf8ByteSize := by
    induction cs with
    | nil => rfl
    | cons c cs ih =>
      have hone : (String.ofList [c]).utf8ByteSize = c.utf8Size := by
        rw [← String.size_toByteArray, String.toByteArray_ofList, List.utf8Encode_singleton,
          List.size_toByteArray, String.length_utf8EncodeChar]
      rw [byteCount_cons, ih, ← List.singleton_append, String.ofList_append,
        String.utf8ByteSize_append, hone]
  rw [hchars, String.ofList_toList]

/-! ## Places as they are kept -/

/-- The place as a cursor keeps it. -/
def Position.kept (p : Position) : Position := ⟨Cursor.placeOf p.offset, p.file⟩

/-- The token with its span as a cursor keeps it. -/
def Token.kept (t : Token) : Token :=
  { t with span := ⟨Cursor.placeOf t.span.start, Cursor.placeOf t.span.stop, t.span.file⟩ }

/-- What is found in a text, with all places as a cursor keeps them. -/
def keptPlaces : Except Error (List Token) → Except Error (List Token)
  | .ok tokens => .ok (tokens.map Token.kept)
  | .error e => .error ⟨e.cause, e.position.kept⟩

namespace Cursor

variable {c : Cursor} {before after piece : List Char}

@[simp] theorem file_advance (c : Cursor) (n : Nat) : (c.advance n).file = c.file := rfl

/-! ## Between two characters -/

/-- The cursor stands between two parts of its text. -/
structure Parts (c : Cursor) (before after : List Char) : Prop where
  text : c.source.toList = before ++ after
  offset : c.offset = byteCount before

/-- At the start the whole text is left. -/
theorem parts_start (source file : String) : (start source file).Parts [] source.toList :=
  ⟨rfl, rfl⟩

/-- A cursor that moves on behind a piece of what is left stands between two characters again. -/
theorem Parts.advance (h : c.Parts before (piece ++ after)) :
    (c.advance (byteCount piece)).Parts (before ++ piece) after where
  text := by
    rw [List.append_assoc]
    exact h.text
  offset := by
    rw [Text.byteCount_append, ← h.offset]
    rfl

/-- A cursor can look at its text between two characters only, and sees what stands after it. -/
theorem remainder?_eq_some_iff {rest : String} :
    c.remainder? = some rest ↔ ∃ before, c.Parts before rest.toList := by
  constructor
  · intro h
    obtain ⟨⟨before, after⟩, hsplit, rfl⟩ := Option.map_eq_some_iff.1 h
    obtain ⟨htext, hoffset⟩ := Text.splitAtByte?_eq_some_iff.1 hsplit
    exact ⟨before, by rw [String.toList_ofList]; exact htext, hoffset⟩
  · intro ⟨before, htext, hoffset⟩
    have hsplit := Text.splitAtByte?_eq_some_iff.2 ⟨htext, hoffset⟩
    rw [remainder?, hsplit, Option.map_some]
    exact congrArg some String.ofList_toList

/-- What remains is the part behind the cursor. -/
theorem Parts.remainder?_eq (h : c.Parts before after) :
    c.remainder? = some (String.ofList after) := by
  apply remainder?_eq_some_iff.2
  exact ⟨before, by rwa [String.toList_ofList]⟩

/-- At the end of the text a null character is seen. -/
theorem Parts.current?_eq (h : c.Parts before after) : c.current? = some (after.headD '\x00') := by
  have hsplit := Text.splitAtByte?_eq_some_iff.2 ⟨h.text, h.offset⟩
  rw [current?, hsplit, Option.map_some]

/-- The end of the text is reached where nothing is left. -/
theorem Parts.atEnd_iff (h : c.Parts before after) : c.atEnd = true ↔ after = [] := by
  have hsize : c.source.utf8ByteSize = c.offset + byteCount after := by
    rw [← Text.byteCount_toList, h.text, Text.byteCount_append, h.offset]
  rw [atEnd, decide_eq_true_iff, hsize]
  cases after with
  | nil => simp
  | cons d after =>
    -- a character that is left has a byte
    have hpos := d.utf8Size_pos
    simp only [Text.byteCount_cons, reduceCtorEq, iff_false]
    omega

/-! ## One round -/

section Round

variable {first : Char} {cs text : List Char} {kind : Kind} {more : Nat}

/-- A gap takes the cursor over itself and gives no token. -/
private theorem Parts.round?_gap (h : c.Parts before (first :: cs))
    (hfront : front first cs = .gap more) :
    c.round? = some (.ok ([], c.advance (byteCount (first :: cs.take more)))) := by
  simp [round?, h.remainder?_eq, hfront]

/-- A token is given where the cursor stands, which moves behind it. -/
private theorem Parts.round?_token (h : c.Parts before (first :: cs))
    (hfront : front first cs = .token kind text) :
    c.round? = some (.ok ([⟨kind, String.ofList text, c.span (byteCount text)⟩],
      c.advance (byteCount text))) := by
  simp [round?, h.remainder?_eq, hfront]

/-- A number without digits ends the run where the cursor stands. -/
private theorem Parts.round?_badNumber (h : c.Parts before (first :: cs))
    (hfront : front first cs = .badNumber more) :
    c.round? =
      some (.error ⟨.badNumber (String.ofList (first :: cs.take more)), c.position⟩) := by
  simp [round?, h.remainder?_eq, hfront]

private theorem Parts.round?_unknown (h : c.Parts before (first :: cs))
    (hfront : front first cs = .unknown) :
    c.round? = some (.error ⟨.unrecognised (String.ofList [first]), c.position⟩) := by
  simp [round?, h.remainder?_eq, h.current?_eq, hfront]

/-- A round moves the cursor on in its text, behind a piece of one byte at least. -/
private theorem round?_moves {next : Cursor} {found : List Token}
    (h : c.round? = some (.ok (found, next))) :
    next.source = c.source ∧ c.offset < next.offset := by
  have hpiece (d : Char) (ds : List Char) : c.offset < c.offset + byteCount (d :: ds) := by
    have hpos := d.utf8Size_pos
    rw [Text.byteCount_cons]
    omega
  -- a round that gives something has read what remains of the text
  obtain ⟨rest, hrest, -⟩ := Option.bind_eq_some_iff.1 h
  obtain ⟨before, hparts⟩ := remainder?_eq_some_iff.1 hrest
  cases hlist : rest.toList with
  | nil => simp [round?, hrest, hlist] at h
  | cons first cs =>
    rw [hlist] at hparts
    -- gaps and tokens have a character at least, and the other rounds fail
    cases hfront : front first cs with
    | gap more =>
      rw [hparts.round?_gap hfront] at h
      cases h
      exact ⟨rfl, hpiece ..⟩
    | token kind text =>
      obtain ⟨d, ds, rfl⟩ := List.exists_cons_of_ne_nil (front_text_ne_nil hfront)
      rw [hparts.round?_token hfront] at h
      cases h
      exact ⟨rfl, hpiece d ds⟩
    | badNumber more =>
      rw [hparts.round?_badNumber hfront] at h
      cases h
    | unknown =>
      rw [hparts.round?_unknown hfront] at h
      cases h

end Round

/-! ## All rounds -/

/-- After a round less of the text is left. -/
private theorem left_lt_of_round? {next : Cursor} {found : List Token} (hend : ¬c.atEnd = true)
    (h : c.round? = some (.ok (found, next))) :
    next.source.utf8ByteSize - next.offset < c.source.utf8ByteSize - c.offset := by
  obtain ⟨hsource, hmoves⟩ := round?_moves h
  have hleft : ¬c.source.utf8ByteSize ≤ c.offset := by simpa [atEnd] using hend
  rw [hsource]
  omega

/-- The loop: rounds as long as something is left, and then the end of the input. -/
def run? (c : Cursor) : Option (Except Error (List Token)) :=
  if hend : c.atEnd = true then some (.ok [⟨.endOfInput, "EOF", c.span 0⟩])
  else
    match hround : c.round? with
    | none => none
    | some (.error e) => some (.error e)
    | some (.ok (found, next)) =>
      have := left_lt_of_round? hend hround
      (run? next).map (Except.map (found ++ ·))
termination_by c.source.utf8ByteSize - c.offset

/-- At the end of the text the loop ends. -/
private theorem run?_of_atEnd (hend : c.atEnd = true) :
    c.run? = some (.ok [⟨.endOfInput, "EOF", c.span 0⟩]) := by
  rw [run?, dif_pos hend]

/-- A round that refuses the text ends the loop. -/
private theorem run?_of_error {e : Error} (hend : ¬c.atEnd = true)
    (hround : c.round? = some (.error e)) : c.run? = some (.error e) := by
  rw [run?, dif_neg hend]
  split <;> simp_all

/-- After any other round the loop goes on. -/
private theorem run?_of_ok {found : List Token} {next : Cursor} (hend : ¬c.atEnd = true)
    (hround : c.round? = some (.ok (found, next))) :
    c.run? = next.run?.map (Except.map (found ++ ·)) := by
  rw [run?, dif_neg hend]
  split <;> simp_all

/-- From between two characters on, the loop finds what the recursion finds in the text that is
    left. -/
theorem Parts.run?_eq (h : c.Parts before after) :
    c.run? = some (keptPlaces (tokensFrom c.file c.offset after)) := by
  -- something is left where a character is
  have hleft {c : Cursor} {before cs : List Char} {first : Char}
      (h : c.Parts before (first :: cs)) : ¬c.atEnd = true := by
    rw [h.atEnd_iff]
    simp
  generalize hoffset : c.offset = offset
  revert c before
  induction offset, after using tokensFrom.induct with
  | case1 offset =>
    intro c before h hoffset
    rw [run?_of_atEnd (h.atEnd_iff.2 rfl), tokensFrom, ← hoffset]
    rfl
  | case2 offset first cs more hfront ih =>
    intro c before h hoffset
    have hrest : (c.advance (byteCount (first :: cs.take more))).Parts
        (before ++ first :: cs.take more) (cs.drop more) := by
      apply Parts.advance
      rwa [List.cons_append, List.take_append_drop]
    -- the cursor moves over the bytes that the lexer counts
    have hnext : c.offset + byteCount (first :: cs.take more) =
        offset + byteCount (first :: cs.take more) := by rw [hoffset]
    rw [run?_of_ok (hleft h) (h.round?_gap hfront), ih hrest hnext, file_advance, tokensFrom,
      hfront]
    dsimp only
    -- a gap gives no token, so what is found is found in the rest
    cases tokensFrom c.file (offset + byteCount (first :: cs.take more)) (cs.drop more) <;> rfl
  | case3 offset first cs kind text hfront stop =>
    rename_i ih
    intro c before h hoffset
    have hrest : (c.advance (byteCount text)).Parts (before ++ text)
        (cs.drop (text.length - 1)) := by
      apply Parts.advance
      rwa [front_text hfront]
    have hnext : c.offset + byteCount text = offset + byteCount text := by rw [hoffset]
    rw [run?_of_ok (hleft h) (h.round?_token hfront), ih hrest hnext, file_advance, tokensFrom,
      hfront]
    dsimp only
    -- the token's span is where the cursor was, and so many bytes long
    have hspan : c.span (byteCount text) =
        ⟨placeOf offset, placeOf (offset + byteCount text), c.file⟩ := by rw [span, hoffset]
    cases tokensFrom c.file (offset + byteCount text) (cs.drop (text.length - 1)) with
    | ok later => simp [keptPlaces, Token.kept, hspan, Except.map]
    | error e => rfl
  | case4 offset first cs more hfront =>
    intro c before h hoffset
    rw [run?_of_error (hleft h) (h.round?_badNumber hfront), tokensFrom, hfront, ← hoffset]
    rfl
  | case5 offset first cs hfront =>
    intro c before h hoffset
    rw [run?_of_error (hleft h) (h.round?_unknown hfront), tokensFrom, hfront, ← hoffset]
    rfl

/-- The loop is never stuck, and finds the tokens of the text. -/
theorem run?_start (source file : String) :
    (start source file).run? = some (keptPlaces (tokenize source file)) :=
  (parts_start source file).run?_eq

/-- In a text of less than four gigabytes all places are kept as they are. -/
theorem run?_start_of_lt {source : String} (file : String)
    (hsize : source.utf8ByteSize < 1 <<< 32) :
    (start source file).run? = some (tokenize source file) := by
  have hplace {offset : Nat} (h : offset ≤ 0 + byteCount source.toList) :
      placeOf offset = offset := by
    rw [Nat.zero_add, Text.byteCount_toList] at h
    exact Nat.mod_eq_of_lt (Nat.lt_of_le_of_lt h hsize)
  rw [run?_start]
  cases hfound : tokenize source file with
  | error e =>
    have hfirst := hplace (tokensFrom_error hfound).offset_le
    rw [keptPlaces, Position.kept, hfirst]
  | ok tokens =>
    have hkept : ∀ t ∈ tokens, t.kept = t := by
      intro t ht
      have hfirst := hplace (tokensFrom_stands hfound ht).offset_le
      have hlast := hplace ((tokensFrom_cuts hfound).stop_le ht)
      rw [Span.first] at hfirst
      rw [Token.kept, hfirst, hlast]
    rw [keptPlaces, List.map_congr_left hkept, List.map_id']

end Cursor

end BranchIR
