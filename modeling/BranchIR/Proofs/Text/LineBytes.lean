import Mathlib.Data.List.DropRight
import BranchIR.Proofs.Text.Line

/-!
# The line of a byte offset, told by bytes

`lineAt?` goes through the lines of a text, which are lists of characters. What it finds is told
by the bytes of the text alone, also for an offset inside a character: the number of the line by the
newlines before the offset, the offset in the line by the last of them, and the line by the next
newline.

## Key results

- `newline_mem_utf8EncodeChar`: no other character has the byte of a newline
- `lineAmong?_utf8`: what is found among closed lines and a last one
- `lineAt?_exact`: the line of every byte offset
-/

namespace BranchIR.Text

/-! ## Bytes -/

/-- The bytes of a text. -/
def utf8 (cs : List Char) : List UInt8 := cs.flatMap String.utf8EncodeChar

/-- The byte of a newline. -/
def newline : UInt8 := 10

/-- The bytes of the characters are those of the text. -/
theorem utf8_toList (s : String) : utf8 s.toList = s.toByteArray.data.toList := by
  rw [← String.utf8Encode_toList, List.utf8Encode, List.toList_data_toByteArray]
  rfl

@[simp] theorem utf8_append (as bs : List Char) : utf8 (as ++ bs) = utf8 as ++ utf8 bs :=
  List.flatMap_append

/-- The encoding has as many bytes as are counted. -/
@[simp] theorem length_utf8 (cs : List Char) : (utf8 cs).length = byteCount cs := by
  induction cs with
  | nil => rfl
  | cons c cs ih =>
    have hc := String.length_utf8EncodeChar c
    rw [utf8] at ih
    rw [utf8, List.flatMap_cons, List.length_append, hc, ih, byteCount_cons]

private theorem newline_eq_ofNat {n : Nat} (h : n < 256) : newline = UInt8.ofNat n ↔ n = 10 := by
  rw [← UInt8.toNat_inj, UInt8.toNat_ofNat_of_lt' h]
  exact eq_comm

/-- Only a newline has the byte of a newline: in longer forms all bytes are 128 or more. -/
theorem newline_mem_utf8EncodeChar {c : Char} :
    newline ∈ String.utf8EncodeChar c ↔ c = '\n' := by
  have hc : c = '\n' ↔ c.val.toNat = 10 := by
    rw [Char.ext_iff, ← UInt32.toNat_inj]
    rfl
  rw [hc, String.utf8EncodeChar]
  split
  · rw [List.mem_singleton, newline_eq_ofNat (by omega)]
  · split
    · simp only [List.mem_cons, List.not_mem_nil, or_false]
      rw [newline_eq_ofNat (by omega), newline_eq_ofNat (by omega)]
      omega
    · split
      · simp only [List.mem_cons, List.not_mem_nil, or_false]
        rw [newline_eq_ofNat (by omega), newline_eq_ofNat (by omega), newline_eq_ofNat (by omega)]
        omega
      · simp only [List.mem_cons, List.not_mem_nil, or_false]
        rw [newline_eq_ofNat (by omega), newline_eq_ofNat (by omega), newline_eq_ofNat (by omega),
          newline_eq_ofNat (by omega)]
        omega

/-- No other character has the byte of a newline. -/
private theorem newline_mem_utf8 {cs : List Char} : newline ∈ utf8 cs ↔ '\n' ∈ cs := by
  simp [utf8, newline_mem_utf8EncodeChar]

/-- A closed line is closed in bytes. -/
private theorem Closed.utf8 {l : List Char} (h : Closed l) :
    ∃ bytes, Text.utf8 l = bytes ++ [newline] ∧ newline ∉ bytes := by
  obtain ⟨m, rfl, hm⟩ := h
  exact ⟨Text.utf8 m, utf8_append .., newline_mem_utf8.not.2 hm⟩

/-! ## Cutting at a byte -/

section Cut

variable {α : Type} [DecidableEq α] {x : α} {xs ys : List α}

/-- The beginning of a list through the first `x`, or all of it. -/
def through (x : α) (xs : List α) : List α :=
  xs.takeWhile (· ≠ x) ++ (xs.dropWhile (· ≠ x)).take 1

/-- Where what follows the last `x` of a list begins, which is at 0 if there is none. -/
def afterLast (x : α) (xs : List α) : Nat := (xs.rdropWhile (· ≠ x)).length

private theorem all_ne (h : x ∉ xs) : ∀ y ∈ xs, decide (y ≠ x) = true := fun y hy => by
  simpa using ne_of_mem_of_not_mem hy h

/-- Without an `x`, all of a list comes before it. -/
private theorem through_of_not_mem (h : x ∉ xs) : through x xs = xs := by
  rw [through, List.takeWhile_eq_self_iff.2 (all_ne h), List.dropWhile_eq_nil_iff.2 (all_ne h)]
  simp

/-- The first `x` is the last that comes through. -/
private theorem through_append_cons (h : x ∉ xs) : through x (xs ++ x :: ys) = xs ++ [x] := by
  rw [through, List.takeWhile_append_of_pos (all_ne h), List.dropWhile_append_of_pos (all_ne h)]
  simp

/-- Without an `x`, all of a list comes after it. -/
private theorem afterLast_of_not_mem (h : x ∉ xs) : afterLast x xs = 0 := by
  rw [afterLast, List.rdropWhile_eq_nil_iff.2 (all_ne h), List.length_nil]

/-- What follows the last `x` does not begin before the `x` that is shown. -/
private theorem afterLast_append_cons :
    afterLast x (xs ++ x :: ys) = xs.length + 1 + afterLast x ys := by
  have hrev : (xs ++ x :: ys).reverse = ys.reverse ++ x :: xs.reverse := by simp
  rw [afterLast, afterLast, List.rdropWhile, List.rdropWhile, hrev, List.dropWhile_append]
  split
  · next hnone =>
    -- the last `x` is the one between the two parts
    rw [List.isEmpty_iff.1 hnone]
    simp
  · simp only [List.reverse_append, List.length_append, List.length_reverse, List.length_cons]

end Cut

/-! ## Lines -/

/-- A text is cut into closed lines and a last one without a newline. -/
private theorem exists_lines_eq (cs : List Char) :
    ∃ ls last, lines cs = ls ++ [last] ∧ (∀ l ∈ ls, Closed l) ∧ '\n' ∉ last := by
  obtain ⟨ls, last, rfl, hclosed, hlast⟩ := exists_line_start cs
  have hone : lines last = [last] := by simpa using lines_append hlast (rfl : lines [] = [[]])
  exact ⟨ls, last, by rw [lines_flatten_append hclosed, hone], hclosed, hlast⟩

/-- What the bytes of a text tell of an offset: the number of its line from `number` on, the line,
    and the offset in it. -/
def byteLine? (number : Nat) (bytes : List UInt8) (pos : Nat) :
    Option (Nat × List UInt8 × Nat) :=
  let start := afterLast newline (bytes.take pos)
  if bytes.length < pos then none
  else some (number + (bytes.take pos).count newline, through newline (bytes.drop start),
    pos - start)

section ByteLine

variable {number pos : Nat} {bytes more : List UInt8}

/-- In a last line. -/
private theorem byteLine?_of_not_mem (h : newline ∉ bytes) :
    byteLine? number bytes pos =
      if pos ≤ bytes.length then some (number, bytes, pos) else none := by
  have htake : newline ∉ bytes.take pos := fun hmem => h (List.mem_of_mem_take hmem)
  rw [byteLine?, List.count_eq_zero.2 htake, afterLast_of_not_mem htake, List.drop_zero,
    through_of_not_mem h]
  by_cases hpos : pos ≤ bytes.length
  · rw [if_pos hpos, if_neg (by omega)]
    rfl
  · rw [if_neg hpos, if_pos (by omega)]

/-- In the first of several lines. -/
private theorem byteLine?_of_le (h : newline ∉ bytes) (hpos : pos ≤ bytes.length) :
    byteLine? number (bytes ++ newline :: more) pos =
      some (number, bytes ++ [newline], pos) := by
  have htake : newline ∉ (bytes ++ newline :: more).take pos := fun hmem => by
    rw [List.take_append_of_le_length hpos] at hmem
    exact h (List.mem_of_mem_take hmem)
  rw [byteLine?, List.count_eq_zero.2 htake, afterLast_of_not_mem htake, List.drop_zero,
    through_append_cons h, if_neg (by rw [List.length_append]; omega)]
  rfl

/-- After the first of several lines. -/
private theorem byteLine?_add (h : newline ∉ bytes) :
    byteLine? number (bytes ++ newline :: more) (bytes.length + 1 + pos) =
      byteLine? (number + 1) more pos := by
  have hlen : (bytes ++ [newline]).length = bytes.length + 1 := by simp
  have htake : (bytes ++ newline :: more).take (bytes.length + 1 + pos) =
      bytes ++ newline :: more.take pos := by
    rw [← List.singleton_append, ← List.append_assoc, ← hlen, List.take_length_add_append,
      List.append_assoc, List.singleton_append]
  have hdrop (start : Nat) : (bytes ++ newline :: more).drop (bytes.length + 1 + start) =
      more.drop start := by
    rw [← List.singleton_append, ← List.append_assoc, ← hlen, List.drop_length_add_append]
  have hcount : number + (bytes ++ newline :: more.take pos).count newline =
      number + 1 + (more.take pos).count newline := by
    rw [List.count_append, List.count_eq_zero.2 h, List.count_cons_self]
    omega
  rw [byteLine?, htake, afterLast_append_cons, hdrop, hcount, byteLine?, List.length_append,
    List.length_cons, Nat.add_sub_add_left]
  by_cases hpos : more.length < pos
  · rw [if_pos hpos, if_pos (by omega)]
  · rw [if_neg hpos, if_neg (by omega)]

end ByteLine

/-- Among closed lines and a last one, the line is the one that the bytes tell. -/
theorem lineAmong?_utf8 {ls : List (List Char)} {last : List Char} (h : ∀ l ∈ ls, Closed l)
    (hlast : '\n' ∉ last) (number pos : Nat) :
    (lineAmong? number (ls ++ [last]) pos).map (fun l => (l.number, utf8 l.text, l.offset)) =
      byteLine? number (utf8 (ls ++ [last]).flatten) pos := by
  -- the place is on the first line, or it is one of the lines after it
  induction ls generalizing number pos with
  | nil =>
    have hnot : newline ∉ utf8 last := newline_mem_utf8.not.2 hlast
    rw [List.nil_append, List.flatten_singleton, byteLine?_of_not_mem hnot, lineAmong?, length_utf8]
    by_cases hpos : pos ≤ byteCount last
    · rw [if_pos hpos, if_pos hpos, Option.map_some]
    · rw [if_neg hpos, if_neg hpos, Option.map_none]
  | cons l ls ih =>
    obtain ⟨hl, hls⟩ := List.forall_mem_cons.1 h
    -- a closed line is some bytes without a newline, and one newline
    obtain ⟨bytes, hbytes, hnot⟩ := hl.utf8
    have hcount : byteCount l = bytes.length + 1 := by
      rw [← length_utf8, hbytes, List.length_append, List.length_singleton]
    have hflat : utf8 (l :: (ls ++ [last])).flatten =
        bytes ++ newline :: utf8 (ls ++ [last]).flatten := by
      rw [List.flatten_cons, utf8_append, hbytes, List.append_assoc, List.singleton_append]
    rw [List.cons_append, hflat, lineAmong?]
    · by_cases hpos : pos < byteCount l
      · rw [if_pos hpos, byteLine?_of_le hnot (by omega), Option.map_some, hbytes]
      · obtain ⟨rest, rfl⟩ : ∃ rest, pos = bytes.length + 1 + rest :=
          ⟨pos - (bytes.length + 1), by omega⟩
        rw [if_neg hpos, byteLine?_add hnot, hcount, Nat.add_sub_cancel_left, ih hls]
    · -- the line is not the last one
      simp

/-- What is found is one of the lines, and the lines before it and the offset make the place. -/
private theorem lineAmong?_sum {ls : List (List Char)} {number pos : Nat} {line : Line}
    (h : lineAmong? number ls pos = some line) :
    ∃ i, line.number = number + i ∧ ls[i]? = some line.text ∧ line.offset ≤ byteCount line.text ∧
      byteCount (ls.take i).flatten + line.offset = pos := by
  fun_induction lineAmong? number ls pos with
  | case1 => cases h
  | case2 number l pos hle =>
    obtain rfl := Option.some.inj h
    exact ⟨0, rfl, rfl, hle, Nat.zero_add pos⟩
  | case3 => cases h
  | case4 number l ls pos _ hlt =>
    obtain rfl := Option.some.inj h
    exact ⟨0, rfl, rfl, Nat.le_of_lt hlt, Nat.zero_add pos⟩
  | case5 number l ls pos _ hnot ih =>
    obtain ⟨i, hnumber, htext, hoffset, hsum⟩ := ih h
    refine ⟨i + 1, by omega, by simpa using htext, hoffset, ?_⟩
    rw [List.take_succ_cons, List.flatten_cons, byteCount_append]
    omega

section Lookup

variable {text : List Char} {pos pos' : Nat} {line line' : Line}

/-- The line that is found is a line of the text, and the lines above it and the offset make the
    place. -/
private theorem lineAt?_sum (h : lineAt? text pos = some line) :
    (lines text)[line.number - 1]? = some line.text ∧
      byteCount ((lines text).take (line.number - 1)).flatten + line.offset = pos := by
  obtain ⟨i, hnumber, htext, -, hsum⟩ := lineAmong?_sum h
  rw [hnumber, Nat.add_sub_cancel_left]
  exact ⟨htext, hsum⟩

/-- A place is told by its line and the offset in it. -/
private theorem eq_of_lineAt? (h : lineAt? text pos = some line)
    (h' : lineAt? text pos' = some line')
    (hnumber : line.number = line'.number) (hoffset : line.offset = line'.offset) : pos = pos' := by
  have hsum := (lineAt?_sum h).2
  have hsum' := (lineAt?_sum h').2
  rw [← hnumber, ← hoffset] at hsum'
  exact hsum.symm.trans hsum'

/-- The empty line is at the end of a text that has no last line. -/
private theorem Line.text_eq_nil_iff (h : lineAt? text pos = some line) :
    line.text = [] ↔ pos = byteCount text ∧ (text = [] ∨ text.getLast? = some '\n') := by
  obtain ⟨ls, last, hlines, hclosed, hlast⟩ := exists_lines_eq text
  have htext : text = ls.flatten ++ last := by
    rw [← flatten_lines text, hlines, List.flatten_append, List.flatten_singleton]
  constructor
  · intro hnil
    -- an empty line is one of the lines of the text
    obtain ⟨i, -, hline, hoffset, hsum⟩ := lineAmong?_sum h
    rw [hnil, byteCount_nil] at hoffset
    rw [hlines, hnil] at hline
    rw [hlines] at hsum
    by_cases hi : i < ls.length
    · -- a closed line has its newline
      rw [List.getElem?_append_left hi] at hline
      obtain ⟨m, hm, -⟩ := hclosed [] (List.mem_of_getElem? hline)
      simp at hm
    · rw [List.getElem?_append_right (by omega), List.getElem?_singleton] at hline
      split at hline
      · obtain rfl := Option.some.inj hline
        rw [List.append_nil] at htext
        -- only the last line can be empty, and the place is at the end of it
        have hi : i = ls.length := by omega
        rw [hi, List.take_left, ← htext] at hsum
        exact ⟨by omega, htext ▸ getLast?_flatten_of_closed hclosed⟩
      · cases hline
  · rintro ⟨rfl, hend⟩
    -- the text ends with its last line, so that one has no character if a newline is the last one
    have hnil : last = [] := by
      by_contra hne
      have hlast' : text.getLast? = some (last.getLast hne) := by
        rw [htext, List.getLast?_append_of_ne_nil _ hne, List.getLast?_eq_some_getLast hne]
      rw [hlast', Option.some.injEq] at hend
      rcases hend with hend | hend
      · exact hne (List.append_eq_nil_iff.1 (htext.symm.trans hend)).2
      · exact hlast (hend ▸ List.getLast_mem hne)
    have hfound := lineAt?_append hclosed hlast (rfl : lines [] = [[]])
    rw [List.append_nil, ← htext, h] at hfound
    rw [Option.some.inj hfound, hnil]
    rfl

end Lookup

/-- The line of a byte offset is told by the bytes of the text. -/
theorem lineAt?_exact (text : List Char) :
    (∀ pos, (lineAt? text pos).map (fun line => (line.number, utf8 line.text, line.offset)) =
      byteLine? 1 (utf8 text) pos) ∧
    (∀ pos, lineAt? text pos = none ↔ (utf8 text).length < pos) ∧
    (∀ pos line, lineAt? text pos = some line →
      (lines text)[line.number - 1]? = some line.text ∧
      (utf8 ((lines text).take (line.number - 1)).flatten).length + line.offset = pos ∧
      (line.text = [] ↔
        pos = (utf8 text).length ∧ (text = [] ∨ text.getLast? = some '\n'))) ∧
    ∀ pos pos' line line', lineAt? text pos = some line → lineAt? text pos' = some line' →
      pos ≠ pos' → (line.number, line.offset) ≠ (line'.number, line'.offset) := by
  have hbytes (pos : Nat) : (lineAt? text pos).map
      (fun line => (line.number, utf8 line.text, line.offset)) = byteLine? 1 (utf8 text) pos := by
    obtain ⟨ls, last, hlines, hclosed, hlast⟩ := exists_lines_eq text
    have hfound := lineAmong?_utf8 hclosed hlast 1 pos
    rwa [← hlines, flatten_lines] at hfound
  refine ⟨hbytes, fun pos => ?_, fun pos line h => ?_, fun pos pos' line line' h h' hne heq => ?_⟩
  · rw [← Option.map_eq_none_iff, hbytes, byteLine?]
    simp
  · rw [length_utf8, length_utf8]
    exact ⟨(lineAt?_sum h).1, (lineAt?_sum h).2, Line.text_eq_nil_iff h⟩
  · obtain ⟨hnumber, hoffset⟩ := Prod.mk.inj heq
    exact hne (eq_of_lineAt? h h' hnumber hoffset)

/-- The second byte of a character of three, and the end of a text that ends in a newline. -/
theorem lineAt?_exact_wide :
    ∃ line line', lineAt? "再\nb\n".toList 1 = some line ∧ lineAt? "再\nb\n".toList 6 = some line' ∧
      line.text = "再\n".toList ∧ line'.text = [] ∧
      (utf8 ((lines "再\nb\n".toList).take (line'.number - 1)).flatten).length = 6 ∧
      (line.number, line.offset) ≠ (line'.number, line'.offset) := by
  obtain ⟨-, -, hline, hne⟩ := lineAt?_exact "再\nb\n".toList
  have hfirst : lineAt? "再\nb\n".toList 1 = some ⟨1, "再\n".toList, 1⟩ := by decide
  have hlast : lineAt? "再\nb\n".toList 6 = some ⟨3, [], 0⟩ := by decide
  obtain ⟨-, hsum, hempty⟩ := hline 6 _ hlast
  exact ⟨_, _, hfirst, hlast, rfl, hempty.2 ⟨by decide, .inr (by decide)⟩, hsum,
    hne 1 6 _ _ hfirst hlast (by decide)⟩

end BranchIR.Text
