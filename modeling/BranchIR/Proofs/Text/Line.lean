import BranchIR.Text.Line

/-!
# Where a byte offset lies

The text up to a place is whole lines and then what stands before the place on its own line.
The number of the line is told by the whole lines, and the offset in it by what stands before
the place.
-/

namespace BranchIR.Text

/-! ## Characters and bytes -/

/-- No character has less than one byte. -/
theorem length_le_byteCount (cs : List Char) : cs.length ≤ byteCount cs := by
  induction cs with
  | nil => exact Nat.le_refl _
  | cons c cs ih =>
    have hpos := c.utf8Size_pos
    rw [List.length_cons, byteCount_cons]
    omega

/-- There are as many bytes as characters if every character has one byte. -/
theorem byteCount_eq_length_iff {cs : List Char} :
    byteCount cs = cs.length ↔ ∀ c ∈ cs, c.utf8Size = 1 := by
  induction cs with
  | nil => simp
  | cons c cs ih =>
    have hpos := c.utf8Size_pos
    have hle := length_le_byteCount cs
    rw [List.forall_mem_cons, ← ih, List.length_cons, byteCount_cons]
    omega

/-! ## Closed lines -/

/-- A line is closed when its newline, and no other, stands at its end. -/
def Closed (l : List Char) : Prop := ∃ m, l = m ++ ['\n'] ∧ '\n' ∉ m

variable {ls : List (List Char)}

theorem Closed.cons {c : Char} {l : List Char} (hc : c ≠ '\n') (h : Closed l) :
    Closed (c :: l) := by
  obtain ⟨m, rfl, hm⟩ := h
  exact ⟨c :: m, rfl, by simp [hm, hc.symm]⟩

/-- Closed lines have one newline each. -/
theorem count_flatten_of_closed (h : ∀ l ∈ ls, Closed l) :
    ls.flatten.count '\n' = ls.length := by
  induction ls with
  | nil => rfl
  | cons l ls ih =>
    obtain ⟨⟨m, rfl, hm⟩, hls⟩ := List.forall_mem_cons.1 h
    rw [List.flatten_cons, List.count_append, List.count_append, List.count_eq_zero.2 hm, ih hls,
      List.length_cons, List.count_singleton_self]
    omega

/-- Closed lines end in a newline, if there are any. -/
theorem getLast?_flatten_of_closed (h : ∀ l ∈ ls, Closed l) :
    ls.flatten = [] ∨ ls.flatten.getLast? = some '\n' := by
  induction ls with
  | nil => exact .inl rfl
  | cons l ls ih =>
    obtain ⟨⟨m, rfl, -⟩, hls⟩ := List.forall_mem_cons.1 h
    right
    rcases ih hls with hnil | hlast
    · rw [List.flatten_cons, hnil]
      simp
    · rw [List.flatten_cons, List.getLast?_append, hlast]
      rfl

/-- A text is closed lines and the beginning of one more. -/
theorem exists_line_start (cs : List Char) :
    ∃ (ls : List (List Char)) (here : List Char),
      cs = ls.flatten ++ here ∧ (∀ l ∈ ls, Closed l) ∧ '\n' ∉ here := by
  induction cs with
  | nil => exact ⟨[], [], rfl, by simp, by simp⟩
  | cons c cs ih =>
    obtain ⟨ls, here, rfl, hclosed, hhere⟩ := ih
    by_cases hc : c = '\n'
    · have hfirst : Closed [c] := ⟨[], by rw [hc, List.nil_append], by simp⟩
      exact ⟨[c] :: ls, here, rfl, List.forall_mem_cons.2 ⟨hfirst, hclosed⟩, hhere⟩
    · -- the character goes to the front of the first line, which may be the one begun
      cases ls with
      | nil => exact ⟨[], c :: here, rfl, by simp, by simp [hhere, Ne.symm hc]⟩
      | cons l ls =>
        obtain ⟨hl, hls⟩ := List.forall_mem_cons.1 hclosed
        exact ⟨(c :: l) :: ls, here, rfl, List.forall_mem_cons.2 ⟨hl.cons hc, hls⟩, hhere⟩

/-! ## The lines of a longer text -/

/-- Text without a newline goes to the front of the first line. -/
theorem lines_append {here after first : List Char} {rest : List (List Char)}
    (hhere : '\n' ∉ here) (hafter : lines after = first :: rest) :
    lines (here ++ after) = (here ++ first) :: rest := by
  induction here with
  | nil => exact hafter
  | cons c here ih =>
    obtain ⟨hc, hhere⟩ : '\n' ≠ c ∧ '\n' ∉ here := by simpa using hhere
    rw [List.cons_append, lines, if_neg (Ne.symm hc), ih hhere, List.cons_append]

/-- Closed lines are the first lines. -/
theorem lines_flatten_append (h : ∀ l ∈ ls, Closed l) (cs : List Char) :
    lines (ls.flatten ++ cs) = ls ++ lines cs := by
  induction ls with
  | nil => rfl
  | cons l ls ih =>
    obtain ⟨⟨m, rfl, hm⟩, hls⟩ := List.forall_mem_cons.1 h
    have hfirst : lines ('\n' :: (ls.flatten ++ cs)) = ['\n'] :: (ls ++ lines cs) := by
      rw [lines, if_pos rfl, ih hls]
    have hflat : ((m ++ ['\n']) :: ls).flatten ++ cs = m ++ '\n' :: (ls.flatten ++ cs) := by simp
    rw [hflat, lines_append hm hfirst, List.cons_append]

/-- The first line begins as the text does. -/
theorem head?_of_lines {cs l : List Char} {rest : List (List Char)} (h : lines cs = l :: rest)
    {c : Char} (hc : l.head? = some c) : cs.head? = some c := by
  have hflat := flatten_lines cs
  rw [h, List.flatten_cons] at hflat
  obtain ⟨tail, rfl⟩ := List.head?_eq_some_iff.1 hc
  rw [← hflat]
  rfl

/-- A line that another one follows has its newline. -/
private theorem byteCount_pos_of_lines {cs l next : List Char} {rest : List (List Char)}
    (h : lines cs = l :: next :: rest) : 0 < byteCount l := by
  cases cs with
  | nil => simp [lines] at h
  | cons c cs =>
    rw [lines] at h
    split at h
    · obtain ⟨rfl, -⟩ := List.cons_eq_cons.1 h
      exact Nat.add_pos_left c.utf8Size_pos _
    · split at h
      · simp at h
      · obtain ⟨rfl, -⟩ := List.cons_eq_cons.1 h
        exact Nat.add_pos_left c.utf8Size_pos _

/-! ## The line of a place -/

/-- Whole lines are passed over. -/
private theorem lineAmong?_append {l : List Char} {rest : List (List Char)} (offset number : Nat)
    (ls : List (List Char)) :
    lineAmong? number (ls ++ l :: rest) (byteCount ls.flatten + offset) =
      lineAmong? (number + ls.length) (l :: rest) offset := by
  induction ls generalizing number with
  | nil => simp
  | cons k ls ih =>
    have hnot : ¬(byteCount (k :: ls).flatten + offset < byteCount k) := by
      rw [List.flatten_cons, byteCount_append]
      omega
    have hoffset : byteCount (k :: ls).flatten + offset - byteCount k =
        byteCount ls.flatten + offset := by
      rw [List.flatten_cons, byteCount_append]
      omega
    -- another line follows, so this is not the last one
    obtain ⟨j, js, hjs⟩ : ∃ j js, ls ++ l :: rest = j :: js := by
      cases ls with
      | nil => exact ⟨l, rest, rfl⟩
      | cons j js => exact ⟨j, js ++ l :: rest, rfl⟩
    have hstep := ih (number + 1)
    rw [hjs] at hstep
    rw [List.cons_append, hjs, lineAmong?, if_neg hnot, hoffset, hstep, List.length_cons]
    · congr 1
      omega
    · simp

/-- The line of a place between two characters: its number, and what stands before the place and
    after it on the line. -/
theorem lineAt?_append {here after more : List Char} {rest : List (List Char)}
    (h : ∀ l ∈ ls, Closed l) (hhere : '\n' ∉ here) (hafter : lines after = more :: rest) :
    lineAt? (ls.flatten ++ here ++ after) (byteCount (ls.flatten ++ here)) =
      some ⟨ls.length + 1, here ++ more, byteCount here⟩ := by
  rw [lineAt?, List.append_assoc, lines_flatten_append h, lines_append hhere hafter,
    byteCount_append, lineAmong?_append, Nat.add_comm 1]
  cases rest with
  | nil => rw [lineAmong?, if_pos (by rw [byteCount_append]; omega)]
  | cons next rest =>
    have hpos := byteCount_pos_of_lines hafter
    rw [lineAmong?, if_pos (by rw [byteCount_append]; omega)]
    simp

end BranchIR.Text
