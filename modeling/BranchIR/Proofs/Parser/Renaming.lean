import BranchIR.Exp.Parser
import Mathlib.Data.List.Basic

/-!
# Renaming identifiers

A renaming replaces the texts of identifiers in tokens, and the names in scopes. Where different
names stay different, a name is found in renamed scopes under its new name, with the same identity,
and a name stands twice among new names exactly if the old one did.
-/

namespace BranchIR

variable {r : String → String}

/-- The token with a new text, if it is an identifier. -/
def Token.rename (r : String → String) (t : Token) : Token :=
  if t.kind = .identifier then { t with text := r t.text } else t

namespace Token

variable {t : Token}

/-- Renaming changes the text of an identifier. -/
theorem rename_identifier (h : t.kind = .identifier) : t.rename r = { t with text := r t.text } :=
  if_pos h

/-- Renaming changes no other token. -/
theorem rename_of_ne (h : t.kind ≠ .identifier) : t.rename r = t := if_neg h

@[simp] theorem kind_rename (r : String → String) (t : Token) : (t.rename r).kind = t.kind := by
  unfold rename
  split <;> rfl

@[simp] theorem span_rename (r : String → String) (t : Token) : (t.rename r).span = t.span := by
  unfold rename
  split <;> rfl

end Token

/-- The bindings of a scope under new names. -/
def Frame.rename (r : String → String) (frame : Frame) : Frame := frame.map fun b => (r b.1, b.2)

/-- The scopes under new names. -/
def Scopes.rename (r : String → String) (s : Scopes) : Scopes where
  inner := Frame.rename r s.inner
  outer := s.outer.map (Frame.rename r)
  names := s.names.map r

/-- A new name is found in a renamed frame where the name is found: no two names get one. -/
private theorem Frame.lookup_rename (hr : Function.Injective r) (frame : Frame) (name : String) :
    (frame.rename r).lookup (r name) = List.lookup name frame := by
  induction frame with
  | nil => rfl
  | cons b frame ih =>
    have hb : (r name == r b.1) = (name == b.1) := by
      rw [Bool.eq_iff_iff, beq_iff_eq, beq_iff_eq, hr.eq_iff]
    rw [rename, List.map_cons, List.lookup_cons, List.lookup_cons, hb]
    split
    · rfl
    · exact ih

namespace Scopes

@[simp] theorem rename_empty (r : String → String) : Scopes.empty.rename r = .empty := by
  simp [rename, empty, Frame.rename]

@[simp] theorem rename_id (s : Scopes) : s.rename id = s := by
  have hframe : Frame.rename id = id := funext fun frame => by simp [Frame.rename]
  simp [rename, hframe]

@[simp] theorem size_rename (r : String → String) (s : Scopes) : (s.rename r).size = s.size := by
  simp [rename, size]

theorem push_rename (r : String → String) (s : Scopes) : (s.rename r).push = s.push.rename r := rfl

/-- Scopes may be closed before or after they are renamed. -/
theorem pop_rename (r : String → String) (s : Scopes) : (s.rename r).pop = s.pop.rename r := by
  obtain ⟨inner, outer, names⟩ := s
  cases outer <;> rfl

/-- A name and its new name are bound to the same identity. -/
theorem bind_rename (r : String → String) (s : Scopes) (name : String) :
    (s.rename r).bind (r name) = ((s.bind name).1, (s.bind name).2.rename r) := by
  rw [bind, bind, size_rename]
  simp [rename, Frame.rename]

/-- A name and its new name stand for the same identity. -/
theorem find?_rename (hr : Function.Injective r) (s : Scopes) (name : String) :
    (s.rename r).find? (r name) = s.find? name := by
  have hframes : (s.rename r).inner :: (s.rename r).outer =
      (s.inner :: s.outer).map (Frame.rename r) := rfl
  rw [find?, find?, hframes, List.findSome?_map]
  exact congrArg (List.findSome? · _) (funext fun frame => Frame.lookup_rename hr frame name)

/-- A new name is bound in the innermost scope exactly if the name is. -/
theorem bindsHere_rename (hr : Function.Injective r) (s : Scopes) (name : String) :
    (s.rename r).bindsHere (r name) = s.bindsHere name :=
  congrArg Option.isSome (Frame.lookup_rename hr s.inner name)

end Scopes

/-- The first name that is repeated is the same up to its new name. -/
private theorem firstRepeated?_go_map (hr : Function.Injective r) (seen names : List String) :
    firstRepeated?.go (seen.map r) (names.map r) = (firstRepeated?.go seen names).map r := by
  induction names generalizing seen with
  | nil => rfl
  | cons name names ih =>
    have hseen : (seen.map r).contains (r name) = seen.contains name := by
      rw [Bool.eq_iff_iff, List.contains_iff_mem, List.contains_iff_mem,
        List.mem_map_of_injective hr]
    rw [List.map_cons, firstRepeated?.go, firstRepeated?.go, hseen]
    split
    · rfl
    · exact ih (name :: seen)

/-- The new name that stands twice is that of the name that stands twice. -/
theorem firstRepeated?_map (hr : Function.Injective r) (names : List String) :
    firstRepeated? (names.map r) = (firstRepeated? names).map r :=
  firstRepeated?_go_map hr [] names

end BranchIR
