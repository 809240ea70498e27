import BranchIR.Proofs.Parser.Scoping
import BranchIR.Proofs.Token.Words

/-!
# Scopes that know written names

A variable is written as the text of its identity. Scopes know the variables of a list when each
of these texts leads to its identity. When binders are numbered in the order in which they are
read, binding the text of the next identity hands out that identity, and the scopes go on to
know what is in scope.
-/

namespace BranchIR

/-- The texts of the variables lead to them, and so many identities have been handed out. -/
structure Knows (σ : Scopes) (scope : List VarId) (n : Nat) : Prop where
  size : σ.size = n
  find : ∀ id ∈ scope, σ.find? (VarId.text id) = some id

namespace Knows

variable {σ σ' : Scopes} {scope scope' : List VarId} {n m : Nat}

/-- Of fewer names no more has to be known. -/
private theorem mono (h : Knows σ scope n) (hsub : scope' ⊆ scope) : Knows σ scope' n :=
  ⟨h.size, fun id hid => h.find id (hsub hid)⟩

/-- A new scope hides nothing. -/
theorem push (h : Knows σ scope n) : Knows σ.push scope n := ⟨h.size, h.find⟩

/-- The same scopes are open later on. -/
theorem of_extends (h : Knows σ scope n) (hσ : σ.Extends σ') (hsize : σ'.size = m) :
    Knows σ' scope m := by
  refine ⟨hsize, fun id hid => ?_⟩
  rw [Scopes.find?, hσ.inner, hσ.outer]
  exact h.find id hid

/-- Binding the text of the next identity hands out that identity. -/
theorem bind (h : Knows σ scope n) : Knows (σ.bind (VarId.text n)).2 (n :: scope) (n + 1) := by
  refine ⟨by rw [Scopes.size_bind, h.size], fun id hid => ?_⟩
  -- the new name hides no other, since names that are written alike are the same
  by_cases hn : id = n
  · subst hn
    rw [Scopes.find?_bind_self, h.size]
  · have htext : VarId.text id ≠ VarId.text n := fun heq => hn (text_injective heq)
    have hold : id ∈ scope := (List.mem_cons.1 hid).resolve_left hn
    rw [Scopes.find?_bind_of_ne _ htext]
    exact h.find id hold

/-- So does binding the texts of the next identities one after the other. -/
theorem bindAll (h : Knows σ scope n) (k : Nat) :
    Knows (σ.bindAll ((List.range' n k).map VarId.text)) (List.range' n k ++ scope) (n + k) := by
  induction k generalizing σ scope n with
  | zero => exact h
  | succ k ih =>
    have hrest := ih h.bind
    rw [Nat.add_assoc, Nat.add_comm 1] at hrest
    rw [List.range'_succ, List.map_cons]
    -- the first identity stands behind the others here and in front of them there
    apply hrest.mono
    intro id hid
    simpa [or_left_comm, or_assoc] using hid

end Knows

/-! ## Names that differ -/

/-- No name is repeated if the names differ from each other and from those seen. -/
private theorem firstRepeated?_go_eq_none {seen names : List String} :
    firstRepeated?.go seen names = none ↔ names.Nodup ∧ ∀ name ∈ names, name ∉ seen := by
  induction names generalizing seen with
  | nil => simp [firstRepeated?.go]
  | cons name names ih =>
    rw [firstRepeated?.go]
    by_cases hseen : name ∈ seen
    · simp [hseen]
    · -- a later name was not seen before, nor is it the one that has just been seen
      rw [if_neg (by simpa using hseen), ih]
      rw [List.nodup_cons, List.forall_mem_cons]
      simp only [List.mem_cons, not_or]
      constructor
      · intro ⟨hnodup, hlater⟩
        exact ⟨⟨fun hmem => (hlater name hmem).1 rfl, hnodup⟩, hseen,
          fun other hother => (hlater other hother).2⟩
      · intro ⟨⟨hnot, hnodup⟩, _, hlater⟩
        refine ⟨hnodup, fun other hother => ⟨?_, hlater other hother⟩⟩
        rintro rfl
        exact hnot hother

/-- No name stands twice among names that differ from each other, and only there. -/
theorem firstRepeated?_eq_none {names : List String} :
    firstRepeated? names = none ↔ names.Nodup :=
  firstRepeated?_go_eq_none.trans (and_iff_left (by simp))

/-- Binding other names does not change what a name leads to. -/
private theorem Scopes.find?_bindAll_of_notMem {σ : Scopes} {names : List String} {name : String}
    (h : name ∉ names) : (σ.bindAll names).find? name = σ.find? name := by
  induction names generalizing σ with
  | nil => rfl
  | cons first rest ih =>
    rw [List.mem_cons, not_or] at h
    rw [← Scopes.find?_bind_of_ne σ h.1]
    exact ih h.2

/-- Of names that differ from each other, each stands for its own identity. -/
theorem Scopes.find?_bindAll {σ : Scopes} {names : List String} (h : names.Nodup) :
    List.Forall₂ (fun id name => (σ.bindAll names).find? name = some id)
      (List.range' σ.size names.length) names := by
  induction names generalizing σ with
  | nil => exact .nil
  | cons name names ih =>
    obtain ⟨hnot, hrest⟩ := List.nodup_cons.1 h
    have hlater := @ih (σ.bind name).2 hrest
    rw [Scopes.size_bind] at hlater
    refine .cons ?_ hlater
    have hfirst := @Scopes.find?_bindAll_of_notMem (σ.bind name).2 _ _ hnot
    rw [Scopes.find?_bind_self] at hfirst
    exact hfirst

/-- Different identities are printed differently. -/
theorem nodup_map_text (n k : Nat) : ((List.range' n k).map VarId.text).Nodup := by
  refine List.Pairwise.map _ ?_ (List.nodup_range' ..)
  intro i j hne heq
  exact hne (text_injective heq)

/-- A scope binds a name when the name is one of those bound in it. -/
theorem Scopes.bindsHere_bind (σ : Scopes) (name other : String) :
    (σ.bind name).2.bindsHere other = (other == name || σ.bindsHere other) := by
  simp only [bindsHere, bind, List.lookup_cons]
  cases other == name <;> rfl

end BranchIR
