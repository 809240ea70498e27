import Mathlib.Data.Set.Function
import Mathlib.Logic.Equiv.Basic
import BranchIR.FrontEnd
import BranchIR.Proofs.Parser.Compared
import BranchIR.Proofs.Token.Places

/-!
# Reading does not depend on the choice of names

A renaming gives every name a new one, and keeps different names different. The words that mean
something in types keep their texts. The tokens of a source text are read in the same way before
and after: to the same tree, with the new names in the table of names, or with an error of the
same class at the same place.
-/

namespace BranchIR

open Exp

variable {r : String → String}

/-- A choice of new names: names become names, different names become different ones, and the
    words of types keep their texts. -/
structure Renaming (r : String → String) : Prop where
  mapsTo : ∀ name, isName name = true → isName (r name) = true
  injOn : Set.InjOn r {name | isName name = true}
  /-- The word between a length and a type. -/
  times : r "x" = "x"
  tyWord : ∀ name, isName name = true → (Ty.ofWord? name).isSome = true → r name = name

/-- Both runs read the same tree, and the second has the new names in its table, or both end with
    errors of one class at one place. -/
inductive SameReading (r : String → String) : Except Error Program → Except Error Program → Prop
  | ok {p p' : Program} (tree : p'.tree = p.tree) (names : p'.scopes.names = p.scopes.names.map r) :
      SameReading r (.ok p) (.ok p')
  | error {e e' : Error} (cause : e'.cause.name = e.cause.name)
      (position : e'.position = e.position) :
      SameReading r (.error e) (.error e')

/-! ## Texts that are no names -/

/-- The renaming, with all texts that are no names kept as they are. -/
private def onNames (r : String → String) (text : String) : String :=
  if isName text then r text else text

/-- On names the map is the renaming itself. -/
private theorem onNames_of_isName {name : String} (h : isName name = true) :
    onNames r name = r name :=
  if_pos h

namespace Renaming

/-- Names go to names, and what is no name stays. -/
private theorem isName_onNames (hr : Renaming r) (text : String) :
    isName (onNames r text) = isName text := by
  unfold onNames
  split
  · next h => rw [h, hr.mapsTo text h]
  · rfl

/-- Two texts that go to the same text are both names or both none, and either way equal. -/
private theorem onNames_injective (hr : Renaming r) : Function.Injective (onNames r) := by
  intro text text' heq
  have hnames : isName text = isName text' := by
    rw [← hr.isName_onNames, heq, hr.isName_onNames]
  unfold onNames at heq
  rw [hnames] at heq
  split at heq
  · next h => exact hr.injOn (hnames.trans h) h heq
  · exact heq

/-- A name does not become the word of a type, because that word is its own new name. -/
private theorem ofWord?_onNames (hr : Renaming r) (text : String) :
    Ty.ofWord? (onNames r text) = Ty.ofWord? text := by
  by_cases hname : isName text = true
  · rw [onNames_of_isName hname]
    by_cases hword : r text = text
    · rw [hword]
    · have hold : Ty.ofWord? text = none := by
        by_contra h
        exact hword (hr.tyWord text hname (Option.isSome_iff_ne_none.2 h))
      have hnew : Ty.ofWord? (r text) = none := by
        by_contra h
        have hfixed := hr.tyWord (r text) (hr.mapsTo text hname) (Option.isSome_iff_ne_none.2 h)
        exact hword (hr.injOn (hr.mapsTo text hname) hname hfixed)
      rw [hold, hnew]
  · rw [onNames, if_neg hname]

/-- Tokens that are the same but for new names of identifiers. -/
private def comparison (hr : Renaming r) : Comparison where
  known t := t.kind = .identifier → isName t.text = true
  rename := onNames r
  spans := true
  rename_injective := hr.onNames_injective
  ofWord?_rename := hr.ofWord?_onNames
  rename_times := by
    unfold onNames
    split
    · exact hr.times
    · rfl

/-- A token matches its renamed form: only identifiers change, and they are names. -/
private theorem matches_rename (hr : Renaming r) {t : Token}
    (ht : t.kind = .identifier → isName t.text = true) :
    Token.Matches hr.comparison t (t.rename r) where
  kind := (Token.kind_rename r t).symm
  name hk := by
    rw [Token.rename_identifier hk]
    exact (onNames_of_isName (ht hk)).symm
  text hk := by rw [Token.rename_of_ne hk]
  span := by rw [Token.span_rename]
  known := ht

/-- Names in scopes are texts of identifiers. -/
private theorem isName_of_named (hr : Renaming r) {name : String} (h : hr.comparison.Named name) :
    isName name = true := by
  obtain ⟨t, hknown, hk, rfl⟩ := h
  exact hknown hk

/-- Trees that are the same with their spans are equal. -/
private theorem eq_of_same (hr : Renaming r) {e e' : Exp Span}
    (h : Same (mapAnn hr.comparison.span) e e') : e = e' := by
  have hback : Function.LeftInverse (Option.getD · e.ann) hr.comparison.span := fun _ => rfl
  exact (mapAnn_leftInverse hback).injective h

/-- The table of the renamed run has the names of the other one, renamed. -/
private theorem names_eq (hr : Renaming r) {scopes scopes' : Scopes}
    (h : scopes' = scopes.rename hr.comparison.rename)
    (hnamed : ∀ name ∈ scopes.names, hr.comparison.Named name) :
    scopes'.names = scopes.names.map r := by
  rw [h]
  exact Array.map_congr_left fun name hname =>
    onNames_of_isName (hr.isName_of_named (hnamed name hname))

/-- Two errors of the same class are of one kind. -/
private theorem sameClass (hr : Renaming r) {cause cause' : Cause}
    (h : hr.comparison.SameCause cause cause') : cause'.name = cause.name := by
  rcases h with rfl | ⟨-, hclass⟩
  · rfl
  · exact hclass.symm

end Renaming

/-- The tokens of a source text are read in the same way under new names. -/
theorem ofTokens_rename {source file : String} {tokens : List Token} (hr : Renaming r)
    (h : tokenize source file = .ok tokens) :
    SameReading r (Program.ofTokens file tokens)
      (Program.ofTokens file (tokens.map (Token.rename r))) := by
  have hnames : ∀ t ∈ tokens, t.kind = .identifier → isName t.text = true :=
    tokensFrom_isName file 0 source.toList tokens h
  have hmatches : List.Forall₂ (Token.Matches hr.comparison) tokens (tokens.map (Token.rename r)) :=
    List.forall₂_map_right_iff.2 (List.forall₂_same.2 fun t ht => hr.matches_rename (hnames t ht))
  have halike : State.Alike hr.comparison (State.ofTokens file tokens)
      (State.ofTokens file (tokens.map (Token.rename r))) :=
    State.alike_ofTokens (fun _ _ hk => by cases hk) (fun _ => rfl) hmatches
  have hrun := ofTokens_inStep halike
  generalize Program.ofTokens file tokens = x at hrun
  generalize Program.ofTokens file (tokens.map (Token.rename r)) = x' at hrun
  cases hrun with
  | ok tree scopes named => exact .ok (hr.eq_of_same tree).symm (hr.names_eq scopes named)
  | error cause places => exact .error (hr.sameClass cause) (places.samePlace rfl).symm

/-! ## Exchanging two names -/

/-- Two names that mean nothing in types may be exchanged. -/
private theorem Renaming.swap {a b : String} (ha : isName a = true) (hb : isName b = true)
    (hax : "x" ≠ a) (hbx : "x" ≠ b) (hta : Ty.ofWord? a = none) (htb : Ty.ofWord? b = none) :
    Renaming (Equiv.swap a b) where
  mapsTo name hname := by
    rw [Equiv.swap_apply_def]
    split
    · exact hb
    · split
      · exact ha
      · exact hname
  injOn := (Equiv.swap a b).injective.injOn
  times := Equiv.swap_apply_of_ne_of_ne hax hbx
  tyWord name _ hword := by
    have hne {c : String} (hc : Ty.ofWord? c = none) : name ≠ c := by
      rintro rfl
      rw [hc] at hword
      cases hword
    exact Equiv.swap_apply_of_ne_of_ne (hne hta) (hne htb)

/-- A loop whose argument hides a value outside. -/
private def hiddenValue : String :=
  "let k: i8 = 1i8 in rec f(k: i8): i8 = f(k) in f(k)"

/-- Where the names of the loop and of its argument are exchanged, the argument still hides the
    value outside, and the table of names has them exchanged. -/
theorem ofTokens_rename_shadowing :
    ∃ tokens, tokenize hiddenValue "hidden" = .ok tokens ∧
      Renaming (Equiv.swap "f" "k") ∧
      SameReading (Equiv.swap "f" "k") (Program.ofTokens "hidden" tokens)
        (Program.ofTokens "hidden" (tokens.map (Token.rename (Equiv.swap "f" "k")))) ∧
      (Program.ofTokens "hidden" tokens).toOption.map (·.scopes.names) =
        some #["k", "f", "k"] := by
  have hr : Renaming (Equiv.swap "f" "k") :=
    .swap (by decide) (by decide) (by decide) (by decide) (by decide) (by decide)
  have hrun : (tokenize hiddenValue "hidden").toOption.any (fun tokens =>
      (Program.ofTokens "hidden" tokens).toOption.map (·.scopes.names) ==
        some #["k", "f", "k"]) = true := by
    decide +kernel
  cases h : tokenize hiddenValue "hidden" with
  | error e =>
    rw [h] at hrun
    cases hrun
  | ok tokens =>
    rw [h] at hrun
    exact ⟨tokens, rfl, hr, ofTokens_rename hr h, beq_iff_eq.1 hrun⟩

end BranchIR
