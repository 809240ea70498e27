import BranchIR.Proofs.Parser.Known
import BranchIR.Proofs.Parser.Steady

/-!
# The names found ahead are those of the functions

The names of a bundle are bound before its first function is read, from a pass over the tokens
that knows nothing of the grammar but three words that go with an `in`. The reader of the bundle
relies on it that the names it comes to are these. It may: whatever the tokens are, each name it
takes is the one found ahead for the function, also where reading fails later on; and when it
does not fail, no name is left over.
-/

namespace BranchIR

/-- Reads the bundle whose `rec` is the current token and notes the names that it takes, where
    the expressions inside have at most `fuel` levels. -/
abbrev bundleReader (fuel : Nat) : Noting (Exp Span) :=
  noteRec Grammar.full.ty (Grammar.full.exprAt fuel .loose)

/-- How the run of the reader of a bundle agrees with the names found ahead. -/
structure BundleAgrees (fuel : Nat) (s : State) : Prop where
  /-- The names that are taken, however the run ends, are the first ones found. -/
  taken : (bundleReader fuel).noted s <+: s.bundleNames
  /-- It does not end with more functions than were found. -/
  formed : ∀ e s', (bundleReader fuel).erase s = .error e s' → ¬ e.Malformed
  /-- If it succeeds then all names found are taken, one for each function. The function begins
      with its name, and has the identity that the name has where all names are bound. -/
  complete : ∀ e s', (bundleReader fuel).erase s = .ok e s' →
    (bundleReader fuel).noted s = s.bundleNames ∧
      ∃ a fs body, e = .recIn a fs body ∧
        List.Forall₂ (fun f t => f.ann.first = t.span.first) fs s.bundleNames ∧
        List.Forall₂ (fun f t => s.bundleScopes.find? t.text = some f.name) fs s.bundleNames

variable {s : State}

/-- The functions of a bundle that was read begin with the names found ahead, and have their
    identities. -/
private theorem Reads.recIn_names {a : Span} {fs : List (Func Span (Exp Span))} {body : Exp Span}
    {s' : State} (hk : s.current.kind = .recWord) (h : Reads s (.recIn a fs body) s') :
    List.Forall₂ (fun f t => f.ann.first = t.span.first) fs s.bundleNames ∧
      List.Forall₂ (fun f t => s.bundleScopes.find? t.text = some f.name) fs s.bundleNames := by
  cases h with
  | group opens _ _ =>
    rw [opens.kind] at hk
    cases hk
  | @recIn pieces _ _ _ _ _ _ _ word distinct named funcs each inWord _ _ =>
    have hstarts := funcs.bundleNames word each inWord
    have hlength := funcs.length_bundleNames word each inWord
    have hids : pieces.map (·.name) = List.range' s.scopes.size s.bundleNames.length :=
      named.eq_of_length (by simp [hlength])
    have hfind := @Scopes.find?_bindAll s.scopes.push _ (firstRepeated?_eq_none.1 distinct)
    rw [Scopes.size_push, List.length_map, ← hids, List.forall₂_map_left_iff,
      List.forall₂_map_right_iff] at hfind
    exact ⟨List.forall₂_map_left_iff.2 hstarts, List.forall₂_map_left_iff.2 hfind⟩

/-- Wherever reading stands at the `rec` of a bundle, its reader agrees with the names found
    ahead. -/
private theorem bundleReader_agrees (fuel : Nat) (hs : s.Ended) (hk : s.current.kind = .recWord) :
    BundleAgrees fuel s := by
  have hsound := exprAt_sound fuel .loose
  have htaken := noteRec_takes_first hsound hs hk
  refine ⟨htaken, fun e s' h => ?_, fun e s' h => ?_⟩
  · have hsub := Steady.exprAt lasting_onward fuel .loose
    have hrun := Steady.readRec lasting_onward hsub hsound hs hk
    rw [erase_noteRec] at h
    rw [h] at hrun
    exact hrun.not_malformed
  · rw [erase_noteRec] at h
    obtain ⟨a, fs, body, rfl, hlength⟩ := noteRec_of_ok h
    obtain ⟨hstarts, hfind⟩ := (readRec_sound hsound hs hk h).1.recIn_names hk
    -- as many names are taken as there are functions, and as many are found
    have hall := htaken.eq_of_length (hlength.trans hstarts.length_eq)
    exact ⟨hall, a, fs, body, rfl, hstarts, hfind⟩

/-- No program is refused for a malformed bundle. -/
private theorem ofTokens_not_malformed {file : String} {tokens : List Token} {e : Error}
    (h : Program.ofTokens file tokens = .error e) : ¬ e.Malformed := by
  have hrun := Steady.program lasting_onward _ (State.ofTokens_ended file tokens)
  rw [Program.ofTokens] at h
  split at h
  · cases h
  · next hprogram =>
    cases h
    rw [hprogram] at hrun
    exact hrun.not_malformed

/-- Whatever the tokens, no program is refused because a bundle has more functions than were found
    ahead. And wherever reading stands at the `rec` of a bundle, the reader of the grammar with a
    note of the names taken agrees with the names found ahead. -/
theorem bundle_agrees :
    (∀ file tokens e, Program.ofTokens file tokens = .error e → ¬ e.Malformed) ∧
      ∀ fuel, (bundleReader fuel).erase =
          OpeningForm.readRec Grammar.full.ty (Grammar.full.exprAt fuel .loose) ∧
        ∀ s, s.Ended → s.current.kind = .recWord → BundleAgrees fuel s :=
  ⟨fun _ _ _ => ofTokens_not_malformed,
    fun fuel => ⟨erase_noteRec .., fun _ => bundleReader_agrees fuel⟩⟩

/-- A bundle with another one in its first function, and a let and a store, which have an `in`
    of their own, in the second one. -/
private def forms : String :=
  "rec f(x: i8): i8 = (rec g(y: i8): i8 = y and h(): i8 = x in g(x))
    and k(): i8 = let v: i8 = 1i8 in store v = v in f(v) in k()"

/-- Only the two functions of the bundle itself are taken by its reader. -/
theorem bundle_agrees_forms :
    ∃ tokens, tokenize forms "forms" = .ok tokens ∧
      (State.ofTokens "forms" tokens).Ended ∧
      (State.ofTokens "forms" tokens).current.kind = .recWord ∧
      ((bundleReader 9).noted (State.ofTokens "forms" tokens)).map (·.text) = ["f", "k"] ∧
      BundleAgrees 9 (State.ofTokens "forms" tokens) := by
  -- the names are found by running the reader
  have hrun : (tokenize forms "forms").toOption.map (fun tokens =>
      ((State.ofTokens "forms" tokens).current.kind,
        ((bundleReader 9).noted (State.ofTokens "forms" tokens)).map (·.text))) =
          some (.recWord, ["f", "k"]) := by
    decide +kernel
  cases h : tokenize forms "forms" with
  | error e =>
    rw [h] at hrun
    cases hrun
  | ok tokens =>
    rw [h] at hrun
    obtain ⟨hkind, hnames⟩ := Prod.mk.inj (Option.some.inj hrun)
    have hended := State.ofTokens_ended "forms" tokens
    exact ⟨tokens, rfl, hended, hkind, hnames, (bundle_agrees.2 9).2 _ hended hkind⟩

end BranchIR
