import BranchIR.Proofs.Exp.Alike
import BranchIR.Proofs.Parser.Compared
import BranchIR.Proofs.Typing.Spans

/-!
# Reading does not depend on layout

When the tokens are the same but for their spans, all readers run in step. So programs are read
that are equal but for spans, with the same scopes, or both runs fail for the same cause.
-/

namespace BranchIR

open Exp

/-- Tokens that are the same but for spans, where something is known of those of the first run. -/
private def upToSpans (known : Token → Prop) : Comparison where
  known := known
  rename := id
  spans := false
  rename_injective := Function.injective_id
  ofWord?_rename _ := rfl
  rename_times := rfl

/-- Tokens that are written alike match where spans do not count. -/
private theorem matches_of_lexeme {known : Token → Prop} {t t' : Token}
    (h : t.lexeme = t'.lexeme) (ht : known t) : Token.Matches (upToSpans known) t t' where
  kind := congrArg Lexeme.kind h
  name _ := (congrArg Lexeme.text h).symm
  text _ := (congrArg Lexeme.text h).symm
  span := rfl
  known := ht

/-- No name differs, so the causes are the same. -/
private theorem eq_of_sameCause {known : Token → Prop} {cause cause' : Cause}
    (h : (upToSpans known).SameCause cause cause') : cause = cause' := by
  rcases h with h | ⟨⟨name, hname⟩, -⟩
  · exact h
  · exact absurd rfl hname

/-- Trees that are the same where spans do not count are equal without their spans. -/
private theorem mapAnn_noAnn_of_same {known : Token → Prop} {e e' : Exp Span}
    (h : Same (mapAnn (upToSpans known).span) e e') : e.mapAnn noAnn = e'.mapAnn noAnn := by
  have hforget := congrArg (mapAnn noAnn) h
  rwa [mapAnn_mapAnn, mapAnn_mapAnn] at hforget

/-- Tokens without their spans match. -/
private theorem matches_of_lexemes {ts ts' : List Token}
    (h : ts.map Token.lexeme = ts'.map Token.lexeme) :
    List.Forall₂ (Token.Matches (upToSpans fun _ => True)) ts ts' := by
  have hforall : List.Forall₂ (fun t t' : Token => t.lexeme = t'.lexeme) ts ts' := by
    rw [← List.forall₂_map_left_iff (f := Token.lexeme) (R := fun w t' => w = Token.lexeme t'),
      h, List.forall₂_map_left_iff]
    exact List.forall₂_refl _
  exact hforall.imp fun _ _ hlexeme => matches_of_lexeme hlexeme trivial

/-- Token lists that are equal but for spans are read to programs that are equal but for spans,
    or refused for the same cause. -/
theorem ofTokens_agrees {file file' : String} {tokens tokens' : List Token}
    (h : tokens.map Token.lexeme = tokens'.map Token.lexeme) :
    Agrees (fun p p' => p.tree.mapAnn noAnn = p'.tree.mapAnn noAnn ∧ p.scopes = p'.scopes)
      (Program.ofTokens file tokens) (Program.ofTokens file' tokens') := by
  have halike : State.Alike (upToSpans fun _ => True) (State.ofTokens file tokens)
      (State.ofTokens file' tokens') :=
    State.alike_ofTokens (fun _ _ => trivial) (by simp [upToSpans]) (matches_of_lexemes h)
  have hrun := ofTokens_inStep halike
  generalize Program.ofTokens file tokens = x at hrun
  generalize Program.ofTokens file' tokens' = x' at hrun
  cases hrun with
  | ok tree scopes named =>
    exact .ok ⟨mapAnn_noAnn_of_same tree, by simpa [upToSpans] using scopes.symm⟩
  | error cause places => exact .error (eq_of_sameCause cause)

/-- A state in which no name is bound is like itself, and all its tokens are known. -/
private theorem alike_self {s : State} (h : s.scopes = .empty) :
    State.Alike (upToSpans (· ∈ s.tokens)) s s := by
  have hmatches (ts : List Token) (hts : ∀ t ∈ ts, t ∈ s.tokens) :
      List.Forall₂ (Token.Matches (upToSpans (· ∈ s.tokens))) ts ts :=
    List.forall₂_same.2 fun t ht => matches_of_lexeme rfl (hts t ht)
  refine ⟨hmatches _ ?_, matches_of_lexeme rfl ?_, hmatches _ ?_, by simp [upToSpans], ?_⟩
  · intro t ht
    simp [State.tokens, ht]
  · simp [State.tokens]
  · intro t ht
    simp [State.tokens, ht]
  · simp [h, Scopes.empty]

/-- A program is refused where one of its tokens begins. -/
theorem ofTokens_error {file : String} {tokens : List Token} {e : Error}
    (h : Program.ofTokens file tokens = .error e) :
    ∃ t ∈ (State.ofTokens file tokens).tokens, e.position = t.span.first := by
  have hempty : (State.ofTokens file tokens).scopes = .empty := by cases tokens <;> rfl
  -- the run is in step with itself
  have hrun := ofTokens_inStep (alike_self hempty)
  rw [h] at hrun
  cases hrun with
  | error cause places =>
    obtain ⟨t, _, ht, hposition, -⟩ := places
    exact ⟨t, ht.known, hposition⟩

end BranchIR
