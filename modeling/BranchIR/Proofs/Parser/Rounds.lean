import BranchIR.Proofs.Parser.Consumes

/-!
# Loops round by round

Lists, paths, trailing forms and bundles are read in loops. One round reads one item, step, form
or function, and says whether there may be another. A round that is not the last takes a token at
least, so that no more rounds follow than tokens remain: where the loop is cut behind so many of
them, it has come to its end before.
-/

namespace BranchIR

open BranchIR.Parser

variable {α β γ : Type}

namespace Parser

/-- Goes on from `b` round by round until a round gives a result. After so many rounds without
    one, `out` is run on what there is. -/
def rounds (round : β → Parser (β ⊕ γ)) (out : β → Parser γ) : (n : Nat) → β → Parser γ
  | 0, b => out b
  | n + 1, b => do
    match ← round b with
    | .inl b => rounds round out n b
    | .inr c => return c

/-- Reads the next item of a list, and the comma after it. The list ends where the closing kind
    stands, or behind an item without a comma. -/
def listRound (close : Kind) (item : Parser α) (items : List α) : Parser (List α ⊕ List α) := do
  if (← kind) = close then return .inr items
  let next ← item
  if (← kind) = .comma then
    let _ ← advance
    return .inl (items ++ [next])
  else return .inr (items ++ [next])

end Parser

/-- Reads the next step of a path. The path ends at a token that begins none. -/
def stepRound (sub : Parser (Exp Span)) (path : List (Step (Exp Span))) :
    Parser (List (Step (Exp Span)) ⊕ List (Step (Exp Span))) := do
  match ← kind with
  | .dot =>
    let _ ← advance
    let n ← readOffset
    return .inl (path ++ [.field n])
  | .openBracket =>
    let _ ← advance
    let n ← readOffset
    let _ ← expect .closeBracket
    return .inl (path ++ [.element n])
  | .less =>
    let _ ← advance
    let e ← sub
    let _ ← expect .greater
    return .inl (path ++ [.lane e])
  | .atSign =>
    let _ ← advance
    let e ← sub
    return .inl (path ++ [.index e])
  | _ => return .inr path

/-- Reads the next trailing form behind what has been read. -/
def Grammar.trailRound (g : Grammar) (sub : Parser (Exp Span)) (left : Exp Span) :
    Parser (Exp Span ⊕ Exp Span) := do
  match g.trailing.lookup (← kind) with
  | some form => return .inl (← form.read g.ty sub left)
  | none => return .inr left

/-- Reads the next function of a bundle, and the `and` after it. The identities are those that
    are left. -/
def funcRound (ty : Parser Ty) (sub : Parser (Exp Span)) :
    List VarId × List (Func Span (Exp Span)) →
      Parser (List VarId × List (Func Span (Exp Span)) ⊕ List (Func Span (Exp Span)))
  | (ids, funcs) => do
    let name ← expectOr .identifier "expected function name in rec bundle"
    match ids with
    | [] => unexpected "malformed rec bundle"
    | id :: ids =>
      let func ← inScope (readFunc ty sub id name.span.first)
      if (← kind) = .andWord then
        let _ ← advance
        return .inl (ids, funcs ++ [func])
      else return .inr (funcs ++ [func])

/-! ## The loops -/

/-- The items read before come in front of those that the loop goes on to read. -/
theorem rounds_listRound (close : Kind) (item : Parser α) (n : Nat) (items : List α) :
    rounds (listRound close item) pure n items =
      (do return items ++ (← itemsBefore close item n)) := by
  induction n generalizing items with
  | zero => simp [rounds, itemsBefore]
  | succ n ih =>
    simp only [rounds, listRound, itemsBefore, bind_assoc]
    congr 1
    funext k
    split
    · simp
    · simp only [bind_assoc]
      congr 1
      funext next
      congr 1
      funext k
      split
      · simp only [bind_assoc, pure_bind, ih, List.append_assoc, List.singleton_append]
      · simp only [pure_bind]

/-- The steps of a path, read round by round. -/
theorem rounds_stepRound (sub : Parser (Exp Span)) (n : Nat) (path : List (Step (Exp Span))) :
    rounds (stepRound sub) pure n path = (do return path ++ (← readSteps sub n)) := by
  induction n generalizing path with
  | zero => simp [rounds, readSteps]
  | succ n ih =>
    simp only [rounds, stepRound, readSteps, bind_assoc]
    congr 1
    funext k
    split <;>
      simp only [bind_assoc, pure_bind, ih, List.append_assoc, List.singleton_append,
        List.append_nil]

/-- Trailing forms, read round by round. -/
theorem rounds_trailRound (g : Grammar) (sub : Parser (Exp Span)) (n : Nat) (left : Exp Span) :
    rounds (g.trailRound sub) pure n left = g.trail sub n left := by
  induction n generalizing left with
  | zero => rfl
  | succ n ih =>
    simp only [rounds, Grammar.trailRound, Grammar.trail, bind_assoc]
    congr 1
    funext k
    cases g.trailing.lookup k with
    | none => simp only [pure_bind]
    | some form => simp only [bind_assoc, pure_bind, ih]

/-- There are no more rounds than identities, but for one that finds none left. -/
theorem rounds_funcRound {ty : Parser Ty} {sub : Parser (Exp Span)} {ids : List VarId} {n : Nat}
    (h : ids.length < n) (out) (funcs : List (Func Span (Exp Span))) :
    rounds (funcRound ty sub) out n (ids, funcs) =
      (do return funcs ++ (← readFuncs ty sub ids)) := by
  induction ids generalizing n funcs with
  | nil =>
    obtain ⟨n, rfl⟩ := Nat.exists_eq_add_of_lt h
    simp only [rounds, funcRound, readFuncs, bind_assoc]
    congr 1
  | cons id ids ih =>
    obtain ⟨n, rfl⟩ := Nat.exists_eq_add_of_lt h
    have hless : ids.length < (id :: ids).length + n := by
      rw [List.length_cons]
      omega
    simp only [rounds, funcRound, readFuncs, bind_assoc]
    congr 1
    funext name
    congr 1
    funext func
    congr 1
    funext k
    split
    · simp only [bind_assoc, pure_bind, ih hless, List.append_assoc, List.singleton_append]
    · simp only [pure_bind]

/-! ## What the rounds consume -/

/-- A round that is not the last consumes tokens. -/
def ConsumingRounds (round : β → Parser (β ⊕ γ)) : Prop :=
  ∀ s b b' s', s.Ended → round b s = .ok (.inl b') s' → Consumes s s' ∧ s'.Ended

section Consuming

variable {s s' : State}

/-- A token that is moved on from. -/
private theorem advance_consumes {k : Kind} {t : Token} (hs : s.Ended) (hk : s.current.kind = k)
    (hend : k ≠ .endOfInput) (h : advance s = .ok t s') : Consumes s s' ∧ s'.Ended := by
  obtain ⟨htakes, -, hs'⟩ := advance_sound hs hk hend h
  exact ⟨(Begins.of_takes htakes (along_goesOver.refl _) hend).consumes, hs'⟩

/-- A round that ends behind a comma has consumed an item and the comma. -/
theorem listRound_consumes {item : Parser α} (hitem : Consuming item) (close : Kind) :
    ConsumingRounds (listRound close item) := by
  intro s items items' s' hs h
  simp only [listRound, bind_eq_ok, kind_eq_ok] at h
  obtain ⟨_, _, ⟨rfl, rfl⟩, h⟩ := h
  split at h
  · cases (pure_eq_ok.1 h).1
  · simp only [bind_eq_ok, kind_eq_ok] at h
    obtain ⟨next, s₁, hnext, _, _, ⟨rfl, rfl⟩, h⟩ := h
    obtain ⟨hitem, hs₁⟩ := hitem s next s₁ hs hnext
    split at h
    · next hcomma =>
      simp only [bind_eq_ok] at h
      obtain ⟨_, s₂, hadvance, h⟩ := h
      obtain ⟨-, rfl⟩ := pure_eq_ok.1 h
      obtain ⟨hcomma, hs'⟩ := advance_consumes hs₁ hcomma (by decide) hadvance
      exact ⟨hitem.trans hcomma.goesOver, hs'⟩
    · cases (pure_eq_ok.1 h).1

variable {sub : Parser (Exp Span)}

/-- A round that gives a step has consumed the token that begins it, whichever of the four it is. -/
theorem stepRound_consumes (hsub : Consuming sub) : ConsumingRounds (stepRound sub) := by
  intro s path path' s' hs h
  have hA := along_goesOver
  simp only [stepRound, bind_eq_ok, kind_eq_ok] at h
  obtain ⟨_, _, ⟨rfl, rfl⟩, h⟩ := h
  -- each kind of step takes its first token, which is not the last one
  cases hk : s.current.kind with
  | dot =>
    simp only [hk, bind_eq_ok] at h
    obtain ⟨_, s₁, hdot, n, s₂, hoffset, h⟩ := h
    obtain ⟨-, rfl⟩ := pure_eq_ok.1 h
    obtain ⟨hdot, hs₁⟩ := advance_consumes hs hk (by decide) hdot
    obtain ⟨hoffset, hs₂⟩ := readOffset_sound hs₁ hoffset
    exact ⟨hdot.trans (hA.takes hoffset.1), hs₂⟩
  | openBracket =>
    simp only [hk, bind_eq_ok] at h
    obtain ⟨_, s₁, hopens, n, s₂, hoffset, _, s₃, hends, h⟩ := h
    obtain ⟨-, rfl⟩ := pure_eq_ok.1 h
    obtain ⟨hopens, hs₁⟩ := advance_consumes hs hk (by decide) hopens
    obtain ⟨hoffset, hs₂⟩ := readOffset_sound hs₁ hoffset
    obtain ⟨hends, -, hs₃⟩ := expect_sound hs₂ (by decide) hends
    exact ⟨hopens.trans (hA.trans (hA.takes hoffset.1) (hA.takes hends)), hs₃⟩
  | less =>
    simp only [hk, bind_eq_ok] at h
    obtain ⟨_, s₁, hopens, e, s₂, he, _, s₃, hends, h⟩ := h
    obtain ⟨-, rfl⟩ := pure_eq_ok.1 h
    obtain ⟨hopens, hs₁⟩ := advance_consumes hs hk (by decide) hopens
    obtain ⟨he, hs₂⟩ := hsub _ _ _ hs₁ he
    obtain ⟨hends, -, hs₃⟩ := expect_sound hs₂ (by decide) hends
    exact ⟨hopens.trans (hA.trans he.goesOver (hA.takes hends)), hs₃⟩
  | atSign =>
    simp only [hk, bind_eq_ok] at h
    obtain ⟨_, s₁, hsign, e, s₂, he, h⟩ := h
    obtain ⟨-, rfl⟩ := pure_eq_ok.1 h
    obtain ⟨hsign, hs₁⟩ := advance_consumes hs hk (by decide) hsign
    obtain ⟨he, hs₂⟩ := hsub _ _ _ hs₁ he
    exact ⟨hsign.trans he.goesOver, hs₂⟩
  | _ =>
    -- no step begins here, so this is the last round
    rw [hk] at h
    cases (pure_eq_ok.1 h).1

/-- A trailing form takes the token that announces it. -/
private theorem TrailingForm.read_consumes (hsub : Consuming sub) {form : TrailingForm}
    {left e : Exp Span} (hs : s.Ended) (hk : s.current.kind = form.kind)
    (h : form.read Grammar.full.ty sub left s = .ok e s') : Consumes s s' ∧ s'.Ended := by
  cases form with
  | ascription | coercion =>
    simp only [read, bind_eq_ok, spanFrom_eq_ok] at h
    obtain ⟨_, s₁, htoken, ty, s₂, hty, _, _, ⟨rfl, rfl⟩, h⟩ := h
    obtain ⟨-, rfl⟩ := pure_eq_ok.1 h
    obtain ⟨htoken, hs₁⟩ := advance_consumes hs hk (by decide) htoken
    obtain ⟨hty, hs₂⟩ := ty_consumes _ _ _ hs₁ hty
    exact ⟨htoken.trans hty.goesOver, hs₂⟩
  | call =>
    simp only [read, bind_eq_ok, spanFrom_eq_ok] at h
    obtain ⟨_, s₁, hopens, args, s₂, hargs, _, _, ⟨rfl, rfl⟩, h⟩ := h
    obtain ⟨-, rfl⟩ := pure_eq_ok.1 h
    obtain ⟨hopens, hs₁⟩ := advance_consumes hs hk (by decide) hopens
    obtain ⟨ps, -, hlist, heach, hs₂⟩ := listTo_sound hsub (by decide) hs₁ hargs
    have hover := hlist.goesOn along_goesOver.goesOn rfl fun p hp => (heach p hp).goesOver
    exact ⟨hopens.trans hover, hs₂⟩

/-- A round that gives a trailing form has consumed it. -/
theorem trailRound_consumes (hsub : Consuming sub) :
    ConsumingRounds (Grammar.full.trailRound sub) := by
  intro s left left' s' hs h
  simp only [Grammar.trailRound, bind_eq_ok, kind_eq_ok] at h
  obtain ⟨_, _, ⟨rfl, rfl⟩, h⟩ := h
  cases hform : Grammar.full.trailing.lookup s.current.kind with
  | none =>
    rw [hform] at h
    cases (pure_eq_ok.1 h).1
  | some form =>
    simp only [hform, bind_eq_ok] at h
    obtain ⟨e, s₁, he, h⟩ := h
    obtain ⟨-, rfl⟩ := pure_eq_ok.1 h
    exact form.read_consumes hsub hs (TrailingForm.kind_of_lookup hform) he

/-- A round that ends behind an `and` has consumed a function and the word. -/
theorem funcRound_consumes (hsub : Sound sub Reads) :
    ConsumingRounds (funcRound Grammar.full.ty sub) := by
  rintro s ⟨ids, funcs⟩ b' s' hs h
  simp only [funcRound, bind_eq_ok] at h
  obtain ⟨name, s₁, hname, h⟩ := h
  obtain ⟨htoken, rfl, hs₁⟩ := expectOr_sound hs (by decide) hname
  cases ids with
  | nil => exact absurd h unexpected_ne_ok
  | cons id ids =>
    simp only [bind_eq_ok, kind_eq_ok] at h
    obtain ⟨func, s₂, hfunc, _, _, ⟨rfl, rfl⟩, h⟩ := h
    obtain ⟨⟨f, -, hreads, hbody⟩, -, hs₂⟩ := readFunc_sound hsub htoken hs₁ hfunc
    have hbegins := hreads.begins along_goesOver goesOver_withScopes hbody.consumes.goesOver
    split at h
    · next hand =>
      simp only [bind_eq_ok] at h
      obtain ⟨_, s₃, hadvance, h⟩ := h
      obtain ⟨-, rfl⟩ := pure_eq_ok.1 h
      obtain ⟨hand, hs₃⟩ := advance_consumes hs₂ hand (by decide) hadvance
      exact ⟨hbegins.consumes.trans hand.goesOver, hs₃⟩
    · cases (pure_eq_ok.1 h).1

end Consuming

/-! ## Where a loop is cut -/

/-- A chain comes to the same as another one when its first parser does, and the rest does on what
    that one reads. -/
theorem Parser.bind_congr {p q : Parser α} {f g : α → Parser β} {s : State} (h : p s = q s)
    (hrest : ∀ a s', q s = .ok a s' → f a s' = g a s') : (p >>= f) s = (q >>= g) s := by
  show EStateM.bind p f s = EStateM.bind q g s
  unfold EStateM.bind
  rw [h]
  cases hq : q s with
  | ok a s' => exact hrest a s' hq
  | error e s' => rfl

/-- A loop that is let go on for so many rounds as tokens remain has come to its end, so it does
    not matter how many more there may be, and what is run behind them. -/
theorem rounds_eq_rounds {round : β → Parser (β ⊕ γ)} (h : ConsumingRounds round)
    (out out' : β → Parser γ) {n m : Nat} {s : State} (hs : s.Ended) (hn : s.remaining ≤ n)
    (hm : s.remaining ≤ m) (b : β) : rounds round out n b s = rounds round out' m b s := by
  induction n generalizing m s b with
  | zero => exact absurd hn (Nat.not_le.2 s.remaining_pos)
  | succ n ih =>
    obtain ⟨m, rfl⟩ := Nat.exists_eq_add_of_le' (Nat.le_trans s.remaining_pos hm)
    refine bind_congr rfl fun r s' hr => ?_
    cases r with
    | inr c => rfl
    | inl b' =>
      -- the other rounds are run where fewer tokens remain
      obtain ⟨hconsumes, hs'⟩ := h s b b' s' hs hr
      have hless := hconsumes.remaining_lt
      exact ih hs' (by omega) (by omega) b'

end BranchIR
