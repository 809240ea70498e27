import BranchIR.Proofs.Parser.ExpSound
import BranchIR.Proofs.Parser.Lookahead

/-!
# The names that a bundle takes

While a bundle is read, the names of its functions are taken one after the other, each when the
functions before it have been read. The readers of a bundle are written here once more with a
note of each name taken, which is kept also when reading fails later on. Without the notes they
are the readers themselves. The functions read so far are balanced for the look-ahead, so the
names taken are always the first ones that it has found.
-/

namespace BranchIR

open BranchIR.Parser

variable {α β : Type}

/-! ## Readers that note tokens -/

/-- Reads tokens as a parser does, and tells which ones it has noted on the way, whether it
    succeeds or not. -/
def Noting (α : Type) : Type := State → List Token × EStateM.Result Error State α

namespace Noting

/-- The parser without its notes. -/
def erase (q : Noting α) : Parser α := fun s => (q s).2

/-- The tokens noted in a run from a state. -/
def noted (q : Noting α) (s : State) : List Token := (q s).1

instance : Monad Noting where
  pure a := fun s => ([], .ok a s)
  bind q f := fun s =>
    match q s with
    | (ts, .ok a s') => (ts ++ (f a).noted s', (f a).erase s')
    | (ts, .error e s') => (ts, .error e s')

/-- A parser notes nothing by itself. -/
instance : MonadLift Parser Noting := ⟨fun p s => ([], p s)⟩

/-- Notes a token. -/
def note (t : Token) : Noting Unit := fun s => ([t], .ok () s)

/-- Runs a parser with notes in a scope of its own. -/
def inScope (q : Noting α) : Noting α := fun s =>
  (q.noted { s with scopes := s.scopes.push }, Parser.inScope q.erase s)

section Laws

variable {s : State}

/-- What a chain does from a state. -/
private theorem bind_apply (q : Noting α) (f : α → Noting β) :
    (q >>= f) s = match q s with
      | (ts, .ok a s') => (ts ++ (f a).noted s', (f a).erase s')
      | (ts, .error e s') => (ts, .error e s') := rfl

/-- A run is what it has noted and what it comes to. -/
private theorem apply_eq {q : Noting α} {result : EStateM.Result Error State α}
    (h : q.erase s = result) : q s = (q.noted s, result) :=
  Prod.ext rfl h

@[simp] theorem erase_pure (a : α) : (pure a : Noting α).erase = pure a := rfl

@[simp] theorem erase_lift (p : Parser α) : (liftM p : Noting α).erase = p := rfl

@[simp] theorem erase_inScope (q : Noting α) : q.inScope.erase = Parser.inScope q.erase := rfl

/-- Without its notes, a run of two readers is a run of both without theirs. -/
@[simp] theorem erase_bind (q : Noting α) (f : α → Noting β) :
    (q >>= f).erase = q.erase >>= fun a => (f a).erase := by
  funext s
  show ((q >>= f) s).2 = EStateM.bind q.erase _ s
  unfold EStateM.bind
  cases h : q.erase s with
  | ok a s' => rw [bind_apply, apply_eq h]
  | error e s' => rw [bind_apply, apply_eq h]

@[simp] theorem erase_get : (get : Noting State).erase = get := rfl

/-- Taking a note is no step of the parser. -/
@[simp] theorem erase_note (t : Token) : (note t).erase = pure () := rfl

@[simp] theorem erase_ite {c : Prop} [Decidable c] (p q : Noting α) :
    (if c then p else q).erase = if c then p.erase else q.erase :=
  apply_ite ..

/-- Behind a success the notes of the second reader follow those of the first. -/
private theorem noted_bind_of_ok {q : Noting α} {f : α → Noting β} {a : α} {s' : State}
    (h : q.erase s = .ok a s') : (q >>= f).noted s = q.noted s ++ (f a).noted s' := by
  rw [noted, bind_apply, apply_eq h]

/-- Behind a failure nothing more is noted. -/
private theorem noted_bind_of_error {q : Noting α} {f : α → Noting β} {e : Error} {s' : State}
    (h : q.erase s = .error e s') : (q >>= f).noted s = q.noted s := by
  rw [noted, bind_apply, apply_eq h]

@[simp] theorem noted_lift (p : Parser α) : (liftM p : Noting α).noted s = [] := rfl

/-- What follows without a note adds none. -/
private theorem noted_bind_of_silent {q : Noting α} {f : α → Noting β}
    (h : ∀ a s', (f a).noted s' = []) : (q >>= f).noted s = q.noted s := by
  cases hq : q.erase s with
  | ok a s' => rw [noted_bind_of_ok hq, h, List.append_nil]
  | error e s' => rw [noted_bind_of_error hq]

/-- A reader that notes nothing leaves the notes to what comes after it. -/
private theorem noted_lift_bind_of_ok {p : Parser α} {f : α → Noting β} {a : α} {s' : State}
    (h : p s = .ok a s') : ((liftM p : Noting α) >>= f).noted s = (f a).noted s' :=
  noted_bind_of_ok (q := liftM p) h

/-- If a reader that notes nothing fails, nothing is noted. -/
private theorem noted_lift_bind_of_error {p : Parser α} {f : α → Noting β} {e : Error} {s' : State}
    (h : p s = .error e s') : ((liftM p : Noting α) >>= f).noted s = [] :=
  noted_bind_of_error (q := liftM p) h

end Laws

end Noting

/-! ## The readers of a bundle with notes -/

open Noting (note)

variable (ty : Parser Ty) (sub : Parser (Exp Span))

/-- Reads the functions of a bundle and notes their names. -/
def noteFuncs : List VarId → Noting (List (Func Span (Exp Span)))
  | [] => do
    let name ← expectOr .identifier "expected function name in rec bundle"
    note name
    unexpected "malformed rec bundle"
  | id :: ids => do
    let name ← expectOr .identifier "expected function name in rec bundle"
    note name
    let func ← Parser.inScope (readFunc ty sub id name.span.first)
    if (← kind) = .andWord then
      let _ ← advance
      return func :: (← noteFuncs ids)
    else return [func]

/-- Reads a bundle from its first function on and notes the names of its functions. -/
def noteBundle (names : List String) : Noting (List (Func Span (Exp Span)) × Exp Span) := do
  match firstRepeated? names with
  | some name => unexpected ("function `" ++ name ++ "` defined twice in one rec bundle")
  | none =>
    let ids ← (names.mapM bindName : Parser (List VarId))
    let funcs ← noteFuncs ty sub ids
    let _ ← expect .inWord
    return (funcs, ← sub)

/-- Reads a bundle and the expression that uses it, and notes the names of its functions. -/
def noteRec : Noting (Exp Span) := do
  let names := (← get).bundleNames
  let start := (← advance).span.first
  let (funcs, body) ← Noting.inScope (noteBundle ty sub (names.map (·.text)))
  return .recIn (← spanFrom start) funcs body

/-- Without its notes, this is how the functions of a bundle are read. -/
private theorem erase_noteFuncs (ids : List VarId) :
    (noteFuncs ty sub ids).erase = readFuncs ty sub ids := by
  induction ids with
  | nil => simp [noteFuncs, readFuncs]
  | cons id ids ih => simp [noteFuncs, readFuncs, ih]

/-- Without its notes, this is how a bundle is read. -/
private theorem erase_noteBundle (names : List String) :
    (noteBundle ty sub names).erase = readBundle ty sub names := by
  unfold noteBundle readBundle
  cases firstRepeated? names with
  | some name => rfl
  | none => simp [erase_noteFuncs]

/-- Without the notes, the reader is the one of the grammar. -/
theorem erase_noteRec : (noteRec ty sub).erase = OpeningForm.readRec ty sub := by
  simp [noteRec, OpeningForm.readRec, erase_noteBundle]

/-! ## The names noted -/

section Noted

variable {ty sub} {s : State} {ids : List VarId}

/-- A name is noted as soon as it is read. -/
private theorem noted_name_bind (message : String) (rest : Token → Noting β) :
    (do let name ← expectOr .identifier message; note name; rest name : Noting β).noted s =
      if s.current.kind = .identifier then s.current :: (rest s.current).noted s.next else [] := by
  split
  · next hk =>
    have hread : expectOr .identifier message s = .ok s.current s.next :=
      expectOr_eq_ok.2 ⟨hk, rfl, rfl⟩
    rw [Noting.noted_lift_bind_of_ok hread, Noting.noted_bind_of_ok rfl]
    rfl
  · next hk =>
    cases hread : expectOr .identifier message s with
    | ok t s' => exact absurd (expectOr_eq_ok.1 hread).1 hk
    | error e s' => exact Noting.noted_lift_bind_of_error hread

/-- After a function, further names are noted only behind an `and`. -/
private theorem noted_more (func : Func Span (Exp Span)) :
    (do
      if (← kind) = .andWord then
        let _ ← advance
        return func :: (← noteFuncs ty sub ids)
      else return [func] : Noting (List (Func Span (Exp Span)))).noted s =
        if s.current.kind = .andWord then (noteFuncs ty sub ids).noted s.next else [] := by
  rw [Noting.noted_lift_bind_of_ok (kind_eq_ok.2 ⟨rfl, rfl⟩)]
  split
  · rw [Noting.noted_lift_bind_of_ok (advance_eq_ok.2 ⟨rfl, rfl⟩)]
    exact Noting.noted_bind_of_silent fun _ _ => rfl
  · rfl

/-- No name is taken where no identifier stands. -/
private theorem noted_noteFuncs_of_ne (hk : s.current.kind ≠ .identifier) :
    (noteFuncs ty sub ids).noted s = [] := by
  cases ids <;> rw [noteFuncs, noted_name_bind, if_neg hk]

/-- A name is taken before it is found that there is no identity left for it. -/
theorem noted_noteFuncs_nil (hk : s.current.kind = .identifier) :
    (noteFuncs ty sub []).noted s = [s.current] := by
  rw [noteFuncs, noted_name_bind, if_pos hk, Noting.noted_lift]

/-- The name of a function is noted, whether the function can be read or not. -/
private theorem noted_noteFuncs_of_error {id : VarId} {e : Error} {s₁ : State}
    (hk : s.current.kind = .identifier)
    (h : Parser.inScope (readFunc ty sub id s.position) s.next = .error e s₁) :
    (noteFuncs ty sub (id :: ids)).noted s = [s.current] := by
  rw [noteFuncs, noted_name_bind, if_pos hk]
  exact congrArg _ (Noting.noted_lift_bind_of_error h)

/-- Behind a function the names of further ones are taken if an `and` stands there. -/
theorem noted_noteFuncs_of_ok {id : VarId} {func : Func Span (Exp Span)} {s₁ : State}
    (hk : s.current.kind = .identifier)
    (h : Parser.inScope (readFunc ty sub id s.position) s.next = .ok func s₁) :
    (noteFuncs ty sub (id :: ids)).noted s = s.current ::
      if s₁.current.kind = .andWord then (noteFuncs ty sub ids).noted s₁.next else [] := by
  rw [noteFuncs, noted_name_bind, if_pos hk, ← noted_more func]
  exact congrArg _ (Noting.noted_lift_bind_of_ok h)

/-- The names noted while functions are read are the first ones that the pass over the tokens
    finds from there on, however the reading ends. -/
private theorem noteFuncs_takes_first (hsub : Sound sub Reads) (ids : List VarId) (hs : s.Ended) :
    (noteFuncs Grammar.full.ty sub ids).noted s <+:
      State.identifier? s.upcoming.head? ++ State.laterNames 0 s.upcoming := by
  induction ids generalizing s with
  | nil =>
    by_cases hk : s.current.kind = .identifier
    · rw [noted_noteFuncs_nil hk, State.identifier?_upcoming hk]
      exact List.prefix_append ..
    · rw [noted_noteFuncs_of_ne hk]
      exact List.nil_prefix ..
  | cons id ids ih =>
    by_cases hk : s.current.kind = .identifier
    · rw [State.identifier?_upcoming hk]
      cases hfunc : Parser.inScope (readFunc Grammar.full.ty sub id s.position) s.next with
      | error e s₁ =>
        -- the name was noted before its function failed
        rw [noted_noteFuncs_of_error hk hfunc]
        exact List.prefix_append ..
      | ok func s₁ =>
        rw [noted_noteFuncs_of_ok hk hfunc, List.singleton_append]
        refine (List.prefix_cons_inj _).2 ?_
        -- the pass goes over the function that was read without a trace
        have htoken : s.Takes .identifier s.next := hk ▸ hs.takes (by rw [hk]; decide)
        obtain ⟨⟨piece, -, hreads, hbody⟩, -, hs₁⟩ := readFunc_sound hsub htoken hs.next hfunc
        rw [hreads.balanced hbody.balanced]
        split
        · next hand =>
          have hword : s₁.Takes .andWord s₁.next := hand ▸ hs₁.takes (by rw [hand]; decide)
          rw [laterNames_zero_andWord hword]
          -- the rest of the bundle goes on behind the `and`
          exact ih hs₁.next
        · exact List.nil_prefix ..
    · rw [noted_noteFuncs_of_ne hk]
      exact List.nil_prefix ..

/-- Each function that is read has had its name noted. -/
private theorem length_noted_noteFuncs {fs : List (Func Span (Exp Span))} {s' : State}
    (h : readFuncs ty sub ids s = .ok fs s') :
    ((noteFuncs ty sub ids).noted s).length = fs.length := by
  induction ids generalizing s fs with
  | nil =>
    simp only [readFuncs, bind_eq_ok] at h
    obtain ⟨_, _, -, h⟩ := h
    exact absurd h unexpected_ne_ok
  | cons id ids ih =>
    simp only [readFuncs, bind_eq_ok, kind_eq_ok] at h
    obtain ⟨name, s₁, hname, func, s₂, hfunc, _, _, ⟨rfl, rfl⟩, h⟩ := h
    obtain ⟨hk, rfl, rfl⟩ := expectOr_eq_ok.1 hname
    rw [noted_noteFuncs_of_ok hk hfunc, List.length_cons]
    split at h
    · next hand =>
      simp only [bind_eq_ok, advance_eq_ok, pure_eq_ok] at h
      obtain ⟨_, _, ⟨rfl, rfl⟩, rest, _, hrest, rfl, rfl⟩ := h
      rw [if_pos hand, ih hrest, List.length_cons]
    · next hand =>
      obtain ⟨rfl, rfl⟩ := pure_eq_ok.1 h
      rw [if_neg hand, List.length_nil, List.length_singleton]

/-- The names noted for a bundle are those of its functions, which are read where all names found
    ahead are bound, if no two of these are the same. -/
theorem noted_noteRec (s : State) :
    (noteRec ty sub).noted s =
      if firstRepeated? (s.bundleNames.map (·.text)) = none then
        (noteFuncs ty sub (List.range' s.scopes.size s.bundleNames.length)).noted
          (s.next.withScopes s.bundleScopes)
      else [] := by
  have hscope : (noteRec ty sub).noted s =
      (noteBundle ty sub (s.bundleNames.map (·.text))).noted
        (s.next.withScopes s.next.scopes.push) := by
    rw [noteRec, Noting.noted_bind_of_ok (q := get) rfl]
    rw [Noting.noted_lift_bind_of_ok (advance_eq_ok.2 ⟨rfl, rfl⟩)]
    exact Noting.noted_bind_of_silent fun _ _ => Noting.noted_bind_of_silent fun _ _ => rfl
  rw [hscope, noteBundle]
  cases firstRepeated? (s.bundleNames.map (·.text)) with
  | some name => rfl
  | none =>
    rw [if_pos rfl, Noting.noted_lift_bind_of_ok (mapM_bindName ..)]
    -- behind the functions no more names are noted
    rw [Noting.noted_bind_of_silent fun _ _ => ?_]
    · simp only [State.scopes_withScopes, State.scopes_next, Scopes.size_push, List.length_map]
      rfl
    · exact Noting.noted_bind_of_silent fun _ _ => Noting.noted_bind_of_silent fun _ _ => rfl

/-- A bundle that is read has as many functions as names have been noted. -/
theorem noteRec_of_ok {e : Exp Span} {s' : State} (h : OpeningForm.readRec ty sub s = .ok e s') :
    ∃ a fs body, e = .recIn a fs body ∧ ((noteRec ty sub).noted s).length = fs.length := by
  simp only [OpeningForm.readRec, bind_eq_ok, get_eq_ok, advance_eq_ok, inScope_eq_ok, readBundle,
    spanFrom_eq_ok, pure_eq_ok] at h
  obtain ⟨_, _, ⟨rfl, rfl⟩, _, _, ⟨rfl, rfl⟩, ⟨fs, body⟩, _, ⟨s₁, h, rfl⟩, _, _, -, rfl, -⟩ := h
  refine ⟨_, fs, body, rfl, ?_⟩
  cases hdistinct : firstRepeated? (s.bundleNames.map (·.text)) with
  | some name =>
    rw [hdistinct] at h
    exact absurd h unexpected_ne_ok
  | none =>
    simp only [hdistinct, bind_eq_ok, mapM_bindName, pure_eq_ok, State.scopes_next] at h
    obtain ⟨ids, _, heq, fs', s₂, hfs, _, s₃, -, body', _, -, heq', rfl⟩ := h
    obtain ⟨rfl, rfl⟩ := Prod.mk.inj heq'
    obtain ⟨rfl, rfl⟩ := EStateM.Result.ok.inj heq
    rw [List.length_map] at hfs
    rw [noted_noteRec, if_pos hdistinct]
    exact length_noted_noteFuncs hfs

/-- However the reading of a bundle ends, the names taken are the first ones found ahead. -/
theorem noteRec_takes_first (hsub : Sound sub Reads) (hs : s.Ended)
    (hrec : s.current.kind = .recWord) :
    (noteRec Grammar.full.ty sub).noted s <+: s.bundleNames := by
  rw [noted_noteRec]
  split
  · have hword : s.Takes .recWord s.next := hrec ▸ hs.takes (by rw [hrec]; decide)
    have hafter : s.after = s.next.upcoming := (List.cons.inj hword.upcoming_eq).2
    have hstart : (s.next.withScopes s.bundleScopes).Ended := hs.next
    rw [State.bundleNames, hafter]
    exact noteFuncs_takes_first hsub _ hstart
  · exact List.nil_prefix ..

end Noted

end BranchIR
