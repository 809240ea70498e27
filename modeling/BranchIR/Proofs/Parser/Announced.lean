import BranchIR.Proofs.Parser.Shows

/-!
# The names that a written bundle announces

In the phrase of an expression every form that has an `in` is closed by it, and every `and`
stands in such a form. So the look-ahead from a `rec` passes over the bodies of the functions
and finds the name of each.
-/

namespace BranchIR

/-! ## Closed forms -/

/-- Every form with an `in` is closed, and every `and` stands in one. -/
inductive Even : List Lexeme → Prop
  | nil : Even []
  | cons {w ws} (plain : w.kind.counts = false) (rest : Even ws) : Even (w :: ws)
  | append {us vs} (front : Even us) (rest : Even vs) : Even (us ++ vs)
  | form {word wss ws} (opens : word ∈ [Kind.letWord, .recWord, .storeWord])
      (parts : ∀ us ∈ wss, Even us) (rest : Even ws) :
      Even (word.lexeme :: (separated Kind.andWord.lexeme wss ++ Kind.inWord.lexeme :: ws))

namespace Even

/-- A form with one part. -/
private theorem single (word : Kind) {us ws : List Lexeme}
    (opens : word ∈ [Kind.letWord, .recWord, .storeWord]) (part : Even us) (rest : Even ws) :
    Even (word.lexeme :: (us ++ Kind.inWord.lexeme :: ws)) := by
  have hparts : ∀ vs ∈ [us], Even vs := by simpa using part
  exact form opens hparts rest

/-- Lexemes that the look-ahead takes no notice of have no forms to close. -/
private theorem of_plain {ws : List Lexeme} (h : ∀ w ∈ ws, w.kind.counts = false) : Even ws := by
  induction ws with
  | nil => exact .nil
  | cons w ws ih =>
    obtain ⟨hw, hws⟩ := List.forall_mem_cons.1 h
    exact .cons hw (ih hws)

/-- Items with commas between them are even if each of them is: a comma opens and closes nothing. -/
private theorem commas {wss : List (List Lexeme)} {ws : List Lexeme} (hlist : Commas wss ws)
    (h : ∀ us ∈ wss, Even us) : Even ws := by
  induction hlist with
  | nil => exact .nil
  | last => exact h _ (by simp)
  | more _ ih =>
    obtain ⟨hfirst, hothers⟩ := List.forall_mem_cons.1 h
    exact hfirst.append (.cons rfl (ih hothers))

/-! ## The look-ahead -/

/-- A word that opens a form with an `in` of its own goes one deeper, and names nothing here. -/
private theorem laterNames_opens {word : Kind} (hword : word ∈ [Kind.letWord, .recWord, .storeWord])
    {s s' : State} (h : s.Takes word s') (depth : Nat) :
    State.laterNames depth s.upcoming = State.laterNames (depth + 1) s'.upcoming := by
  simp only [List.mem_cons, List.not_mem_nil, or_false] at hword
  rcases hword with rfl | rfl | rfl
  · exact laterNames_letWord depth h
  · exact laterNames_recWord depth h
  · exact laterNames_storeWord depth h

/-- Inside a form the look-ahead passes over parts with `and` between. -/
private theorem laterNames_parts {wss : List (List Lexeme)}
    (h : ∀ ws ∈ wss, ∀ s s' : State, s.Shows ws s' → Balanced s s') (depth : Nat) {s s' : State}
    (hshows : s.Shows (separated Kind.andWord.lexeme wss) s') :
    State.laterNames (depth + 1) s.upcoming = State.laterNames (depth + 1) s'.upcoming := by
  induction wss generalizing s with
  | nil =>
    obtain rfl := hshows
    rfl
  | cons ws wss ih =>
    obtain ⟨hws, hwss⟩ := List.forall_mem_cons.1 h
    cases wss with
    | nil => exact hws s s' hshows (depth + 1)
    | cons vs wss =>
      -- the `and` belongs to the form that the look-ahead is in
      obtain ⟨s₁, hpart, s₂, hand, -, hrest⟩ := State.shows_append.1 hshows
      rw [hws s s₁ hpart (depth + 1), laterNames_andWord depth hand, ih hwss hrest]

/-- The look-ahead passes over lexemes with all forms closed. -/
theorem balanced {ws : List Lexeme} (h : Even ws) {s s' : State} (hshows : s.Shows ws s') :
    Balanced s s' := by
  induction h generalizing s s' with
  | nil =>
    obtain rfl := hshows
    exact fun _ => rfl
  | cons plain _ ih =>
    -- a token that the look-ahead takes no notice of
    obtain ⟨s₁, htakes, -, hrest⟩ := hshows
    exact (htakes.balanced plain).trans (ih hrest)
  | append _ _ ihfront ihrest =>
    obtain ⟨s₁, hfront, hrest⟩ := State.shows_append.1 hshows
    exact (ihfront hfront).trans (ihrest hrest)
  | form opens _ _ ihparts ihrest =>
    -- the first word raises the count, the `in` lowers it again
    intro depth
    obtain ⟨s₁, hword, -, hinner⟩ := hshows
    obtain ⟨s₂, hparts, s₃, hin, -, hrest⟩ := State.shows_append.1 hinner
    have hpass := laterNames_parts (fun us hus _ _ => ihparts us hus) depth hparts
    rw [laterNames_opens opens hword, hpass, laterNames_inWord depth hin, ihrest hrest]

end Even

/-! ## Phrases -/

/-- The look-ahead takes no notice of types. -/
private theorem TyPhrase.plain {ty : Ty} {u : List Lexeme} (h : TyPhrase ty u) :
    ∀ w ∈ u, w.kind.counts = false := by
  -- a list of types has commas only between them
  have hlist {wss : List (List Lexeme)} {ws : List Lexeme} (hcommas : Commas wss ws)
      (hall : ∀ us ∈ wss, ∀ w ∈ us, w.kind.counts = false) :
      ∀ w ∈ ws, w.kind.counts = false := by
    induction hcommas with
    | nil => simp
    | last => exact hall _ (by simp)
    | more _ ih =>
      obtain ⟨hfirst, hothers⟩ := List.forall_mem_cons.1 hall
      exact List.forall_mem_append.2 ⟨hfirst, List.forall_mem_cons.2 ⟨rfl, ih hothers⟩⟩
  induction h with
  | word => exact List.forall_mem_singleton.2 rfl
  | pointer _ ih => exact List.forall_mem_cons.2 ⟨rfl, ih⟩
  | vector _ _ ih | array _ _ ih | group _ ih =>
    simpa [Kind.counts, Lexeme.number, Lexeme.name, or_imp, forall_and] using ih
  | tuple list _ ih =>
    have hfields := hlist list (List.forall_mem_map.2 ih)
    simpa [Kind.counts, or_imp, forall_and] using hfields
  | function list _ _ ih ihresult =>
    have hparams := And.intro (hlist list (List.forall_mem_map.2 ih)) ihresult
    simpa [Kind.counts, or_imp, forall_and] using hparams

/-- No token of a type counts, so the phrase of one is even. -/
private theorem TyPhrase.even {ty : Ty} {u : List Lexeme} (h : TyPhrase ty u) : Even u :=
  .of_plain h.plain

/-- A function is even if its body is: its head holds parentheses and types only. -/
theorem Member.HeadOk.even {m : Member} (h : m.HeadOk) (hbody : Even m.body) :
    Even m.phrase := by
  have hparams : ∀ ws ∈ m.params.map (·.phrase), Even ws := by
    rw [List.forall_mem_map]
    intro p hp
    exact .cons rfl (.cons rfl (h.types p hp).even)
  have hresult : Even (m.type ++ Kind.assignment.lexeme :: m.body) :=
    h.result.even.append (.cons rfl hbody)
  exact .cons rfl (.cons rfl ((Even.commas h.list hparams).append (.cons rfl (.cons rfl hresult))))

/-- A pattern opens and closes nothing. -/
private theorem PatternPhrase.plain {pattern : Pattern} {w : Lexeme} (h : PatternPhrase pattern w) :
    w.kind.counts = false := by
  cases h <;> rfl

/-- A path is even if its computed offsets are. -/
private theorem PathPhrase.even {path : List (Step (List Lexeme))} {v : List Lexeme}
    (h : PathPhrase path v) (each : ∀ w ∈ path.filterMap Step.offset?, Even w) : Even v := by
  induction h with
  | nil => exact .nil
  | field _ _ ih => exact .cons rfl (.cons rfl (ih (by simpa using each)))
  | element _ _ ih => exact .cons rfl (.cons rfl (.cons rfl (ih (by simpa using each))))
  | lane _ ih =>
    obtain ⟨hfirst, hothers⟩ := List.forall_mem_cons.1 each
    exact .cons rfl (hfirst.append (.cons rfl (ih hothers)))
  | index _ ih =>
    obtain ⟨hfirst, hothers⟩ := List.forall_mem_cons.1 each
    exact .cons rfl (hfirst.append (ih hothers))

/-- The phrase of an expression has all its forms closed. -/
theorem ExpPhrase.even {Γ : List String} {u : List Lexeme} (h : ExpPhrase Γ u) : Even u := by
  have hclose {k : Kind} (hk : k.counts = false) : Even [k.lexeme] := .cons hk .nil
  -- a let, a bundle and a store are forms; of all others the parts are put together
  induction h with
  | int | var => exact .cons rfl .nil
  | group _ ih => exact .cons rfl (ih.append (hclose rfl))
  | tuple list _ ih | vector list _ ih =>
    exact .cons rfl ((Even.commas list ih).append (hclose rfl))
  | prim _ list _ ih => exact .cons rfl (.cons rfl ((Even.commas list ih).append (hclose rfl)))
  | @letIn _ name _ _ _ _ type _ _ ihvalue ihbody =>
    -- the part of the form is all that stands between `let` and `in`
    have hgiven := type.even.append (.cons (w := Kind.assignment.lexeme) rfl ihvalue)
    have hpart := Even.cons (w := .name name) rfl (.cons (w := Kind.colon.lexeme) rfl hgiven)
    have hform := Even.single .letWord (by decide) hpart ihbody
    simpa using hform
  | recIn _ heads _ _ _ iheach ihbody =>
    exact .form (by decide)
      (List.forall_mem_map.2 fun m hm => (heads m hm).even (iheach m hm)) ihbody
  | caseOf _ list patterns _ ihscrutinee iheach =>
    refine .cons rfl (ihscrutinee.append (.cons rfl (Even.append ?_ (hclose rfl))))
    refine Even.commas list (List.forall_mem_map.2 fun arm harm => ?_)
    exact .cons (patterns arm harm).plain (.cons rfl (iheach arm harm))
  | gep _ steps _ ihbase iheach | load _ steps _ ihbase iheach =>
    exact .cons rfl (.cons rfl (ihbase.append ((steps.even iheach).append (hclose rfl))))
  | store _ steps _ _ _ ihdest iheach ihvalue ihbody =>
    have hgiven := Even.cons (w := Kind.assignment.lexeme) rfl ihvalue
    have hpart := ihdest.append ((steps.even iheach).append hgiven)
    have hform := Even.single .storeWord (by decide) hpart ihbody
    simpa using hform
  | update _ steps _ _ ihbase iheach ihvalue =>
    have hrest := ihvalue.append (@hclose .closeParen rfl)
    exact .cons rfl (.cons rfl (ihbase.append ((steps.even iheach).append (.cons rfl hrest))))
  | ascribe _ type ih | coerce _ type ih => exact ih.append (.cons rfl type.even)
  | call _ list _ ih iheach =>
    exact ih.append (.cons rfl ((Even.commas list iheach).append (hclose rfl)))

/-! ## Bundles -/

section Bundles

variable {ms : List Member} {s s₁ s₂ s' : State}

/-- Ahead of the functions of a bundle their names are found: each function is even, so the words
    between them stand at depth zero, and the `in` after them ends the search. -/
private theorem laterNames_members (heven : ∀ m ∈ ms, Even m.phrase)
    (h : s.Shows (separated Kind.andWord.lexeme (ms.map Member.phrase)) s') (hne : ms ≠ [])
    (hin : s'.Takes .inWord s₁) :
    (State.identifier? s.upcoming.head? ++ State.laterNames 0 s.upcoming).map (·.text) =
      ms.map Member.name := by
  -- a function begins with its name
  have hname {m : Member} {s s₁ : State} (hm : s.Shows m.phrase s₁) :
      (State.identifier? s.upcoming.head?).map (·.text) = [m.name] := by
    obtain ⟨_, htakes, htext, -⟩ := hm
    have hkind : s.current.kind = .identifier := htakes.kind
    have hname : s.current.text = m.name := htext
    simp only [State.upcoming, List.head?_cons, State.identifier?, Option.filter_some, hkind,
      decide_true, if_true, Option.toList_some, List.map_cons, List.map_nil, hname]
  induction ms generalizing s with
  | nil => exact absurd rfl hne
  | cons m ms ih =>
    obtain ⟨hm, hms⟩ := List.forall_mem_cons.1 heven
    -- over the function itself the look-ahead passes, up to the `and` or the `in` behind it
    cases ms with
    | nil =>
      rw [List.map_append, hname h, hm.balanced h 0, laterNames_zero_inWord hin]
      rfl
    | cons m' ms =>
      obtain ⟨s₂, hhead, s₃, hand, -, hrest⟩ := State.shows_append.1 h
      rw [List.map_append, hname hhead, hm.balanced hhead 0, laterNames_zero_andWord hand,
        ih hms hrest (by simp)]
      rfl

/-- The look-ahead from a written bundle finds the names of its functions. -/
theorem bundleNames_run (hrec : s.Takes .recWord s₁)
    (hlist : s₁.Shows (separated Kind.andWord.lexeme (ms.map Member.phrase)) s₂) (hne : ms ≠ [])
    (heven : ∀ m ∈ ms, Even m.phrase) (hin : s₂.Takes .inWord s') :
    s.bundleNames.map (·.text) = ms.map Member.name := by
  have hafter : s.after = s₁.upcoming := (List.cons.inj hrec.upcoming_eq).2
  rw [State.bundleNames, hafter]
  exact laterNames_members heven hlist hne hin

end Bundles

end BranchIR
