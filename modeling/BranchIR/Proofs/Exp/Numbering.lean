import BranchIR.Proofs.Exp.Binding

/-!
# Numbering

Reading a program hands out identities in the order in which binders are read: the names of a
bundle first, then what is bound below, from left to right, where the parameters of a function
come right before its body and the name of a let right before the let's body. `Numbered` says
that an expression was numbered that way from a number on, in a scope of older identities.

## Key results

- `numbered_letIn`, `numbered_recIn`, ...: the numbering of each form
- `Numbered.bound_perm`: the identities bound are those from the first number up to the last
- `Numbered.wellBound`: a numbered expression is well-bound
- `Numbered.leads`: what is in scope at a place is older than what is bound from there on
- `Numbered.ascending`: in preorder the names of the functions go up
-/

namespace BranchIR

open Exp

variable {α β : Type}

mutual

/-- In the scope, the expression binds the identities from the first number up to the second. -/
inductive Numbered : List VarId → Nat → Exp α → Nat → Prop
  | node {scope n e m} (var : ∀ id, e.var? = some id → id ∈ scope)
      (funcs : e.funcs.map (·.name) = List.range' n e.funcs.length)
      (parts : NumberedParts e (e.funcs.map (·.name) ++ scope) (n + e.funcs.length) e.parts m) :
      Numbered scope n e m

/-- The parts of the expression are numbered one after the other. What is bound for a part
    alone is bound right before it. -/
inductive NumberedParts : Exp α → List VarId → Nat → List (Role α × Exp α) → Nat → Prop
  | nil {e scope n} : NumberedParts e scope n [] n
  | cons {e scope n role part parts k m}
      (own : e.own role = List.range' n (e.own role).length)
      (head : Numbered (e.own role ++ scope) (n + (e.own role).length) part k)
      (tail : NumberedParts e scope k parts m) : NumberedParts e scope n ((role, part) :: parts) m

end

/-! ## What is bound -/

/-- The binders of a node are the names of its functions and what it binds for each part. -/
private theorem Exp.binders_eq (e : Exp α) :
    e.binders = e.funcs.map (·.name) ++ e.parts.flatMap fun p => e.own p.1 := by
  cases e <;> simp [binders, funcs, parts, own, List.flatMap_map]

/-- What is bound for the parts alone and what is bound in them, if the identities bound in each
    part are those from its first number up to its last. -/
private theorem NumberedParts.bound_perm {e : Exp α} {scope : List VarId} {n m : Nat}
    {ps : List (Role α × Exp α)} (h : NumberedParts e scope n ps m)
    (ih : ∀ p ∈ ps, ∀ scope n m, Numbered scope n p.2 m →
      ∃ k, m = n + k ∧ p.2.bound.Perm (List.range' n k)) :
    ∃ k, m = n + k ∧ ((ps.flatMap fun p => e.own p.1) ++ ps.flatMap fun p => p.2.bound).Perm
      (List.range' n k) := by
  induction ps generalizing n with
  | nil =>
    cases h
    exact ⟨0, by simp⟩
  | cons p ps ihps =>
    cases h with
    | @cons _ _ _ role part _ _ _ own head tail =>
      obtain ⟨hpart, hps⟩ := List.forall_mem_cons.1 ih
      obtain ⟨j, rfl, hhead⟩ := hpart _ _ _ head
      obtain ⟨k, rfl, htail⟩ := ihps tail hps
      refine ⟨(e.own role).length + (j + k), by omega, ?_⟩
      -- what is bound for the later parts alone moves behind what is bound in this part
      have hmove := List.perm_append_comm_assoc (ps.flatMap fun p => e.own p.1) part.bound
        (ps.flatMap fun p => p.2.bound)
      rw [List.flatMap_cons, List.flatMap_cons, List.append_assoc, ← List.range'_append_1,
        ← List.range'_append_1, ← own]
      exact (hmove.trans (hhead.append htail)).append_left _

/-- The identities bound are those from the first number up to the last. -/
theorem Numbered.bound_perm {scope : List VarId} {n m : Nat} {e : Exp α}
    (h : Numbered scope n e m) : ∃ k, m = n + k ∧ e.bound.Perm (List.range' n k) := by
  induction e using Exp.induct generalizing scope n m with
  | step e ih =>
    cases h with
    | node _ funcs parts =>
      -- the names of the functions come first, then what the parts bind
      obtain ⟨k, rfl, hperm⟩ := parts.bound_perm fun p hp _ _ _ =>
        ih p.2 (mem_children_of_mem_parts hp)
      refine ⟨e.funcs.length + k, Nat.add_assoc .., ?_⟩
      rw [bound_eq, binders_eq, ← parts_snd, List.flatMap_map, funcs, List.append_assoc,
        ← List.range'_append_1]
      exact hperm.append_left _

/-! ## What is free -/

/-- Numbers only grow in the course of a tree. -/
private theorem Numbered.le {scope : List VarId} {n m : Nat} {e : Exp α}
    (h : Numbered scope n e m) :
    n ≤ m := by
  obtain ⟨k, rfl, -⟩ := h.bound_perm
  exact Nat.le_add_right ..

/-- A part is numbered from some number on that is greater than those bound for it alone. -/
private theorem NumberedParts.part {e part : Exp α} {scope : List VarId} {n m : Nat} {role : Role α}
    {ps : List (Role α × Exp α)} (h : NumberedParts e scope n ps m) (hp : (role, part) ∈ ps) :
    ∃ n' m', n ≤ n' ∧ (∀ x ∈ e.own role, x < n') ∧ Numbered (e.own role ++ scope) n' part m' := by
  induction ps generalizing n with
  | nil => simp at hp
  | cons p ps ih =>
    cases h with
    | cons own head tail =>
      rcases List.mem_cons.1 hp with heq | hp
      · -- the part comes first
        obtain ⟨rfl, rfl⟩ := Prod.mk.inj heq
        refine ⟨_, _, Nat.le_add_right .., fun x hx => ?_, head⟩
        rw [own] at hx
        exact (List.mem_range'_1.1 hx).2
      · obtain ⟨n', m', hle, hrest⟩ := ih tail hp
        exact ⟨n', m', Nat.le_trans (Nat.le_trans (Nat.le_add_right ..) head.le) hle, hrest⟩

/-- A part is numbered in the scope that the expression makes for it, from a number on that is
    above what the expression puts in that scope. -/
private theorem Numbered.part {e part : Exp α} {scope : List VarId} {n m : Nat} {role : Role α}
    (h : Numbered scope n e m) (hp : (role, part) ∈ e.parts) :
    ∃ n' m', n ≤ n' ∧ (∀ x ∈ e.binds role, x < n') ∧
      Numbered (e.binds role ++ scope) n' part m' := by
  cases h with
  | node var funcs parts =>
    obtain ⟨n', m', hle, hown, hpart⟩ := parts.part hp
    refine ⟨n', m', by omega, List.forall_mem_append.2 ⟨hown, fun x hx => ?_⟩, ?_⟩
    · rw [funcs] at hx
      exact Nat.lt_of_lt_of_le (List.mem_range'_1.1 hx).2 hle
    · rwa [binds, List.append_assoc]

/-- What a trail leads to is numbered in the scope at the end of the trail, and all in that scope
    is older than what it binds. -/
theorem Numbered.leads {e x : Exp α} {scope : List VarId} {n m : Nat} {trail : Trail α}
    (h : Numbered scope n e m) (hscope : ∀ y ∈ scope, y < n) (hl : Leads e trail x) :
    ∃ n' m', (∀ y ∈ trail.scope scope, y < n') ∧ Numbered (trail.scope scope) n' x m' := by
  induction hl generalizing scope n m with
  | here => exact ⟨n, m, hscope, h⟩
  | down hp _ ih =>
    obtain ⟨n', m', hle, hbinds, hpart⟩ := h.part hp
    have hscope' := fun y hy => Nat.lt_of_lt_of_le (hscope y hy) hle
    exact ih hpart (List.forall_mem_append.2 ⟨hbinds, hscope'⟩)

/-- What is free in a numbered tree is in the scope it is numbered in. -/
theorem Numbered.closed {scope : List VarId} {n m : Nat} {e : Exp α} {x : VarId}
    (h : Numbered scope n e m) (hx : Free x e) : x ∈ scope := by
  induction hx generalizing scope n m with
  | var =>
    cases h with
    | node var _ _ => exact var x rfl
  | part hp hbinds _ ih =>
    obtain ⟨n', m', -, -, hpart⟩ := h.part hp
    -- in scope of the part, but not bound for it
    exact (List.mem_append.1 (ih hpart)).resolve_left hbinds

/-- A numbered expression is well-bound in a scope of older identities. -/
theorem Numbered.wellBound {scope : List VarId} {n m : Nat} {e : Exp α}
    (h : Numbered scope n e m) (hscope : ∀ x ∈ scope, x < n) : WellBound scope e := by
  obtain ⟨k, -, hperm⟩ := h.bound_perm
  refine ⟨fun x => h.closed, hperm.nodup_iff.2 (List.nodup_range' ..), ?_⟩
  -- what is bound is not older than the first number, what is in scope is
  intro x hx hbound
  have hle : n ≤ x := (List.mem_range'_1.1 (hperm.mem_iff.1 hbound)).1
  exact Nat.not_lt.2 hle (hscope x hx)

/-! ## The names of functions -/

/-- The identities go up from the first number on and stay below the second. -/
structure Ascending (n : Nat) (xs : List VarId) (m : Nat) : Prop where
  le : n ≤ m
  pairwise : xs.Pairwise (· < ·)
  within : ∀ x ∈ xs, n ≤ x ∧ x < m

theorem Ascending.nil {n m : Nat} (h : n ≤ m) : Ascending n [] m := ⟨h, .nil, by simp⟩

/-- A run of numbers is ascending between its ends. -/
private theorem ascending_range' (n k : Nat) : Ascending n (List.range' n k) (n + k) where
  le := Nat.le_add_right ..
  pairwise := List.pairwise_lt_range' ..
  within x hx := List.mem_range'_1.1 hx

/-- Lists that ascend one after the other ascend together. -/
theorem Ascending.append {n k m : Nat} {xs ys : List VarId} (hxs : Ascending n xs k)
    (hys : Ascending k ys m) : Ascending n (xs ++ ys) m := by
  refine ⟨Nat.le_trans hxs.le hys.le, List.pairwise_append.2 ⟨hxs.pairwise, hys.pairwise, ?_⟩,
    List.forall_mem_append.2 ⟨fun x hx => ?_, fun y hy => ?_⟩⟩
  · intro x hx y hy
    exact Nat.lt_of_lt_of_le (hxs.within x hx).2 (hys.within y hy).1
  · exact ⟨(hxs.within x hx).1, Nat.lt_of_lt_of_le (hxs.within x hx).2 hys.le⟩
  · exact ⟨Nat.le_trans hxs.le (hys.within y hy).1, (hys.within y hy).2⟩

/-- The names of all functions of a tree, by nodes in preorder. -/
def Exp.funcNames (e : Exp α) : List VarId := e.preorder.flatMap fun node => node.funcs.map (·.name)

/-- The functions of a tree are those of its root, and those of its parts. -/
private theorem Exp.funcNames_eq (e : Exp α) :
    e.funcNames = e.funcs.map (·.name) ++ e.children.flatMap funcNames := by
  rw [funcNames, preorder_eq, List.flatMap_cons, List.flatMap_assoc]
  rfl

/-- Where the functions of each part have ascending numbers, so have those of all parts. -/
private theorem NumberedParts.ascending {e : Exp α} {scope : List VarId} {n m : Nat}
    {ps : List (Role α × Exp α)} (h : NumberedParts e scope n ps m)
    (ih : ∀ p ∈ ps, ∀ scope n m, Numbered scope n p.2 m → Ascending n p.2.funcNames m) :
    Ascending n (ps.flatMap fun p => p.2.funcNames) m := by
  induction ps generalizing n with
  | nil =>
    cases h
    exact .nil (Nat.le_refl _)
  | cons p ps ihps =>
    cases h with
    | cons own head tail =>
      obtain ⟨hpart, hps⟩ := List.forall_mem_cons.1 ih
      -- what is bound for the part alone is no function's name, and leaves a gap
      exact (Ascending.nil (Nat.le_add_right ..)).append
        ((hpart _ _ _ head).append (ihps tail hps))

/-- In preorder the names of the functions go up. -/
theorem Numbered.ascending {scope : List VarId} {n m : Nat} {e : Exp α}
    (h : Numbered scope n e m) : Ascending n e.funcNames m := by
  induction e using Exp.induct generalizing scope n m with
  | step e ih =>
    cases h with
    | node _ funcs parts =>
      rw [funcNames_eq, funcs, ← parts_snd, List.flatMap_map]
      exact (ascending_range' n _).append
        (parts.ascending fun p hp _ _ _ => ih p.2 (mem_children_of_mem_parts hp))

/-! ## Other annotations -/

/-- Parts that are numbered with changed annotations are numbered without the change. -/
private theorem NumberedParts.of_mapAnn {e : Exp α} {f : α → β} {scope : List VarId} {n m : Nat}
    {ps : List (Role α × Exp α)}
    (h : NumberedParts (e.mapAnn f) scope n (ps.map fun p => (p.1.map f, p.2.mapAnn f)) m)
    (ih : ∀ p ∈ ps, ∀ scope n m, Numbered scope n (p.2.mapAnn f) m → Numbered scope n p.2 m) :
    NumberedParts e scope n ps m := by
  induction ps generalizing n with
  | nil =>
    cases h
    exact .nil
  | cons p ps ihps =>
    cases h with
    | cons own head tail =>
      obtain ⟨hpart, hps⟩ := List.forall_mem_cons.1 ih
      rw [own_mapAnn] at own head
      exact .cons own (hpart _ _ _ head) (ihps tail hps)

/-- Whether an expression is numbered does not depend on the annotations. -/
theorem Numbered.of_mapAnn {scope : List VarId} {n m : Nat} {e : Exp α} {f : α → β}
    (h : Numbered scope n (e.mapAnn f) m) : Numbered scope n e m := by
  induction e using Exp.induct generalizing scope n m with
  | step e ih =>
    cases h with
    | node var funcs parts =>
      have hnames : (e.mapAnn f).funcs.map (·.name) = e.funcs.map (·.name) := by
        simp [Function.comp_def]
      have hlength : (e.mapAnn f).funcs.length = e.funcs.length := by simp
      rw [hnames, hlength] at funcs parts
      rw [parts_mapAnn] at parts
      exact .node (fun id hid => var id (by rwa [var?_mapAnn])) funcs
        (parts.of_mapAnn fun p hp _ _ _ => ih p.2 (mem_children_of_mem_parts hp))

/-! ## Larger scopes -/

/-- Names bound in front of both scopes keep the one within the other. -/
private theorem append_subset_append (names : List VarId) {scope scope' : List VarId}
    (h : scope ⊆ scope') : names ++ scope ⊆ names ++ scope' :=
  List.append_subset.2 ⟨List.subset_append_left .., List.subset_append_of_subset_right _ h⟩

/-- Parts stay numbered when more is in scope. -/
private theorem NumberedParts.mono {e : Exp α} {scope scope' : List VarId} {n m : Nat}
    {ps : List (Role α × Exp α)} (h : NumberedParts e scope n ps m) (hsub : scope ⊆ scope')
    (ih : ∀ p ∈ ps, ∀ scope scope' n m, scope ⊆ scope' → Numbered scope n p.2 m →
      Numbered scope' n p.2 m) : NumberedParts e scope' n ps m := by
  induction ps generalizing n with
  | nil =>
    cases h
    exact .nil
  | cons p ps ihps =>
    cases h with
    | cons own head tail =>
      obtain ⟨hpart, hps⟩ := List.forall_mem_cons.1 ih
      exact .cons own (hpart _ _ _ _ (append_subset_append _ hsub) head) (ihps tail hps)

/-- An expression is numbered in every larger scope. -/
theorem Numbered.mono {scope scope' : List VarId} {n m : Nat} {e : Exp α}
    (h : Numbered scope n e m) (hsub : scope ⊆ scope') : Numbered scope' n e m := by
  induction e using Exp.induct generalizing scope scope' n m with
  | step e ih =>
    cases h with
    | node hvar hfuncs hparts =>
      -- the parts grow their scopes along with the whole
      have hparts' := hparts.mono (append_subset_append _ hsub) fun p hp _ _ _ _ hsub h =>
        ih p.2 (mem_children_of_mem_parts hp) h hsub
      exact .node (fun id hid => hsub (hvar id hid)) hfuncs hparts'

/-! ## Forms -/

/-- Expressions are numbered one after the other in one scope. -/
def NumberedAll (scope : List VarId) : Nat → List (Exp α) → Nat → Prop
  | n, [], m => m = n
  | n, e :: es, m => ∃ k, Numbered scope n e k ∧ NumberedAll scope k es m

/-- Functions are numbered one after the other, the parameters of each before its body. -/
def NumberedFuncs (scope : List VarId) : Nat → List (Func α (Exp α)) → Nat → Prop
  | n, [], m => m = n
  | n, f :: fs, m =>
    f.params.map (·.name) = List.range' n f.params.length ∧
      ∃ k, Numbered (f.params.map (·.name) ++ scope) (n + f.params.length) f.body k ∧
        NumberedFuncs scope k fs m

/-- Functions stay numbered when more is in scope. -/
theorem NumberedFuncs.mono {scope scope' : List VarId} {n m : Nat} {fs : List (Func α (Exp α))}
    (h : NumberedFuncs scope n fs m) (hsub : scope ⊆ scope') : NumberedFuncs scope' n fs m := by
  induction fs generalizing n with
  | nil => exact h
  | cons f fs ih =>
    obtain ⟨hparams, k, hbody, hrest⟩ := h
    exact ⟨hparams, k, hbody.mono (append_subset_append _ hsub), ih hrest⟩

/-- A tree is numbered if the names of its bundle are the next numbers, and its parts are numbered
    after these. -/
theorem numbered_iff {scope : List VarId} {n m : Nat} {e : Exp α} :
    Numbered scope n e m ↔ (∀ id, e.var? = some id → id ∈ scope) ∧
      e.funcs.map (·.name) = List.range' n e.funcs.length ∧
        NumberedParts e (e.funcs.map (·.name) ++ scope) (n + e.funcs.length) e.parts m :=
  ⟨fun | .node hvar hfuncs hparts => ⟨hvar, hfuncs, hparts⟩, fun h => .node h.1 h.2.1 h.2.2⟩

/-- No parts take no number. -/
@[simp] theorem numberedParts_nil {e : Exp α} {scope : List VarId} {n m : Nat} :
    NumberedParts e scope n [] m ↔ m = n :=
  ⟨fun h => by cases h; rfl, fun h => h ▸ .nil⟩

/-- A part takes the numbers of what is bound for it alone, and then its own. -/
@[simp] theorem numberedParts_cons {e part : Exp α} {scope : List VarId} {n m : Nat}
    {role : Role α} {ps : List (Role α × Exp α)} :
    NumberedParts e scope n ((role, part) :: ps) m ↔
      e.own role = List.range' n (e.own role).length ∧
        ∃ k, Numbered (e.own role ++ scope) (n + (e.own role).length) part k ∧
          NumberedParts e scope k ps m :=
  ⟨fun | .cons own head tail => ⟨own, _, head, tail⟩,
    fun ⟨own, _, head, tail⟩ => .cons own head tail⟩

/-- Parts for which nothing is bound are expressions in a list, in front of what follows. -/
private theorem numberedParts_append {e : Exp α} {scope : List VarId} {n m : Nat}
    {qs ps : List (Role α × Exp α)} (hown : ∀ p ∈ qs, e.own p.1 = []) :
    NumberedParts e scope n (qs ++ ps) m ↔
      ∃ k, NumberedAll scope n (qs.map (·.2)) k ∧ NumberedParts e scope k ps m := by
  induction qs generalizing n with
  | nil => simp [NumberedAll]
  | cons q qs ih =>
    obtain ⟨role, part⟩ := q
    obtain ⟨hq, hqs⟩ := List.forall_mem_cons.1 hown
    simp only [List.cons_append, numberedParts_cons, ih hqs, hq, List.map_cons, NumberedAll]
    -- only the order of the intermediate numbers differs
    constructor
    · intro ⟨_, k, hhead, l, htail, hps⟩
      exact ⟨l, ⟨k, hhead, htail⟩, hps⟩
    · intro ⟨l, ⟨k, hhead, htail⟩, hps⟩
      exact ⟨rfl, k, hhead, l, htail, hps⟩

/-- Parts for which nothing is bound are numbered like a list of expressions. -/
private theorem numberedParts_all {e : Exp α} {scope : List VarId} {n m : Nat}
    {qs : List (Role α × Exp α)} (hown : ∀ p ∈ qs, e.own p.1 = []) :
    NumberedParts e scope n qs m ↔ NumberedAll scope n (qs.map (·.2)) m := by
  have h := @numberedParts_append α e scope n m qs [] hown
  simpa using h

/-- Bodies of functions are numbered with the parameters of each right before it. -/
private theorem numberedParts_funcs {a : α} {all fs : List (Func α (Exp α))} {body : Exp α}
    {scope : List VarId} {n m : Nat} {ps : List (Role α × Exp α)} :
    NumberedParts (.recIn a all body) scope n ((fs.map fun f => (.body f, f.body)) ++ ps) m ↔
      ∃ k, NumberedFuncs scope n fs k ∧ NumberedParts (.recIn a all body) scope k ps m := by
  induction fs generalizing n with
  | nil => simp [NumberedFuncs]
  | cons f fs ih =>
    simp only [List.map_cons, List.cons_append, numberedParts_cons, ih, NumberedFuncs, own,
      List.length_map]
    constructor
    · rintro ⟨hparams, k, hbody, l, hfs, hps⟩
      exact ⟨l, ⟨hparams, k, hbody, hfs⟩, hps⟩
    · rintro ⟨l, ⟨hparams, k, hbody, hfs⟩, hps⟩
      exact ⟨hparams, k, hbody, l, hfs, hps⟩

section

variable {scope : List VarId} {n m : Nat} {a : α}

/-- A variable is numbered by what is in scope, and takes no identity. -/
theorem numbered_var {id : VarId} : Numbered scope n (.var a id) m ↔ id ∈ scope ∧ m = n := by
  simp [numbered_iff, var?, funcs, parts]

/-- A literal takes no identity. -/
theorem numbered_int {value : Int} {width : Nat} :
    Numbered scope n (.int a value width) m ↔ m = n := by
  simp [numbered_iff, var?, funcs, parts]

theorem numbered_ascribe {e : Exp α} {ty : Ty} :
    Numbered scope n (.ascribe a e ty) m ↔ Numbered scope n e m := by
  rw [numbered_iff]
  simp [var?, funcs, parts, own]

theorem numbered_coerce {e : Exp α} {ty : Ty} :
    Numbered scope n (.coerce a e ty) m ↔ Numbered scope n e m := by
  rw [numbered_iff]
  simp [var?, funcs, parts, own]

theorem numbered_prim {op : PrimOp} {args : List (Exp α)} :
    Numbered scope n (.prim a op args) m ↔ NumberedAll scope n args m := by
  rw [numbered_iff, parts, numberedParts_all (by simp [own])]
  simp [var?, funcs, Function.comp_def]

/-- The name of a let is the next number after those of its value. -/
theorem numbered_letIn {name : VarId} {ty : Ty} {value body : Exp α} :
    Numbered scope n (.letIn a name ty value body) m ↔
      Numbered scope n value name ∧ Numbered (name :: scope) (name + 1) body m := by
  rw [numbered_iff]
  simp only [var?, funcs, parts, own, numberedParts_cons, numberedParts_nil]
  constructor
  · rintro ⟨_, _, _, k, hvalue, hname, m', hbody, hm⟩
    -- the name is the number that the value ends with
    obtain rfl : name = k := by simpa using hname
    subst hm
    simpa using And.intro hvalue hbody
  · rintro ⟨hvalue, hbody⟩
    exact ⟨by simp, by simp, by simp, name, by simpa using hvalue, by simp, m,
      by simpa using hbody, rfl⟩

theorem numbered_call {callee : Exp α} {args : List (Exp α)} :
    Numbered scope n (.call a callee args) m ↔
      ∃ k, Numbered scope n callee k ∧ NumberedAll scope k args m := by
  rw [numbered_iff, parts, numberedParts_all (by simp [own])]
  simp [var?, funcs, Function.comp_def, NumberedAll]

theorem numbered_caseOf {scrutinee : Exp α} {arms : List (Arm (Exp α))} :
    Numbered scope n (.caseOf a scrutinee arms) m ↔
      ∃ k, Numbered scope n scrutinee k ∧ NumberedAll scope k (arms.map (·.body)) m := by
  rw [numbered_iff, parts, numberedParts_all (by simp [own])]
  simp [var?, funcs, Function.comp_def, NumberedAll]

/-- The names of a bundle are the next numbers; then come those of its bodies, and of what comes
    after them. -/
theorem numbered_recIn {fs : List (Func α (Exp α))} {body : Exp α} :
    Numbered scope n (.recIn a fs body) m ↔
      fs.map (·.name) = List.range' n fs.length ∧
        ∃ k, NumberedFuncs (fs.map (·.name) ++ scope) (n + fs.length) fs k ∧
          Numbered (fs.map (·.name) ++ scope) k body m := by
  rw [numbered_iff, parts, numberedParts_funcs]
  simp [var?, funcs, own]

theorem numbered_tuple {elems : List (Exp α)} :
    Numbered scope n (.tuple a elems) m ↔ NumberedAll scope n elems m := by
  rw [numbered_iff, parts, numberedParts_all (by simp [own])]
  simp [var?, funcs, Function.comp_def]

theorem numbered_vector {elems : List (Exp α)} :
    Numbered scope n (.vector a elems) m ↔ NumberedAll scope n elems m := by
  rw [numbered_iff, parts, numberedParts_all (by simp [own])]
  simp [var?, funcs, Function.comp_def]

theorem numbered_gep {base : Exp α} {path : List (Step (Exp α))} :
    Numbered scope n (.gep a base path) m ↔
      ∃ k, Numbered scope n base k ∧ NumberedAll scope k (offsets path) m := by
  rw [numbered_iff, parts, numberedParts_all (by simp [own])]
  simp [var?, funcs, Function.comp_def, NumberedAll]

theorem numbered_load {base : Exp α} {path : List (Step (Exp α))} :
    Numbered scope n (.load a base path) m ↔
      ∃ k, Numbered scope n base k ∧ NumberedAll scope k (offsets path) m := by
  rw [numbered_iff, parts, numberedParts_all (by simp [own])]
  simp [var?, funcs, Function.comp_def, NumberedAll]

theorem numbered_store {dest value body : Exp α} {path : List (Step (Exp α))} :
    Numbered scope n (.store a dest path value body) m ↔
      ∃ j, Numbered scope n dest j ∧ ∃ k, NumberedAll scope j (offsets path) k ∧
        ∃ l, Numbered scope k value l ∧ Numbered scope l body m := by
  rw [numbered_iff, parts, numberedParts_cons]
  simp only [numberedParts_append (e := .store a dest path value body) (by simp [own])]
  simp [var?, funcs, own, Function.comp_def]

theorem numbered_update {base value : Exp α} {path : List (Step (Exp α))} :
    Numbered scope n (.update a base path value) m ↔
      ∃ j, Numbered scope n base j ∧ ∃ k, NumberedAll scope j (offsets path) k ∧
        Numbered scope k value m := by
  rw [numbered_iff, parts, numberedParts_cons]
  simp only [numberedParts_append (e := .update a base path value) (by simp [own])]
  simp [var?, funcs, own, Function.comp_def]

end

end BranchIR
