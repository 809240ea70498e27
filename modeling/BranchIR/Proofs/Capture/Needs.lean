import BranchIR.Capture.Facts
import BranchIR.Proofs.List

/-!
# The needs of a bundle's functions

Needs are passed on between the functions of a bundle in rounds, as many as there are
functions. A round that passes a variable on at all brings it to one more function, so after
these rounds nothing is left to pass on.
-/

namespace BranchIR.Capture

/-! ## One round -/

@[simp] theorem Member.inherit_name (ms : List Member) (m : Member) :
    (m.inherit ms).name = m.name := rfl

@[simp] theorem Member.inherit_params (ms : List Member) (m : Member) :
    (m.inherit ms).params = m.params := rfl

@[simp] theorem Member.inherit_calls (ms : List Member) (m : Member) :
    (m.inherit ms).calls = m.calls := rfl

/-- A member inherits what a function that it refers to needs, but for its own parameters. -/
theorem Member.mem_inherit_needs {ms : List Member} {m : Member} {x : VarId} :
    x ∈ (m.inherit ms).needs ↔
      x ∈ m.needs ∨ ∃ callee ∈ m.calls, x ∈ needsOf ms callee ∧ x ∉ m.params := by
  -- over any start of the union, since the fold goes on from what it has gathered
  have hfold (calls : List VarId) (s : VarSet) :
      x ∈ calls.foldl (fun s callee => ((needsOf ms callee).filter m.lacks).union s) s ↔
        x ∈ s ∨ ∃ callee ∈ calls, x ∈ needsOf ms callee ∧ x ∉ m.params := by
    induction calls generalizing s with
    | nil => simp
    | cons callee calls ih =>
      rw [List.foldl_cons, ih]
      simp only [VarSet.mem_union, VarSet.mem_filter, lacks, decide_not, Bool.not_eq_true',
        decide_eq_false_iff_not, List.mem_cons, exists_eq_or_imp]
      rw [or_comm (a := x ∈ needsOf ms callee ∧ x ∉ m.params), or_assoc]
  exact hfold m.calls m.needs

/-- Of several members of one name, the last one says what is needed under it. -/
theorem mem_needsOf {ms : List Member} {name x : VarId} :
    x ∈ needsOf ms name ↔ ∃ m, ms.reverse.find? (·.name == name) = some m ∧ x ∈ m.needs := by
  rw [needsOf]
  cases ms.reverse.find? (·.name == name) <;> simp

/-- One round of passing needs on. -/
def round (ms : List Member) : List Member := ms.map (Member.inherit ms)

theorem passOn_succ (n : Nat) (ms : List Member) : passOn (n + 1) ms = passOn n (round ms) := rfl

/-- After a round each name has what its member has inherited. -/
private theorem mem_needsOf_round {ms : List Member} {name x : VarId} :
    x ∈ needsOf (round ms) name ↔
      ∃ m, ms.reverse.find? (·.name == name) = some m ∧ x ∈ (m.inherit ms).needs := by
  simp only [mem_needsOf, round, ← List.map_reverse, List.find?_map, Option.map_eq_some_iff]
  constructor
  · intro ⟨_, ⟨m, hfind, rfl⟩, hx⟩
    exact ⟨m, hfind, hx⟩
  · intro ⟨m, hfind, hx⟩
    exact ⟨_, ⟨m, hfind, rfl⟩, hx⟩

/-! ## When nothing is left to pass on -/

/-- The variable is needed by all members that refer to a function that needs it and do not
    have it as a parameter. -/
def Closed (x : VarId) (ms : List Member) : Prop :=
  ∀ m ∈ ms, x ∈ (m.inherit ms).needs → x ∈ m.needs

/-- A further round changes nothing. -/
private theorem Closed.round {x : VarId} {ms : List Member} (h : Closed x ms) :
    Closed x (round ms) := by
  -- under each name, the variable is needed after the round if and only if it was before
  have hneeds (name : VarId) : x ∈ needsOf (Capture.round ms) name ↔ x ∈ needsOf ms name := by
    rw [mem_needsOf_round, mem_needsOf]
    constructor
    · intro ⟨m, hfind, hx⟩
      exact ⟨m, hfind, h m (List.mem_reverse.1 (List.mem_of_find?_eq_some hfind)) hx⟩
    · intro ⟨m, hfind, hx⟩
      exact ⟨m, hfind, Member.mem_inherit_needs.2 (.inl hx)⟩
  -- so what a member would inherit in a further round it has inherited in this one
  intro m hm hx
  obtain ⟨m, hm, rfl⟩ := List.mem_map.1 hm
  rw [Member.mem_inherit_needs] at hx
  simp only [Member.inherit_calls, Member.inherit_params, hneeds] at hx
  rcases hx with hx | hx
  · exact hx
  · exact Member.mem_inherit_needs.2 (.inr hx)

/-- Needs that are closed under references stay closed however many rounds follow. -/
private theorem Closed.passOn {x : VarId} {ms : List Member} (h : Closed x ms) (n : Nat) :
    Closed x (passOn n ms) := by
  induction n generalizing ms with
  | zero => exact h
  | succ n ih => exact ih h.round

/-- The number of members that need the variable. -/
def needers (x : VarId) (ms : List Member) : Nat := ms.countP fun m => x ∈ m.needs

/-- A round that passes the variable on brings it to one more member. -/
private theorem needers_lt_needers_round {x : VarId} {ms : List Member} (h : ¬ Closed x ms) :
    needers x ms < needers x (round ms) := by
  simp only [Closed, Classical.not_forall] at h
  -- this member gets the variable, and no member loses it
  obtain ⟨m, hm, hnew, hold⟩ := h
  rw [needers, needers, round, List.countP_map]
  refine List.countP_lt_countP (fun m _ hx => ?_) ⟨m, hm, by simpa using hnew, by simpa using hold⟩
  simp only [Function.comp_apply, decide_eq_true_eq] at hx ⊢
  exact Member.mem_inherit_needs.2 (.inl hx)

/-- After as many rounds as there are members, nothing is left to pass on. -/
theorem closed_passOn (x : VarId) {n : Nat} {ms : List Member}
    (h : ms.length ≤ n + needers x ms) : Closed x (passOn n ms) := by
  induction n generalizing ms with
  | zero =>
    -- all members need the variable
    intro m hm _
    have hall : needers x ms = ms.length :=
      Nat.le_antisymm (List.countP_le_length ..) (by simpa using h)
    have hm' := List.countP_eq_length.1 hall m hm
    simpa using hm'
  | succ n ih =>
    rw [passOn_succ]
    by_cases hclosed : Closed x ms
    · exact hclosed.round.passOn n
    · -- with one round fewer to go, one member more needs the variable
      have hlt := needers_lt_needers_round hclosed
      have hlen : (round ms).length = ms.length := List.length_map ..
      exact ih (by omega)

/-! ## The needs that are found -/

/-- What the needs of a bundle's functions satisfy, where the routines are known to be plain. -/
structure Solves {α : Type} (routines : List VarId) (fs : List (Func α (Exp α)))
    (needs : VarId → VarSet) : Prop where
  /-- A function needs the variables of its body that are not its parameters, not functions of
      the bundle and not known to be plain. -/
  direct : ∀ f ∈ fs, ∀ x ∈ f.body.freeVars, x ∉ f.params.map (·.name) → x ∉ fs.map (·.name) →
    x ∉ routines → x ∈ needs f.name
  /-- A function needs what a function that it refers to needs, but for its own parameters. -/
  passed : ∀ f ∈ fs, ∀ g ∈ fs, g.name ∈ f.body.freeVars → ∀ x ∈ needs g.name,
    x ∉ f.params.map (·.name) → x ∈ needs f.name
  /-- Nothing is needed but what some function of the bundle needs directly. -/
  only : ∀ f ∈ fs, ∀ x ∈ needs f.name, x ∉ fs.map (·.name) ∧
    ∃ g ∈ fs, x ∈ g.body.freeVars ∧ x ∉ g.params.map (·.name)

/-- What does not change in the rounds, and what the needs in the end come from. -/
private theorem passOn_eq_map (n : Nat) (ms : List Member) :
    ∃ needs : Member → VarSet, passOn n ms = ms.map (fun m => { m with needs := needs m }) ∧
      (∀ m ∈ ms, ∀ x ∈ m.needs, x ∈ needs m) ∧
      ∀ m ∈ ms, ∀ x ∈ needs m, ∃ m' ∈ ms, x ∈ m'.needs := by
  induction n generalizing ms with
  | zero => exact ⟨Member.needs, by simp [passOn], fun _ _ _ hx => hx, fun m hm x hx => ⟨m, hm, hx⟩⟩
  | succ n ih =>
    obtain ⟨needs, heq, hmore, honly⟩ := ih (round ms)
    refine ⟨fun m => needs (m.inherit ms), ?_, ?_, ?_⟩
    · rw [passOn_succ, heq, round, List.map_map]
      rfl
    · intro m hm x hx
      exact hmore _ (List.mem_map_of_mem hm) x (Member.mem_inherit_needs.2 (.inl hx))
    · -- what comes from a member after one round was its own, or that of one it refers to
      intro m hm x hx
      obtain ⟨m', hm', hx'⟩ := honly _ (List.mem_map_of_mem hm) x hx
      obtain ⟨m₁, hm₁, rfl⟩ := List.mem_map.1 hm'
      rcases Member.mem_inherit_needs.1 hx' with hx' | ⟨callee, -, hneeds, -⟩
      · exact ⟨m₁, hm₁, hx'⟩
      · obtain ⟨m₂, hfind, hx₂⟩ := mem_needsOf.1 hneeds
        exact ⟨m₂, List.mem_reverse.1 (List.mem_of_find?_eq_some hfind), hx₂⟩

/-- Under the name of a member stands what the member needs, if no other has the name. -/
theorem needsOf_eq {ms : List Member} (hdistinct : (ms.map Member.name).Nodup) {m : Member}
    (hm : m ∈ ms) : needsOf ms m.name = m.needs := by
  obtain ⟨before, after, rfl⟩ := List.append_of_mem hm
  -- the search goes from the end, and no later member has the name
  have hafter : ∀ m' ∈ after.reverse, ¬ (m'.name == m.name) = true := by
    intro m' hm' heq
    rw [List.map_append, List.map_cons, List.nodup_append] at hdistinct
    have hnot := (List.nodup_cons.1 hdistinct.2.1).1
    rw [← beq_iff_eq.1 heq] at hnot
    exact hnot (List.mem_map_of_mem (List.mem_reverse.1 hm'))
  rw [needsOf, List.reverse_append, List.reverse_cons, List.append_assoc, List.find?_append,
    List.find?_eq_none.2 hafter]
  simp

section Solved

variable {α : Type} {routines : List VarId} {fs : List (Func α (Exp α))}

/-- A function of a bundle with what it needs by itself. -/
private def memberOf (routines : List VarId) (fs : List (Func α (Exp α)))
    (f : Func α (Exp α)) : Member where
  name := f.name
  params := f.params.map (·.name)
  calls := (f.body.freeVars.filter (· ∈ fs.map (·.name))).ids
  needs := f.body.freeVars.filter fun x =>
    x ∉ f.params.map (·.name) && x ∉ fs.map (·.name) && x ∉ routines

/-- At the start a function needs what its body uses and neither binds nor knows. -/
private theorem mem_memberOf_needs {f : Func α (Exp α)} {x : VarId} :
    x ∈ (memberOf routines fs f).needs ↔ x ∈ f.body.freeVars ∧ x ∉ f.params.map (·.name) ∧
      x ∉ fs.map (·.name) ∧ x ∉ routines := by
  simp [memberOf, and_assoc]

/-- The members in the end are the functions with larger needs. -/
private theorem solved_eq_map : ∃ needs : Func α (Exp α) → VarSet,
    solved routines fs = fs.map (fun f => { memberOf routines fs f with needs := needs f }) ∧
      (∀ f ∈ fs, ∀ x ∈ (memberOf routines fs f).needs, x ∈ needs f) ∧
      ∀ f ∈ fs, ∀ x ∈ needs f, ∃ g ∈ fs, x ∈ (memberOf routines fs g).needs := by
  have hmembers : members routines fs = fs.map (memberOf routines fs) := rfl
  obtain ⟨needs, heq, hmore, honly⟩ := passOn_eq_map fs.length (members routines fs)
  rw [hmembers] at heq hmore honly
  refine ⟨fun f => needs (memberOf routines fs f), ?_, ?_, ?_⟩
  · rw [solved, hmembers, heq, List.map_map]
    rfl
  · exact fun f hf => hmore _ (List.mem_map_of_mem hf)
  · intro f hf x hx
    obtain ⟨m, hm, hx⟩ := honly _ (List.mem_map_of_mem hf) x hx
    obtain ⟨g, hg, rfl⟩ := List.mem_map.1 hm
    exact ⟨g, hg, hx⟩

/-- The needs that are found for a function are those under its name, if the names differ. -/
private theorem needsOf_solved (hdistinct : (fs.map (·.name)).Nodup)
    {needs : Func α (Exp α) → VarSet}
    (heq : solved routines fs = fs.map fun f => { memberOf routines fs f with needs := needs f })
    {f : Func α (Exp α)} (hf : f ∈ fs) : needsOf (solved routines fs) f.name = needs f := by
  have hnames : ((solved routines fs).map Member.name).Nodup := by
    rw [heq, List.map_map]
    exact hdistinct
  have hm : { memberOf routines fs f with needs := needs f } ∈ solved routines fs := by
    rw [heq]
    exact List.mem_map_of_mem hf
  exact needsOf_eq hnames hm

/-- The facts on a bundle give each function the needs under its name. -/
theorem classify_eq_map (hdistinct : (fs.map (·.name)).Nodup) :
    classify routines fs = fs.map fun f => ⟨f.name, needsOf (solved routines fs) f.name⟩ := by
  obtain ⟨needs, heq, -⟩ := @solved_eq_map α routines fs
  calc
    classify routines fs = fs.map fun f => ⟨f.name, needs f⟩ := by
      rw [classify, heq, List.map_map]
      rfl
    _ = _ := List.map_congr_left fun f hf => by rw [needsOf_solved hdistinct heq hf]

/-- The needs of a bundle's functions are closed under references, and no larger than the
    bundle makes them. -/
theorem solves_solved (hdistinct : (fs.map (·.name)).Nodup) :
    Solves routines fs (needsOf (solved routines fs)) := by
  obtain ⟨needs, heq, hmore, honly⟩ := @solved_eq_map α routines fs
  have hneeds := @needsOf_solved α routines fs hdistinct needs heq
  refine ⟨?_, ?_, ?_⟩
  · -- needed at the start, and needs are never dropped
    intro f hf x hfree hparam hname hroutine
    rw [hneeds hf]
    exact hmore f hf x (mem_memberOf_needs.2 ⟨hfree, hparam, hname, hroutine⟩)
  · -- after so many rounds one more round changes nothing
    intro f hf g hg hcalls x hx hparam
    have hclosed : Closed x (solved routines fs) := closed_passOn x (by simp [members])
    have hm : { memberOf routines fs f with needs := needs f } ∈ solved routines fs := by
      rw [heq]
      exact List.mem_map_of_mem hf
    rw [hneeds hf]
    refine hclosed _ hm (Member.mem_inherit_needs.2 (.inr ⟨g.name, ?_, hx, hparam⟩))
    have hname : g.name ∈ fs.map (·.name) := List.mem_map_of_mem hg
    exact VarSet.mem_filter.2 ⟨hcalls, by simpa using hname⟩
  · -- what is needed in the end was needed by some member at the start
    intro f hf x hx
    rw [hneeds hf] at hx
    obtain ⟨g, hg, hx⟩ := honly f hf x hx
    obtain ⟨hfree, hparam, hname, -⟩ := mem_memberOf_needs.1 hx
    exact ⟨hname, g, hg, hfree, hparam⟩

end Solved

end BranchIR.Capture
