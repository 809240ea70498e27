import Mathlib.Data.List.Basic
import Mathlib.Data.List.Induction
import Mathlib.Order.Bounds.Basic
import BranchIR.Scopes

/-!
# What scopes answer, told from their history

The scopes are kept as a stack of frames and a table of names. What they answer can be told from
the calls made so far, without frames or table: how many names had been bound before, which name
was bound when, and which of the bindings of a name was made last in a scope that has not been
closed since. A scope is still open as long as the number of open scopes has not fallen below
what it was in that scope.

## Key results

- `boundAt_concat`: what one more call does to the bindings in open scopes
- `Tracks.step`, `run_tracks`: the frames hold the bindings in open scopes, latest first
- `outer_run`: balanced calls leave the scopes around them alone
- `refines_history`: what the scopes answer after any calls
-/

namespace BranchIR

/-- A call that changes the scopes. -/
inductive ScopeCall where
  | bind (name : String)
  | push
  | pop
  deriving DecidableEq, Repr

/-- The name that a call binds. -/
def ScopeCall.name? : ScopeCall → Option String
  | bind name => some name
  | push | pop => none

/-- The number of open scopes after a call. The outermost scope is never closed. -/
def ScopeCall.depth : ScopeCall → Nat → Nat
  | bind _, depth => depth
  | push, depth => depth + 1
  | pop, depth => max 1 (depth - 1)

/-! ## Histories -/

/-- The calls made since there was nothing but an outermost scope. -/
abbrev History := List ScopeCall

namespace History

/-- The names bound, in order. -/
def names (calls : History) : List String := calls.filterMap ScopeCall.name?

/-- The number of open scopes. -/
def depth (calls : History) : Nat := calls.foldl (fun depth call => call.depth depth) 1

/-- One of the calls has bound the name in a scope of the depth, as the binding of that number, and
    that scope is still open: never since have fewer scopes been open. -/
def BoundAt (calls : History) (depth : Nat) (name : String) (id : VarId) : Prop :=
  ∃ before later : History, calls = before ++ .bind name :: later ∧
    depth = before.depth ∧ id = before.names.length ∧
    ∀ since, since <+: later → depth ≤ History.depth (before ++ .bind name :: since)

/-- The name is bound, as the binding of that number, in a scope that is still open. -/
def Bound (calls : History) (name : String) (id : VarId) : Prop :=
  ∃ depth, calls.BoundAt depth name id

variable {calls : History} {call : ScopeCall} {name : String} {id d : Nat}

/-- A call adds its name, if it binds one, behind the names before it. -/
private theorem names_concat (calls : History) (call : ScopeCall) :
    names (calls ++ [call]) = calls.names ++ call.name?.toList := by
  rw [names, List.filterMap_append]
  cases call <;> rfl

/-- A call changes the depth by its own effect. -/
private theorem depth_concat (calls : History) (call : ScopeCall) :
    depth (calls ++ [call]) = call.depth calls.depth :=
  List.foldl_append

private theorem not_boundAt_nil : ¬BoundAt [] d name id := by
  rintro ⟨before, later, heq, -⟩
  simp at heq

/-- There are more bindings than were made before one of them. -/
private theorem BoundAt.lt_length (h : calls.BoundAt d name id) : id < calls.names.length := by
  obtain ⟨before, later, rfl, -, rfl, -⟩ := h
  rw [names, names, List.filterMap_append, List.length_append]
  exact Nat.lt_add_of_pos_right (by simp [ScopeCall.name?])

/-- After one more call, what is bound in an open scope is what the call binds, and of what was
    bound before all that is no deeper than the scopes now open. -/
theorem boundAt_concat :
    BoundAt (calls ++ [call]) d name id ↔
      (call = .bind name ∧ d = calls.depth ∧ id = calls.names.length) ∨
        (calls.BoundAt d name id ∧ d ≤ depth (calls ++ [call])) := by
  constructor
  · rintro ⟨before, later, heq, hd, hid, hsince⟩
    obtain rfl | ⟨later, last, rfl⟩ := List.eq_nil_or_concat' later
    · -- the binding is the last call
      obtain ⟨rfl, hcall⟩ := List.append_inj' heq rfl
      exact .inl ⟨List.singleton_inj.1 hcall, hd, hid⟩
    · -- the binding is an earlier call, and its scope has outlasted the last one too
      rw [← List.cons_append, ← List.append_assoc] at heq
      obtain ⟨rfl, hcall⟩ := List.append_inj' heq rfl
      rw [heq]
      refine .inr ⟨⟨before, later, rfl, hd, hid, fun since hs => ?_⟩, ?_⟩
      · exact hsince since (hs.trans (List.prefix_append _ _))
      · simpa using hsince _ (List.prefix_refl _)
  · rintro (⟨rfl, rfl, rfl⟩ | ⟨⟨before, later, rfl, hd, hid, hsince⟩, hle⟩)
    · refine ⟨calls, [], rfl, rfl, rfl, fun since hs => ?_⟩
      obtain rfl := List.prefix_nil.1 hs
      exact (depth_concat calls (.bind name)).ge
    · refine ⟨before, later ++ [call], by simp, hd, hid, fun since hs => ?_⟩
      obtain rfl | hs := List.prefix_concat_iff.1 hs
      · simpa using hle
      · exact hsince since hs

/-- Calls that close the scopes they open, and no others. -/
inductive Balanced : History → Prop
  | nil : Balanced []
  | bind {rest} (name : String) (balanced : Balanced rest) : Balanced (.bind name :: rest)
  | scope {inner rest} (within : Balanced inner) (balanced : Balanced rest) :
      Balanced (.push :: (inner ++ .pop :: rest))

end History

/-! ## Runs -/

/-- The bindings of frames from the inside out, each with the depth of its scope. -/
def Frame.levels : List Frame → List (Nat × String × VarId)
  | [] => []
  | frame :: frames => frame.map (fun b => (frames.length + 1, b)) ++ levels frames

/-- No binding is deeper than there are frames. -/
private theorem Frame.fst_le_of_mem_levels {frames : List Frame} {b : Nat × String × VarId}
    (h : b ∈ levels frames) : b.1 ≤ frames.length := by
  induction frames with
  | nil => cases h
  | cons frame frames ih =>
    rw [List.length_cons]
    obtain h | h := List.mem_append.1 h
    · obtain ⟨_, -, rfl⟩ := List.mem_map.1 h
      exact Nat.le_refl _
    · exact Nat.le_succ_of_le (ih h)

/-- Closing the innermost scope leaves the bindings that are less deep. -/
private theorem Frame.mem_levels_iff {frame : Frame} {frames : List Frame}
    {b : Nat × String × VarId} :
    b ∈ levels frames ↔ b ∈ levels (frame :: frames) ∧ b.1 ≤ frames.length := by
  constructor
  · intro h
    exact ⟨List.mem_append_right _ h, fst_le_of_mem_levels h⟩
  · rintro ⟨h, hle⟩
    obtain h | h := List.mem_append.1 h
    · obtain ⟨_, -, rfl⟩ := List.mem_map.1 h
      exact absurd hle (Nat.not_succ_le_self _)
    · exact h

/-- Without their depths, the bindings are those of all frames, the innermost first. -/
private theorem Frame.map_snd_levels (frames : List Frame) :
    (levels frames).map Prod.snd = frames.flatten := by
  induction frames with
  | nil => rfl
  | cons frame frames ih => simp [levels, ih, Function.comp_def]

/-- In bindings of which each is later than those after it, what is found for a name is its latest
    binding. -/
private theorem lookup_eq_some_iff_isGreatest {bs : List (String × VarId)} {name : String}
    {id : VarId} (h : bs.Pairwise fun a b => b.2 < a.2) :
    bs.lookup name = some id ↔ IsGreatest {i | (name, i) ∈ bs} id := by
  induction bs with
  | nil => simp [IsGreatest]
  | cons b bs ih =>
    obtain ⟨other, i⟩ := b
    obtain ⟨hlater, hrest⟩ := List.pairwise_cons.1 h
    by_cases hname : name = other
    · subst hname
      have hfirst : IsGreatest {j | (name, j) ∈ (name, i) :: bs} i := by
        refine ⟨List.mem_cons_self, fun j hj => ?_⟩
        obtain heq | hj := List.mem_cons.1 hj
        · exact (Prod.mk.inj heq).2.le
        · exact (hlater _ hj).le
      rw [List.lookup_cons_self, Option.some_inj]
      exact ⟨fun heq => heq ▸ hfirst, hfirst.unique⟩
    · have hb : (name == other) = false := by simpa using hname
      have hset : {j | (name, j) ∈ (other, i) :: bs} = {j | (name, j) ∈ bs} := by
        ext j
        simp [hname]
      rw [List.lookup_cons, hb, hset]
      exact ih hrest

namespace Scopes

/-- The scopes after a call. -/
def apply (s : Scopes) : ScopeCall → Scopes
  | .bind name => (s.bind name).2
  | .push => s.push
  | .pop => s.pop

/-- The scopes after calls, in order. -/
def run (s : Scopes) (calls : History) : Scopes := calls.foldl apply s

/-- A longer run goes on where the shorter one ends. -/
private theorem run_append (s : Scopes) (calls later : History) :
    s.run (calls ++ later) = (s.run calls).run later :=
  List.foldl_append

/-- The bindings of the open scopes from the inside out, each with the depth of its scope. -/
def levels (s : Scopes) : List (Nat × String × VarId) := Frame.levels (s.inner :: s.outer)

private theorem levels_push (s : Scopes) : s.push.levels = s.levels := rfl

private theorem levels_bind (s : Scopes) (name : String) :
    (s.bind name).2.levels = (s.depth, name, s.size) :: s.levels := rfl

/-- No binding is deeper than the scope that is open. -/
private theorem fst_le_of_mem_levels {s : Scopes} {b : Nat × String × VarId} (h : b ∈ s.levels) :
    b.1 ≤ s.depth :=
  Frame.fst_le_of_mem_levels h

/-- Closing a scope leaves the bindings that are no deeper than the scopes still open. -/
private theorem mem_levels_pop {s : Scopes} {b : Nat × String × VarId} :
    b ∈ s.pop.levels ↔ b ∈ s.levels ∧ b.1 ≤ s.pop.depth := by
  obtain ⟨inner, outer, names⟩ := s
  cases outer with
  | nil => exact (and_iff_left_of_imp fst_le_of_mem_levels).symm
  | cons frame frames => exact Frame.mem_levels_iff

/-- Closing a scope takes bindings away and leaves the others in order. -/
private theorem levels_pop_sublist (s : Scopes) : s.pop.levels.Sublist s.levels := by
  obtain ⟨inner, outer, names⟩ := s
  cases outer with
  | nil => exact List.Sublist.refl _
  | cons frame frames => exact List.sublist_append_right _ _

/-- A call changes the number of open scopes as it does in the history. -/
private theorem depth_apply (s : Scopes) (call : ScopeCall) :
    (s.apply call).depth = call.depth s.depth := by
  obtain ⟨inner, outer, names⟩ := s
  cases call with
  | bind | push => rfl
  | pop => cases outer <;> simp [apply, pop, depth, ScopeCall.depth]

/-- A call adds to the table the name that it binds, if it does. -/
private theorem names_apply (s : Scopes) (call : ScopeCall) :
    (s.apply call).names.toList = s.names.toList ++ call.name?.toList := by
  obtain ⟨inner, outer, names⟩ := s
  cases call with
  | bind name => exact Array.toList_push
  | push => exact (List.append_nil _).symm
  | pop => cases outer <;> exact (List.append_nil _).symm

/-- After a call, the open scopes bind what the call binds, and of what they bound before all that
    is no deeper than the scopes now open. -/
private theorem mem_levels_apply {s : Scopes} {call : ScopeCall} {d : Nat} {name : String}
    {id : VarId} :
    (d, name, id) ∈ (s.apply call).levels ↔
      (call = .bind name ∧ d = s.depth ∧ id = s.size) ∨
        ((d, name, id) ∈ s.levels ∧ d ≤ (s.apply call).depth) := by
  cases call with
  | bind other =>
    rw [apply, levels_bind, List.mem_cons, Prod.mk.injEq, Prod.mk.injEq, ScopeCall.bind.injEq]
    rw [and_left_comm, eq_comm (a := name)]
    exact or_congr_right (and_iff_left_of_imp fst_le_of_mem_levels).symm
  | push =>
    rw [apply, levels_push]
    simp only [reduceCtorEq, false_and, false_or]
    exact (and_iff_left_of_imp fun hb => Nat.le_succ_of_le (fst_le_of_mem_levels hb)).symm
  | pop =>
    simp only [reduceCtorEq, false_and, false_or]
    exact mem_levels_pop

/-- A name is looked up in all frames, the innermost first. -/
private theorem find?_eq_lookup (s : Scopes) (name : String) :
    s.find? name = (s.levels.map Prod.snd).lookup name := by
  rw [levels, Frame.map_snd_levels, find?]
  induction s.inner :: s.outer with
  | nil => rfl
  | cons frame frames ih =>
    rw [List.findSome?_cons, ih, List.flatten_cons, List.lookup_append]
    cases frame.lookup name <;> rfl

/-- The table has the names in the order in which they were bound, and the frames have the bindings
    in open scopes, latest first. -/
structure Tracks (s : Scopes) (calls : History) : Prop where
  names : s.names.toList = calls.names
  depth : s.depth = calls.depth
  bound : ∀ d name id, (d, name, id) ∈ s.levels ↔ calls.BoundAt d name id
  latest : s.levels.Pairwise fun a b => b.2.2 < a.2.2

namespace Tracks

variable {s : Scopes} {calls : History}

/-- There are as many identities as names that were bound. -/
private theorem size_eq (h : s.Tracks calls) : s.size = calls.names.length := by
  rw [← h.names, Array.length_toList, size]

/-- The scopes keep track of every single call. -/
theorem step (h : s.Tracks calls) (call : ScopeCall) :
    (s.apply call).Tracks (calls ++ [call]) where
  names := by rw [names_apply, h.names, History.names_concat]
  depth := by rw [depth_apply, h.depth, History.depth_concat]
  bound d name id := by
    rw [mem_levels_apply, History.boundAt_concat, depth_apply, History.depth_concat, h.bound,
      h.depth, h.size_eq]
  latest := by
    cases call with
    | bind name =>
      -- every earlier binding has a smaller number
      refine List.pairwise_cons.2 ⟨fun b hb => ?_, h.latest⟩
      rw [h.size_eq]
      exact ((h.bound _ _ _).1 hb).lt_length
    | push => exact h.latest
    | pop => exact h.latest.sublist s.levels_pop_sublist

/-- What is found for a name is its latest binding in an open scope. -/
private theorem find?_eq_some_iff (h : s.Tracks calls) {name : String} {id : VarId} :
    s.find? name = some id ↔ IsGreatest {i | calls.Bound name i} id := by
  have hset : {i | (name, i) ∈ s.levels.map Prod.snd} = {i | calls.Bound name i} := by
    ext i
    simp [History.Bound, ← h.bound]
  rw [find?_eq_lookup, lookup_eq_some_iff_isGreatest, hset]
  exact List.pairwise_map.2 h.latest

/-- Nothing is found for a name exactly if no open scope binds it. -/
private theorem find?_eq_none_iff (h : s.Tracks calls) {name : String} :
    s.find? name = none ↔ ∀ id, ¬calls.Bound name id := by
  rw [find?_eq_lookup, List.lookup_eq_none_iff]
  simp only [History.Bound, ← h.bound]
  constructor
  · rintro hnone id ⟨d, hb⟩
    simpa using hnone (name, id) (List.mem_map_of_mem hb)
  · intro hnone b hb
    obtain ⟨⟨d, other, id⟩, hlevel, rfl⟩ := List.mem_map.1 hb
    rw [bne_iff_ne]
    rintro rfl
    exact hnone id ⟨d, hlevel⟩

end Tracks

/-- After any calls the scopes keep track of them. -/
theorem run_tracks (calls : History) : (empty.run calls).Tracks calls := by
  induction calls using List.reverseRecOn with
  | nil =>
    refine ⟨rfl, rfl, fun d name id => ?_, .nil⟩
    exact iff_of_false List.not_mem_nil History.not_boundAt_nil
  | append_singleton calls call ih =>
    rw [run_append]
    exact ih.step call

/-- Balanced calls leave the scopes around the one that is open alone. -/
theorem outer_run {calls : History} (h : calls.Balanced) (s : Scopes) :
    (s.run calls).outer = s.outer := by
  induction h generalizing s with
  | nil => rfl
  | bind name _ ih => exact ih (s.bind name).2
  | @scope inner rest _ _ ihinner ihrest =>
    -- what the inner calls leave around their scope is what closing it brings back
    have houter : ((s.push.run inner).pop).outer = s.outer := by
      rw [pop, ihinner s.push]
      rfl
    have hrun : s.run (.push :: (inner ++ .pop :: rest)) = ((s.push.run inner).pop).run rest :=
      run_append s.push inner (.pop :: rest)
    rw [hrun, ihrest, houter]

/-- Balanced calls in a scope of their own leave what is found for every name as it was. -/
private theorem find?_run_scope {calls : History} (h : calls.Balanced) (s : Scopes)
    (name : String) :
    (s.run (.push :: (calls ++ [.pop]))).find? name = s.find? name := by
  have houter : (s.push.run calls).outer = s.inner :: s.outer := outer_run h s.push
  have hrun : s.run (.push :: (calls ++ [.pop])) = (s.push.run calls).pop :=
    run_append s.push calls [.pop]
  rw [hrun, pop, houter]
  rfl

/-- What scopes answer agrees with what has been called. -/
structure Refines (s : Scopes) (calls : History) : Prop where
  /-- As many identities have been handed out as names were bound. -/
  size : s.size = calls.names.length
  /-- The next binding gets the number of bindings before it. -/
  fresh : ∀ name, (s.bind name).1 = calls.names.length
  /-- An identity has the name that was bound with its number, and none if none was. -/
  named : ∀ id, s.nameOf? id = calls.names[id]?
  /-- A name stands for its latest binding in a scope that is still open. -/
  resolved : ∀ name use id,
    s.resolve name use = .ok id ↔ IsGreatest {i | calls.Bound name i} id
  /-- It is refused exactly if there is no such binding. -/
  refused : ∀ name use,
    s.resolve name use = .error ⟨.undeclared name, use⟩ ↔ ∀ id, ¬calls.Bound name id

/-- Scopes that agree with a history at every depth answer all lookups as the history does. -/
private theorem Tracks.refines {s : Scopes} {calls : History} (h : s.Tracks calls) :
    s.Refines calls where
  size := h.size_eq
  fresh _ := h.size_eq
  named id := by rw [nameOf?, ← h.names, Array.getElem?_toList]
  resolved name use id := by
    rw [← h.find?_eq_some_iff, resolve]
    cases s.find? name <;> simp
  refused name use := by
    rw [← h.find?_eq_none_iff, resolve]
    cases s.find? name <;> simp

/-- From the first call on, whatever is bound, opened and closed, the scopes answer what their
    history says. So balanced calls in a scope of their own, once it is closed, have changed the
    answer for no name. -/
theorem refines_history (calls : History) :
    (empty.run calls).Refines calls ∧
      ∀ inner, History.Balanced inner → ∀ name use,
        (empty.run (calls ++ .push :: (inner ++ [.pop]))).resolve name use =
          (empty.run calls).resolve name use := by
  refine ⟨(run_tracks calls).refines, fun inner hinner name use => ?_⟩
  rw [run_append, resolve, find?_run_scope hinner, ← resolve]

/-- A name bound twice in the outermost scope, and in two scopes that are closed again; the last
    call closes nothing. -/
private def rebound : History :=
  [.bind "x", .push, .bind "x", .bind "y", .pop, .bind "x", .push, .bind "x", .pop, .pop]

/-- The second binding in the outermost scope counts, which is the fourth in all. A scope of its own
    in which the name is bound again does not change that. -/
theorem refines_history_rebound :
    History.Balanced [.bind "x", .push, .bind "y", .pop] ∧
      (empty.run rebound).resolve "x" ⟨0, "f"⟩ = .ok 3 ∧
      IsGreatest {i | rebound.Bound "x" i} 3 ∧
      (∀ id, ¬rebound.Bound "y" id) ∧
      (empty.run (rebound ++ .push :: ([.bind "x", .push, .bind "y", .pop] ++ [.pop]))).resolve "x"
        ⟨0, "f"⟩ = .ok 3 := by
  obtain ⟨hrefines, hscope⟩ := refines_history rebound
  have hbalanced : History.Balanced [.bind "x", .push, .bind "y", .pop] :=
    .bind "x" (.scope (.bind "y" .nil) .nil)
  have hx : (empty.run rebound).resolve "x" ⟨0, "f"⟩ = .ok 3 := by decide
  have hy : (empty.run rebound).resolve "y" ⟨0, "f"⟩ = .error ⟨.undeclared "y", ⟨0, "f"⟩⟩ := by
    decide
  exact ⟨hbalanced, hx, (hrefines.resolved _ _ _).1 hx, (hrefines.refused _ _).1 hy,
    (hscope _ hbalanced _ _).trans hx⟩

end Scopes

end BranchIR
