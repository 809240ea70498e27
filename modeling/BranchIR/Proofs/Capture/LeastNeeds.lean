import BranchIR.Proofs.Capture.Needs
import Mathlib.Data.List.Chain
import Mathlib.Data.List.Nodup

/-!
# The needs found are the least ones

What the functions of a bundle need is the least solution of an equation between them: a
function needs what it uses directly from around the bundle, and what the functions it refers
to need, but for its own parameters. Such a need reaches a function over a chain of references
on which no function has the variable as a parameter. The rounds in which `solved` passes needs
on come to this solution, and so does a loop that follows the references one after the other
and writes over the needs in place, until a pass over all of them changes nothing.

## Key results

- `mem_needsOf_solved`: what is needed comes over a chain of references
- `exists_settles`, `Settles.mem_iff`: the loop in place stops, with the same needs
- `classify_least`: the facts on a bundle are the least solution
-/

namespace BranchIR.Capture

open Exp

variable {α : Type}

/-! ## Chains of references -/

/-- The body of one function refers to the other. -/
def Mentions (f g : Func α (Exp α)) : Prop := g.name ∈ f.body.freeVars

/-- The function uses the variable from around the bundle, where the routines are known to be
    plain. -/
structure NeedsDirectly (routines : List VarId) (fs : List (Func α (Exp α)))
    (f : Func α (Exp α)) (x : VarId) : Prop where
  free : x ∈ f.body.freeVars
  not_param : x ∉ f.params.map (·.name)
  not_member : x ∉ fs.map (·.name)
  not_routine : x ∉ routines

/-- The function needs the variable directly, or some function that it refers to needs it and
    the variable is not one of its own parameters. -/
inductive NeedsOver (routines : List VarId) (fs : List (Func α (Exp α))) (x : VarId) :
    Func α (Exp α) → Prop
  | direct {f} (needs : NeedsDirectly routines fs f x) : NeedsOver routines fs x f
  | through {f g} (member : g ∈ fs) (mentions : Mentions f g)
      (not_param : x ∉ f.params.map (·.name)) (rest : NeedsOver routines fs x g) :
      NeedsOver routines fs x f

/-- The functions of a chain are members of the bundle that refer each to the next, none has the
    variable as a parameter, and the last needs it directly. -/
structure NeedsChain (routines : List VarId) (fs : List (Func α (Exp α))) (x : VarId)
    (f : Func α (Exp α)) (later : List (Func α (Exp α))) : Prop where
  members : ∀ g ∈ later, g ∈ fs
  mentions : (f :: later).IsChain Mentions
  not_param : ∀ g ∈ f :: later, x ∉ g.params.map (·.name)
  direct : NeedsDirectly routines fs ((f :: later).getLast (by simp)) x

variable {routines : List VarId} {fs : List (Func α (Exp α))} {f g : Func α (Exp α)} {x : VarId}

/-- A need that is passed on comes over a chain. -/
private theorem needsOver_iff_chain :
    NeedsOver routines fs x f ↔ ∃ later, NeedsChain routines fs x f later := by
  constructor
  · intro h
    induction h with
    | direct needs => exact ⟨[], by simp, by simp, by simpa using needs.not_param, needs⟩
    | @through f g member mentions not_param _ ih =>
      obtain ⟨later, hchain⟩ := ih
      refine ⟨g :: later, List.forall_mem_cons.2 ⟨member, hchain.members⟩, ?_,
        List.forall_mem_cons.2 ⟨not_param, hchain.not_param⟩, ?_⟩
      · exact .cons_cons mentions hchain.mentions
      · rw [List.getLast_cons (by simp)]
        exact hchain.direct
  · intro ⟨later, hchain⟩
    induction later generalizing f with
    | nil => exact .direct hchain.direct
    | cons g later ih =>
      obtain ⟨hmember, hmembers⟩ := List.forall_mem_cons.1 hchain.members
      obtain ⟨hparam, hparams⟩ := List.forall_mem_cons.1 hchain.not_param
      obtain ⟨hmentions, hrest⟩ := List.isChain_cons_cons.1 hchain.mentions
      have hdirect := hchain.direct
      rw [List.getLast_cons (by simp)] at hdirect
      exact .through hmember hmentions hparam (ih ⟨hmembers, hrest, hparams, hdirect⟩)

/-- A function of the name needs the variable over a chain. -/
def OverChain (routines : List VarId) (fs : List (Func α (Exp α))) (x name : VarId) : Prop :=
  ∃ f ∈ fs, f.name = name ∧ NeedsOver routines fs x f

/-- A chain is longer by one where a function calls the first of it, and does not bind the variable
    itself. -/
private theorem OverChain.through {callee : VarId} (h : OverChain routines fs x callee)
    (hf : f ∈ fs) (hcall : callee ∈ f.body.freeVars) (hparam : x ∉ f.params.map (·.name)) :
    OverChain routines fs x f.name := by
  obtain ⟨g, hg, rfl, hneeds⟩ := h
  exact ⟨f, hf, rfl, .through hg hcall hparam hneeds⟩

/-! ## What each function needs by itself -/

/-- Functions of a bundle are told apart by their names. -/
private theorem eq_of_name_eq (hdistinct : (fs.map (·.name)).Nodup) (hf : f ∈ fs) (hg : g ∈ fs)
    (h : f.name = g.name) : f = g :=
  List.inj_on_of_nodup_map hdistinct hf hg h

/-- What is needed over a chain to a function, this function needs. -/
private theorem OverChain.needsOver (h : OverChain routines fs x f.name)
    (hdistinct : (fs.map (·.name)).Nodup) (hf : f ∈ fs) : NeedsOver routines fs x f := by
  obtain ⟨g, hg, hname, hneeds⟩ := h
  rwa [eq_of_name_eq hdistinct hf hg hname.symm]

/-- A member of a bundle stands for a function, with the references of its body and what the
    function needs directly. -/
private theorem exists_of_mem_members {m : Member} (h : m ∈ members routines fs) :
    ∃ f ∈ fs, m.name = f.name ∧ m.params = f.params.map (·.name) ∧
      (∀ callee ∈ m.calls, callee ∈ f.body.freeVars) ∧
      ∀ x, x ∈ m.needs ↔ NeedsDirectly routines fs f x := by
  obtain ⟨f, hf, rfl⟩ := List.mem_map.1 h
  refine ⟨f, hf, rfl, rfl, fun callee hcallee => (VarSet.mem_filter.1 hcallee).1, fun x => ?_⟩
  simp only [VarSet.mem_filter, Bool.and_eq_true, decide_eq_true_eq]
  constructor
  · rintro ⟨hfree, ⟨hparam, hmember⟩, hroutine⟩
    exact ⟨hfree, hparam, hmember, hroutine⟩
  · intro h
    exact ⟨h.free, ⟨h.not_param, h.not_member⟩, h.not_routine⟩

/-- What is needed under a name before anything is passed on. -/
private theorem directly_of_mem_needsOf {name : VarId}
    (h : x ∈ needsOf (members routines fs) name) :
    ∃ f ∈ fs, f.name = name ∧ NeedsDirectly routines fs f x := by
  obtain ⟨m, hfind, hx⟩ := mem_needsOf.1 h
  have hm := List.mem_reverse.1 (List.mem_of_find?_eq_some hfind)
  obtain ⟨f, hf, hname, -, -, hneeds⟩ := exists_of_mem_members hm
  exact ⟨f, hf, hname ▸ (by simpa using List.find?_some hfind), (hneeds x).1 hx⟩

/-- What a function needs by itself is among its needs from the start. -/
private theorem mem_needsOf_of_directly (hdistinct : (fs.map (·.name)).Nodup) (hf : f ∈ fs)
    (h : NeedsDirectly routines fs f x) : x ∈ needsOf (members routines fs) f.name := by
  have hnames : (members routines fs).map Member.name = fs.map (·.name) := by
    rw [members, List.map_map]
    rfl
  obtain ⟨m, hm, hname⟩ : ∃ m ∈ members routines fs, m.name = f.name :=
    List.mem_map.1 (hnames ▸ List.mem_map_of_mem (f := fun f => f.name) hf)
  obtain ⟨g, hg, hgname, -, -, hneeds⟩ := exists_of_mem_members hm
  obtain rfl := eq_of_name_eq hdistinct hf hg (hname.symm.trans hgname)
  rw [← hname, needsOf_eq (hnames ▸ hdistinct) hm]
  exact (hneeds x).2 h

/-! ## The rounds -/

/-- What is needed in the end satisfies every condition on names that holds of what is needed at
    the start and goes over to those who refer to a name of which it holds. -/
private theorem holds_of_mem_passOn {holds : VarId → Prop} {ms : List Member} {n : Nat}
    (hstart : ∀ m ∈ ms, x ∈ m.needs → holds m.name)
    (hpass : ∀ m ∈ ms, ∀ callee ∈ m.calls, holds callee → x ∉ m.params → holds m.name) :
    ∀ m ∈ passOn n ms, x ∈ m.needs → holds m.name := by
  induction n generalizing ms with
  | zero => exact hstart
  | succ n ih =>
    rw [passOn_succ]
    refine ih (fun m hm hx => ?_) fun m hm => ?_
    · -- in one round the variable is kept or comes from a member that is referred to
      obtain ⟨m₁, hm₁, rfl⟩ := List.mem_map.1 hm
      rcases Member.mem_inherit_needs.1 hx with hx | ⟨callee, hcallee, hx, hparam⟩
      · exact hstart m₁ hm₁ hx
      · obtain ⟨m', hfind, hx⟩ := mem_needsOf.1 hx
        have hm' := List.mem_reverse.1 (List.mem_of_find?_eq_some hfind)
        have hname : m'.name = callee := by simpa using List.find?_some hfind
        exact hpass m₁ hm₁ callee hcallee (hname ▸ hstart m' hm' hx) hparam
    · obtain ⟨m₁, hm₁, rfl⟩ := List.mem_map.1 hm
      exact hpass m₁ hm₁

/-- A function of the bundle needs the variable in the end if and only if the need comes over
    a chain. -/
theorem mem_needsOf_solved (hdistinct : (fs.map (·.name)).Nodup) (hf : f ∈ fs) :
    x ∈ needsOf (solved routines fs) f.name ↔ NeedsOver routines fs x f := by
  constructor
  · intro hx
    obtain ⟨m, hfind, hx⟩ := mem_needsOf.1 hx
    have hm := List.mem_reverse.1 (List.mem_of_find?_eq_some hfind)
    have hname : m.name = f.name := by simpa using List.find?_some hfind
    -- what holds of the names is that a function of the name needs the variable over a chain
    have hholds : OverChain routines fs x m.name := by
      refine holds_of_mem_passOn (fun m hm hx => ?_) (fun m hm callee hcallee hover hparam => ?_)
        m hm hx
      · obtain ⟨g, hg, hgname, -, -, hneeds⟩ := exists_of_mem_members hm
        exact ⟨g, hg, hgname.symm, .direct ((hneeds x).1 hx)⟩
      · obtain ⟨g, hg, hgname, hparams, hcalls, -⟩ := exists_of_mem_members hm
        rw [hgname]
        exact hover.through hg (hcalls callee hcallee) (hparams ▸ hparam)
    exact (hname ▸ hholds).needsOver hdistinct hf
  · intro h
    have hsolves := @solves_solved α routines fs hdistinct
    induction h with
    | direct h => exact hsolves.direct _ hf x h.free h.not_param h.not_member h.not_routine
    | through hg hmentions hparam _ ih => exact hsolves.passed _ hf _ hg hmentions x (ih hg) hparam

/-! ## In place -/

/-- The references of the bundle: each function with the names of the functions that it refers
    to, in order. -/
def references (fs : List (Func α (Exp α))) : List (Func α (Exp α) × VarId) :=
  fs.flatMap fun f => (f.body.freeVars.filter (· ∈ fs.map (·.name))).ids.map fun callee =>
    (f, callee)

/-- The needs after one reference was followed: the function also needs what is needed under the
    name that it refers to, but for its own parameters. -/
def follow (needs : VarId → VarSet) (ref : Func α (Exp α) × VarId) : VarId → VarSet := fun name =>
  if name = ref.1.name then
    ((needs ref.2).filter fun x => x ∉ ref.1.params.map (·.name)).union (needs name)
  else needs name

/-- The needs after one pass over all references. -/
def pass (fs : List (Func α (Exp α))) (needs : VarId → VarSet) : VarId → VarSet :=
  (references fs).foldl follow needs

/-- Pass after pass goes over the references until one changes nothing. -/
inductive Settles (fs : List (Func α (Exp α))) : (VarId → VarSet) → (VarId → VarSet) → Prop
  | stop {needs} (same : ∀ f ∈ fs, pass fs needs f.name = needs f.name) :
      Settles fs needs (pass fs needs)
  | again {needs needs'} (changed : ∃ f ∈ fs, pass fs needs f.name ≠ needs f.name)
      (rest : Settles fs (pass fs needs) needs') : Settles fs needs needs'

section InPlace

variable {needs needs' : VarId → VarSet} {refs : List (Func α (Exp α) × VarId)} {name : VarId}

/-- A reference leads from a function of the bundle to a member that its body uses. -/
private theorem mem_references {callee : VarId} :
    (f, callee) ∈ references fs ↔
      f ∈ fs ∧ callee ∈ f.body.freeVars ∧ callee ∈ fs.map (·.name) := by
  simp [references, ← VarSet.mem_def]

/-- To follow a reference hands the needs of the callee to the caller, but for the caller's own
    parameters. -/
private theorem mem_follow {ref : Func α (Exp α) × VarId} :
    x ∈ follow needs ref name ↔
      x ∈ needs name ∨ name = ref.1.name ∧ x ∈ needs ref.2 ∧ x ∉ ref.1.params.map (·.name) := by
  unfold follow
  split
  · next h => simp [h, or_comm]
  · next h => simp [h]

/-- No reference that is followed takes a need away. -/
private theorem mem_foldl_follow_of_mem (h : x ∈ needs name) :
    x ∈ refs.foldl follow needs name := by
  induction refs generalizing needs with
  | nil => exact h
  | cons ref refs ih => exact ih (mem_follow.2 (.inl h))

/-- What a function inherits over a reference it has after the pass. -/
private theorem mem_foldl_follow_of_ref {ref : Func α (Exp α) × VarId} (href : ref ∈ refs)
    (hx : x ∈ needs ref.2) (hparam : x ∉ ref.1.params.map (·.name)) :
    x ∈ refs.foldl follow needs ref.1.name := by
  induction refs generalizing needs with
  | nil => simp at href
  | cons first refs ih =>
    rcases List.mem_cons.1 href with rfl | href
    · rw [List.foldl_cons]
      exact mem_foldl_follow_of_mem (mem_follow.2 (.inr ⟨rfl, hx, hparam⟩))
    · exact ih href (mem_follow.2 (.inl hx))

/-- What is needed after a pass satisfies every condition on names that holds of what was needed
    before and goes over to those who refer to a name of which it holds. -/
private theorem holds_of_mem_foldl_follow {holds : VarId → Prop}
    (hstart : ∀ name, x ∈ needs name → holds name)
    (hpass : ∀ ref ∈ refs, holds ref.2 → x ∉ ref.1.params.map (·.name) → holds ref.1.name)
    (hx : x ∈ refs.foldl follow needs name) : holds name := by
  induction refs generalizing needs with
  | nil => exact hstart name hx
  | cons ref refs ih =>
    obtain ⟨href, hrefs⟩ := List.forall_mem_cons.1 hpass
    refine ih (fun name hx => ?_) hrefs hx
    rcases mem_follow.1 hx with hx | ⟨rfl, hx, hparam⟩
    · exact hstart name hx
    · exact href (hstart ref.2 hx) hparam

/-- A pass takes no need away. -/
private theorem mem_pass_of_mem (h : x ∈ needs name) : x ∈ pass fs needs name :=
  mem_foldl_follow_of_mem h

/-! ## The loop -/

namespace Settles

/-- No pass over the references takes a need away. -/
private theorem mem_of_mem (h : Settles fs needs needs') (hx : x ∈ needs name) :
    x ∈ needs' name := by
  induction h with
  | stop => exact mem_pass_of_mem hx
  | again _ _ ih => exact ih (mem_pass_of_mem hx)

/-- What holds of all needs at the start and is handed on along the references holds of all needs in
    the end. -/
private theorem holds_of_mem {holds : VarId → Prop} (h : Settles fs needs needs')
    (hstart : ∀ name, x ∈ needs name → holds name)
    (hpass : ∀ ref ∈ references fs, holds ref.2 → x ∉ ref.1.params.map (·.name) →
      holds ref.1.name) (hx : x ∈ needs' name) : holds name := by
  induction h generalizing name with
  | stop => exact holds_of_mem_foldl_follow hstart hpass hx
  | again _ _ ih => exact ih (fun _ => holds_of_mem_foldl_follow hstart hpass) hx

/-- Where the loop stops, nothing is left to pass on. -/
private theorem closed (h : Settles fs needs needs') (hf : f ∈ fs) (hg : g ∈ fs)
    (hmentions : Mentions f g)
    (hx : x ∈ needs' g.name) (hparam : x ∉ f.params.map (·.name)) : x ∈ needs' f.name := by
  induction h with
  | stop same =>
    -- the last pass followed this reference, with the needs that it left as they were
    rw [same g hg] at hx
    have href : (f, g.name) ∈ references fs :=
      mem_references.2 ⟨hf, hmentions, List.mem_map_of_mem hg⟩
    exact mem_foldl_follow_of_ref href hx hparam
  | again _ _ ih => exact ih hx

end Settles

/-- The number of slots, each for a variable under a name, in which nothing is needed yet. -/
def vacant (slots : List (VarId × VarId)) (needs : VarId → VarSet) : Nat :=
  slots.countP fun slot => slot.2 ∉ needs slot.1

/-- A pass that changes something fills a slot, if there is one for every need. -/
private theorem vacant_pass_lt {slots : List (VarId × VarId)}
    (hchanged : pass fs needs name ≠ needs name)
    (hslots : ∀ x ∈ pass fs needs name, (name, x) ∈ slots) :
    vacant slots (pass fs needs) < vacant slots needs := by
  -- nothing is dropped in a pass, so some variable is new
  obtain ⟨x, hx, hnew⟩ : ∃ x ∈ pass fs needs name, x ∉ needs name := by
    refine Classical.byContradiction fun hnone => hchanged (VarSet.ext fun x => ?_)
    refine ⟨fun hx => ?_, mem_pass_of_mem⟩
    exact Classical.byContradiction fun hnew => hnone ⟨x, hx, hnew⟩
  have hfilled : ∀ slot ∈ slots, decide (slot.2 ∉ pass fs needs slot.1) = true →
      decide (slot.2 ∉ needs slot.1) = true := by
    intro slot _ hvacant
    simp only [decide_eq_true_eq] at hvacant ⊢
    exact fun hold => hvacant (mem_pass_of_mem hold)
  exact List.countP_lt_countP hfilled
    ⟨(name, x), hslots x hx, by simpa using hnew, by simpa using hx⟩

/-- Whatever is needed at the start, the loop stops. -/
theorem exists_settles (fs : List (Func α (Exp α))) (needs : VarId → VarSet) :
    ∃ needs', Settles fs needs needs' := by
  -- no function of the bundle comes to need what none of them needs at the start
  let start := fs.flatMap fun f => (needs f.name).ids
  let slots := fs.flatMap fun f => start.map fun x => (f.name, x)
  suffices h : ∀ needs₁ : VarId → VarSet,
      (∀ f ∈ fs, ∀ x ∈ needs₁ f.name, x ∈ start) → ∃ needs', Settles fs needs₁ needs' from
    h needs fun f hf x hx => List.mem_flatMap.2 ⟨f, hf, hx⟩
  intro needs₁
  induction hvacant : vacant slots needs₁ using Nat.strong_induction_on generalizing needs₁ with
  | h k ih =>
    intro hstart
    -- a pass hands on needs from function to function and makes no new ones
    have hstart' : ∀ f ∈ fs, ∀ x ∈ pass fs needs₁ f.name, x ∈ start := by
      intro f hf x hx
      have hholds : f.name ∈ fs.map (·.name) → x ∈ start := by
        refine @holds_of_mem_foldl_follow _ x needs₁ _ f.name
          (fun name => name ∈ fs.map (·.name) → x ∈ start) (fun name hx hname => ?_)
          (fun ref href hcallee _ _ => ?_) hx
        · obtain ⟨g, hg, rfl⟩ := List.mem_map.1 hname
          exact hstart g hg x hx
        · exact hcallee (mem_references.1 href).2.2
      exact hholds (List.mem_map_of_mem hf)
    by_cases hsame : ∀ f ∈ fs, pass fs needs₁ f.name = needs₁ f.name
    · exact ⟨_, .stop hsame⟩
    · simp only [Classical.not_forall] at hsame
      obtain ⟨f, hf, hchanged⟩ := hsame
      -- with fewer slots left, the rest of the loop stops
      have hlt : vacant slots (pass fs needs₁) < k := by
        rw [← hvacant]
        refine vacant_pass_lt hchanged fun x hx => List.mem_flatMap.2 ⟨f, hf, ?_⟩
        exact List.mem_map_of_mem (hstart' f hf x hx)
      obtain ⟨needs', hrest⟩ := ih _ hlt _ rfl hstart'
      exact ⟨needs', .again ⟨f, hf, hchanged⟩ hrest⟩

end InPlace

/-- From what each function needs by itself, the loop comes to what is needed over chains. -/
theorem Settles.mem_iff {needs : VarId → VarSet} (hdistinct : (fs.map (·.name)).Nodup)
    (h : Settles fs (needsOf (members routines fs)) needs) (hf : f ∈ fs) :
    x ∈ needs f.name ↔ NeedsOver routines fs x f := by
  constructor
  · intro hx
    have hover : OverChain routines fs x f.name := by
      refine h.holds_of_mem (fun name hx => ?_) (fun ref href hover hparam => ?_) hx
      · obtain ⟨g, hg, hname, hneeds⟩ := directly_of_mem_needsOf hx
        exact ⟨g, hg, hname, .direct hneeds⟩
      · obtain ⟨hmember, hcall, -⟩ := mem_references.1 href
        exact hover.through hmember hcall hparam
    exact hover.needsOver hdistinct hf
  · intro hneeds
    induction hneeds with
    | direct hdirect => exact h.mem_of_mem (mem_needsOf_of_directly hdistinct hf hdirect)
    | through hg hmentions hparam _ ih => exact h.closed hf hg hmentions (ih hg) hparam

/-! ## The least solution -/

/-- The needs are what each function uses directly from around the bundle and what those that it
    refers to need, but for its own parameters. -/
def IsSolution (routines : List VarId) (fs : List (Func α (Exp α))) (needs : VarId → VarSet) :
    Prop :=
  ∀ f ∈ fs, ∀ x, x ∈ needs f.name ↔ NeedsDirectly routines fs f x ∨
    ∃ g ∈ fs, Mentions f g ∧ x ∈ needs g.name ∧ x ∉ f.params.map (·.name)

/-- What comes over a chain is in every solution. -/
private theorem IsSolution.mem_of_needsOver {needs : VarId → VarSet}
    (h : IsSolution routines fs needs)
    (hf : f ∈ fs) (hneeds : NeedsOver routines fs x f) : x ∈ needs f.name := by
  induction hneeds with
  | direct hdirect => exact (h _ hf x).2 (.inl hdirect)
  | through hg hmentions hparam _ ih => exact (h _ hf x).2 (.inr ⟨_, hg, hmentions, ih hg, hparam⟩)

/-- The needs of a bundle's functions, where the routines are known to be plain. -/
structure LeastNeeds (routines : List VarId) (fs : List (Func α (Exp α)))
    (needs : VarId → VarSet) : Prop where
  /-- They are a solution. -/
  solution : IsSolution routines fs needs
  /-- Every solution holds them. -/
  least : ∀ other, IsSolution routines fs other → ∀ f ∈ fs, ∀ x ∈ needs f.name, x ∈ other f.name
  /-- They are what comes over chains. -/
  chain : ∀ f ∈ fs, ∀ x, x ∈ needs f.name ↔ ∃ later, NeedsChain routines fs x f later
  /-- The loop in place stops. -/
  stops : ∃ final, Settles fs (needsOf (members routines fs)) final
  /-- It comes to the same needs. -/
  settles : ∀ final, Settles fs (needsOf (members routines fs)) final →
    ∀ f ∈ fs, final f.name = needs f.name

/-- Needs that are those over chains are a solution, and the least one: a chain that is taken link
    by link stays in any other solution. -/
private theorem leastNeeds_of_mem_iff {needs : VarId → VarSet} (hdistinct : (fs.map (·.name)).Nodup)
    (h : ∀ f ∈ fs, ∀ x, x ∈ needs f.name ↔ NeedsOver routines fs x f) :
    LeastNeeds routines fs needs where
  solution f hf x := by
    rw [h f hf x]
    constructor
    · intro hneeds
      cases hneeds with
      | direct hdirect => exact .inl hdirect
      | @through _ g hg hmentions hparam rest =>
        exact .inr ⟨g, hg, hmentions, (h g hg x).2 rest, hparam⟩
    · rintro (hdirect | ⟨g, hg, hmentions, hx, hparam⟩)
      · exact .direct hdirect
      · exact .through hg hmentions hparam ((h g hg x).1 hx)
  least other hother f hf x hx := hother.mem_of_needsOver hf ((h f hf x).1 hx)
  chain f hf x := by rw [h f hf x, needsOver_iff_chain]
  stops := exists_settles fs _
  settles final hfinal f hf := VarSet.ext fun x => by rw [hfinal.mem_iff hdistinct hf, h f hf x]

/-- In a bundle in which no two functions have one name, the facts are the least needs, each
    listed in ascending order. -/
theorem classify_least (hdistinct : (fs.map (·.name)).Nodup) :
    ∃ needs, classify routines fs = fs.map (fun f => ⟨f.name, needs f.name⟩) ∧
      LeastNeeds routines fs needs ∧ ∀ m ∈ classify routines fs, m.needs.ids.Pairwise (· < ·) := by
  refine ⟨needsOf (solved routines fs), classify_eq_map hdistinct, ?_, fun m _ => m.needs.ascending⟩
  exact leastNeeds_of_mem_iff hdistinct fun f hf x => mem_needsOf_solved hdistinct hf

/-- Two functions that call each other and a routine, the identity 3. The second also calls
    itself, and the first has as a parameter what it would need as a caller of the second. -/
private def callers : List (Func Unit (Exp Unit)) :=
  let call (callee arg : VarId) : Exp Unit := .call () (.var () callee) [.var () arg]
  let func (name param : VarId) (calls : List (Exp Unit)) : Func Unit (Exp Unit) :=
    ⟨(), name, [⟨(), param, .prim (.int 32)⟩], .prim (.int 32), .prim () .add calls⟩
  [func 0 8 [call 1 9, call 3 8], func 1 2 [call 0 8, call 1 7, call 3 2]]

/-- The first function needs what the second uses, but for its own parameter. -/
theorem classify_least_callers :
    (callers.map (·.name)).Nodup ∧
      (classify [3] callers).map (fun m => (m.name, m.needs.ids)) = [(0, [7, 9]), (1, [7, 8, 9])] ∧
      ∃ needs, classify [3] callers = callers.map (fun f => ⟨f.name, needs f.name⟩) ∧
        LeastNeeds [3] callers needs ∧
        ∀ m ∈ classify [3] callers, m.needs.ids.Pairwise (· < ·) := by
  have hdistinct : (callers.map (·.name)).Nodup := by decide
  exact ⟨hdistinct, by decide +kernel, classify_least hdistinct⟩

end BranchIR.Capture
