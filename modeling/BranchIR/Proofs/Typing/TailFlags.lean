import Mathlib.Data.List.DropRight
import Mathlib.Data.List.Induction
import BranchIR.Proofs.Typing.Subtrees

/-!
# Tail flags

The tail flags of a checked tree follow the roles: what is used is no tail, what gives the value of
a tail is a tail, and the body of a function is one wherever its bundle stands. Along a trail this
means that only the steps since the last function body count.
-/

namespace BranchIR

open Exp

/-! ## Flags follow the roles -/

/-- All tail flags below the root are those that the roles give. -/
def TailsFlow (t : Exp Checked) : Prop :=
  ∀ node ∈ t.preorder, ∀ p ∈ node.parts, p.2.ann.tail = p.1.tail node.ann.tail

namespace Typing

/-- The root has the flag, and the flags below follow from it. -/
def FlowsFrom (tail : Bool) (t : Exp Checked) : Prop := t.ann.tail = tail ∧ TailsFlow t

/-- Whatever comes of checking the expression has the flag of the environment. -/
def Placed (e : Exp Span) : Prop :=
  ∀ env want t, typed env want e = .ok t → FlowsFrom env.tail t

/-- The tail flags of a checked tree follow the roles, from that of the environment. -/
theorem typed_placed (e : Exp Span) : Placed e := by
  intro env want t ht
  have hroot := reinfers_of_typed ht
  refine ⟨hroot.tail_eq, fun node hnode p hp => ?_⟩
  -- the node was checked with the flag it has, and so the part with that of its role
  obtain ⟨trail, hl⟩ := mem_preorder_iff_leads.1 hnode
  exact ((hroot.leads hl).part hp).tail_eq

end Typing

/-! ## Flags along a trail -/

section Trails

variable {α : Type}

/-- Whether the part is the body of a function. -/
def Role.entersBody : Role α → Bool
  | .body _ => true
  | _ => false

/-- The steps of a trail since it last entered the body of a function, or all of them. -/
def Trail.sinceBody (trail : Trail α) : Trail α := trail.rtakeWhile fun step => !step.2.entersBody

/-- What comes later without entering a body is part of what came since the last one. -/
private theorem Trail.sinceBody_append {trail later : Trail α}
    (h : ∀ step ∈ later, step.2.entersBody = false) :
    (trail ++ later).sinceBody = trail.sinceBody ++ later := by
  rw [sinceBody, List.rtakeWhile, List.reverse_append, List.takeWhile_append_of_pos]
  · rw [List.reverse_append, List.reverse_reverse]
    rfl
  · simpa using h

/-- The edges from a tail to a tail. The part gives the expression its value, and nothing is left
    to be done with it. -/
inductive PassesTail : Exp α → Role α → Prop
  /-- What stands inside of an ascription. -/
  | inner {a inner ty} : PassesTail (.ascribe a inner ty) .same
  /-- The body of a let. -/
  | letBody {a name ty value body} : PassesTail (.letIn a name ty value body) .under
  /-- The body of an arm of a case. -/
  | arm {a scrutinee arms} : PassesTail (.caseOf a scrutinee arms) .same
  /-- What goes on after a bundle. -/
  | afterBundle {a fs body} : PassesTail (.recIn a fs body) .after
  /-- What goes on after a store. -/
  | afterStore {a dest path value body} : PassesTail (.store a dest path value body) .same

/-- No operand of an expression is a tail, and no callee. -/
private theorem PassesTail.not_operand {e : Exp α} {role : Role α}
    (h : role = .operand ∨ role = .callee) :
    ¬PassesTail e role := by
  rintro (_ | _ | _ | _ | _) <;> simp at h

/-- Unless a function body is entered, a part is a tail if the whole is one and the edge hands it
    on. -/
private theorem tail_part_iff {e part : Exp α} {role : Role α} (hp : (role, part) ∈ e.parts)
    (hbody : role.entersBody = false) (whole : Bool) :
    role.tail whole = true ↔ PassesTail e role ∧ whole = true := by
  constructor
  · intro htail
    cases role with
    | operand | callee => cases htail
    | body f => cases hbody
    | same | under | after =>
      refine ⟨?_, htail⟩
      cases e <;> simp [parts] at hp <;> constructor
  · rintro ⟨_ | _ | _ | _ | _, rfl⟩ <;> rfl

/-- What a trail leads to is a tail if since the last function body every edge hands the tail on.
    Where no body is entered the root has to be one. -/
theorem TailsFlow.tail_iff {t x : Exp Checked} {trail : Trail Checked} (h : TailsFlow t)
    (hl : Leads t trail x) :
    x.ann.tail = true ↔ (∀ step ∈ trail.sinceBody, PassesTail step.1 step.2) ∧
      ((∀ step ∈ trail, step.2.entersBody = false) → t.ann.tail = true) := by
  -- from the last step back: the flag there is that of the node above, if the step passes it on
  induction trail using List.reverseRecOn generalizing x with
  | nil =>
    cases hl
    simp [Trail.sinceBody]
  | append_singleton trail step ih =>
    obtain ⟨node, role⟩ := step
    obtain ⟨habove, hlast⟩ := hl.split
    have hp : (role, x) ∈ node.parts := by
      obtain _ | ⟨hp, _ | _⟩ := hlast
      exact hp
    rw [h node habove.mem_preorder _ hp]
    cases hbody : role.entersBody with
    | true =>
      -- a body starts anew: no step counts, and the root does not matter
      have hsince : Trail.sinceBody (trail ++ [(node, role)]) = [] :=
        List.rtakeWhile_concat_neg _ _ _ (by simp [hbody])
      have htail : role.tail node.ann.tail = true := by
        cases role with
        | body f => rfl
        | _ => cases hbody
      refine iff_of_true htail ⟨by simp [hsince], fun hnone => ?_⟩
      rw [hnone (node, role) (by simp)] at hbody
      cases hbody
    | false =>
      -- the step is one more since the last body
      have hlater : ∀ step ∈ [(node, role)], step.2.entersBody = false := by
        simpa using hbody
      rw [tail_part_iff hp hbody, ih habove, Trail.sinceBody_append hlater]
      simp only [List.forall_mem_append, List.forall_mem_singleton, hbody, and_true]
      exact and_left_comm.trans and_assoc.symm

end Trails

namespace Typing

/-- In a checked program an expression is a tail if and only if every edge passes the tail on that
    lies between it and the body of the function around it, or the root if there is none. So the
    body of a function is a tail wherever its bundle stands, and an operand or a callee is none, nor
    is anything below one up to the next body of a function. -/
theorem tail_exact {e : Exp Span} {t x : Exp Checked} {trail : Trail Checked}
    (h : checkProgram e = .ok t) (hl : Leads t trail x) :
    (x.ann.tail = true ↔ ∀ step ∈ trail.sinceBody, PassesTail step.1 step.2) ∧
      (∀ above node f, trail = above ++ [(node, .body f)] → x.ann.tail = true) ∧
      (∀ above node role below, trail = above ++ (node, role) :: below →
        role = .operand ∨ role = .callee → (∀ step ∈ below, step.2.entersBody = false) →
        x.ann.tail = false) := by
  have hflow := typed_placed e _ _ _ h
  have hexact : x.ann.tail = true ↔ ∀ step ∈ trail.sinceBody, PassesTail step.1 step.2 := by
    rw [hflow.2.tail_iff hl]
    -- a program is the body of a routine
    exact and_iff_left fun _ => hflow.1
  refine ⟨hexact, ?_, ?_⟩
  · rintro above node f rfl
    rw [hexact, Trail.sinceBody, List.rtakeWhile_concat_neg _ _ _ (by simp [Role.entersBody])]
    simp
  · rintro above node role below rfl hrole hbelow
    have hnone : ∀ step ∈ (node, role) :: below, step.2.entersBody = false := by
      refine List.forall_mem_cons.2 ⟨?_, hbelow⟩
      obtain rfl | rfl := hrole <;> rfl
    rw [Bool.eq_false_iff, ne_eq, hexact, Trail.sinceBody_append hnone]
    intro hpasses
    exact PassesTail.not_operand hrole (hpasses (node, role) (by simp))

/-- An operand that starts a loop, whose body goes round out of an arm of a case. -/
private def loopInOperand : Exp Span :=
  let s : Span := ⟨0, 0, "tree"⟩
  let again := Exp.call s (.var s 0) [.var s 1]
  let body := Exp.caseOf s (.var s 1) [⟨.literal 0, .var s 1⟩, ⟨.default, again⟩]
  .prim s .add
    [.recIn s [⟨s, 0, [⟨s, 1, .int 32⟩], .int 32, body⟩] (.call s (.var s 0) [.int s 1 32]),
      .int s 2 32]

/-- The jump back stands three edges below the root, the first of them into an operand. Only the
    last is counted, out of an arm in the body of the function, so the jump is a tail. -/
theorem tail_exact_loop :
    ∃ (t : Exp Checked) (trail : Trail Checked) (x : Exp Checked),
      checkProgram loopInOperand = .ok t ∧ Leads t trail x ∧ trail.length = 3 ∧
        trail.sinceBody.length = 1 ∧ x.ann.tail = true ∧
        ∀ step ∈ trail.sinceBody, PassesTail step.1 step.2 := by
  have hrun : (checkProgram loopInOperand).toOption.any (fun t => t.places[5]?.any fun place =>
      place.1.length == 3 && place.1.sinceBody.length == 1 && place.2.ann.tail) = true := by
    decide +kernel
  cases h : checkProgram loopInOperand with
  | error e =>
    rw [h] at hrun
    cases hrun
  | ok t =>
    rw [h] at hrun
    simp only [Except.toOption, Option.any_some, Option.any_eq_true_iff_get, Bool.and_eq_true,
      beq_iff_eq] at hrun
    obtain ⟨hsome, ⟨hlength, hsince⟩, htail⟩ := hrun
    obtain ⟨⟨trail, x⟩, hx⟩ := Option.isSome_iff_exists.1 hsome
    simp only [hx, Option.get_some] at hlength hsince htail
    have hl := mem_places_iff_leads.1 (List.mem_of_getElem? hx)
    exact ⟨t, trail, x, rfl, hl, hlength, hsince, htail, (tail_exact h hl).1.1 htail⟩

end Typing

end BranchIR
