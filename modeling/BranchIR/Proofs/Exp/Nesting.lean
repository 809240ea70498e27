import BranchIR.Proofs.Exp.Binding
import BranchIR.Proofs.Exp.Visits
import BranchIR.Token.Basic

/-!
# Spans inside spans

In a tree that was read, what stands in a node stands inside its span, in source order and without
overlaps, and so do the parameters and the body of a function inside the span of the function. From
one node to the next below, this makes the spans of the whole tree well nested, and those visited
later never begin before those visited earlier.
-/

namespace BranchIR

/-! ## Spans in order -/

/-- The spans stand between the two offsets one after the other. -/
structure InOrder (lo : Nat) (spans : List Span) (hi : Nat) : Prop where
  within : ∀ s ∈ spans, lo ≤ s.start ∧ s.stop ≤ hi
  disjoint : spans.Pairwise fun s s' => s.stop ≤ s'.start

namespace InOrder

variable {lo lo' mid mid' hi hi' : Nat} {s : Span} {as bs : List Span}

theorem nil (lo hi : Nat) : InOrder lo [] hi := ⟨by simp, .nil⟩

/-- One span is in order when it lies between the bounds. -/
theorem single (hlo : lo ≤ s.start) (hhi : s.stop ≤ hi) : InOrder lo [s] hi :=
  ⟨List.forall_mem_singleton.2 ⟨hlo, hhi⟩, List.pairwise_singleton ..⟩

/-- Wider bounds keep spans in order. -/
theorem mono (h : InOrder lo as hi) (hlo : lo' ≤ lo) (hhi : hi ≤ hi') : InOrder lo' as hi' where
  within s hs := by
    obtain ⟨hstart, hstop⟩ := h.within s hs
    exact ⟨Nat.le_trans hlo hstart, Nat.le_trans hstop hhi⟩
  disjoint := h.disjoint

/-- Spans up to an offset, and others from there on. -/
theorem append (h : InOrder lo as mid) (h' : InOrder mid' bs hi) (hmid : mid ≤ mid')
    (hlo : lo ≤ mid') (hhi : mid ≤ hi) : InOrder lo (as ++ bs) hi where
  within := List.forall_mem_append.2
    ⟨(h.mono (Nat.le_refl _) hhi).within, (h'.mono hlo (Nat.le_refl _)).within⟩
  disjoint := by
    refine List.pairwise_append.2 ⟨h.disjoint, h'.disjoint, fun a ha b hb => ?_⟩
    have hstop := (h.within a ha).2
    have hstart := (h'.within b hb).1
    omega

/-- Spans in order stand from the beginning of the first one on. -/
theorem from_first (h : InOrder lo (s :: as) hi) (hs : s.start ≤ s.stop) :
    InOrder s.start (s :: as) hi where
  within := by
    obtain ⟨⟨-, hstop⟩, has⟩ := List.forall_mem_cons.1 h.within
    refine List.forall_mem_cons.2 ⟨⟨Nat.le_refl _, hstop⟩, fun a ha => ⟨?_, (has a ha).2⟩⟩
    exact Nat.le_trans hs ((List.pairwise_cons.1 h.disjoint).1 a ha)
  disjoint := h.disjoint

/-- There are no more spans in order than there are offsets, if none of them is empty. -/
theorem length_le (h : InOrder lo as hi) (hle : lo ≤ hi) (hne : ∀ s ∈ as, s.start < s.stop) :
    as.length ≤ hi - lo := by
  induction as generalizing lo with
  | nil => exact Nat.zero_le _
  | cons s as ih =>
    obtain ⟨⟨hlo, hstop⟩, hwithin⟩ := List.forall_mem_cons.1 h.within
    obtain ⟨hafter, hdisjoint⟩ := List.pairwise_cons.1 h.disjoint
    obtain ⟨hs, has⟩ := List.forall_mem_cons.1 hne
    have hrest : InOrder s.stop as hi := ⟨fun a ha => ⟨hafter a ha, (hwithin a ha).2⟩, hdisjoint⟩
    have hlength := ih hrest hstop has
    rw [List.length_cons]
    omega

end InOrder

/-- The span begins where a token does and ends where a token does, and it is not empty. The end
    of the input is none of these tokens. -/
structure OnTokens (tokens : List Token) (s : Span) : Prop where
  starts : ∃ t ∈ tokens, t.kind ≠ .endOfInput ∧ t.span.first = s.first
  stops : ∃ t ∈ tokens, t.kind ≠ .endOfInput ∧ t.span.stop = s.stop
  nonempty : s.start < s.stop

/-! ## Nodes and functions -/

/-- The span of what stands in a node: a body stands there in its function. -/
def Role.outer : Role Span → Exp Span → Span
  | .body f, _ => f.ann
  | _, part => part.ann

/-- All parts but bodies reach as far as they are annotated. -/
theorem Role.outer_of_ne {role : Role Span} {part : Exp Span} (h : ∀ f, role ≠ .body f) :
    role.outer part = part.ann := by
  cases role with
  | body f => exact absurd rfl (h f)
  | _ => rfl

/-- The spans of what stands directly in a node, in source order: the functions of a bundle and
    what comes after them, or else the direct subexpressions. -/
def Exp.spansBelow (e : Exp Span) : List Span := e.parts.map fun p => p.1.outer p.2

/-- The spans of a function. -/
structure FuncNested (tokens : List Token) (f : Func Span (Exp Span)) : Prop where
  onTokens : OnTokens tokens f.ann
  params : ∀ p ∈ f.params, OnTokens tokens p.ann
  /-- The function begins with its name, and then its parameters and its body stand in order. -/
  below : ∃ name ∈ tokens, name.kind = .identifier ∧ name.span.start = f.ann.start ∧
    name.span.start < name.span.stop ∧
    InOrder name.span.stop (f.params.map (·.ann) ++ [f.body.ann]) f.ann.stop

/-- The spans of a node and of what stands directly in it. -/
structure NodeNested (tokens : List Token) (e : Exp Span) : Prop where
  onTokens : OnTokens tokens e.ann
  below : InOrder e.ann.start e.spansBelow e.ann.stop
  funcs : ∀ f ∈ e.funcs, FuncNested tokens f

/-- The spans of a tree are nested at every node. -/
def Nested (tokens : List Token) (e : Exp Span) : Prop :=
  ∀ node ∈ e.preorder, NodeNested tokens node

/-- The spans of a part, and of the function if it is a body. -/
structure PartNested (tokens : List Token) (p : Role Span × Exp Span) : Prop where
  nested : Nested tokens p.2
  func : ∀ f, p.1 = .body f → FuncNested tokens f

section Nested

variable {tokens : List Token} {e : Exp Span}

/-- Nesting tells of the root. -/
theorem Nested.node (h : Nested tokens e) : NodeNested tokens e := h e (Exp.mem_preorder_self e)

/-- A function of a node is that of one of the node's parts. -/
private theorem Exp.body_mem_parts_of_mem_funcs {α : Type} {e : Exp α} {f : Func α (Exp α)}
    (h : f ∈ e.funcs) : (Role.body f, f.body) ∈ e.parts := by
  cases e with
  | recIn a fs body => exact List.mem_append_left _ (List.mem_map_of_mem h)
  | _ => cases h

/-- A node over nested parts. -/
theorem Nested.of_parts (onTokens : OnTokens tokens e.ann)
    (below : InOrder e.ann.start e.spansBelow e.ann.stop)
    (parts : ∀ p ∈ e.parts, PartNested tokens p) : Nested tokens e := by
  intro node hnode
  rcases Exp.mem_preorder_iff.1 hnode with rfl | ⟨child, hc, hnode⟩
  · exact ⟨onTokens, below, fun f hf => (parts _ (Exp.body_mem_parts_of_mem_funcs hf)).func f rfl⟩
  · rw [← Exp.parts_snd, List.mem_map] at hc
    obtain ⟨p, hp, rfl⟩ := hc
    exact (parts p hp).nested node hnode

/-- A part of a nested tree is nested. -/
private theorem Nested.part (h : Nested tokens e) {p : Role Span × Exp Span} (hp : p ∈ e.parts) :
    PartNested tokens p where
  nested node hnode := h node (Exp.mem_preorder_of_child (Exp.mem_children_of_mem_parts hp) hnode)
  func f hf := h.node.funcs f (Exp.body_mem_parts (hf ▸ hp : (Role.body f, p.2) ∈ e.parts)).1

/-! ## The order of visits -/

/-- The spans are inside a span, and none begins before those in front of it. -/
structure LeftToRight (s : Span) (spans : List Span) : Prop where
  inside : ∀ a ∈ spans, s.start ≤ a.start ∧ a.start < a.stop ∧ a.stop ≤ s.stop
  ascending : spans.Pairwise fun a b => a.start ≤ b.start

theorem LeftToRight.single {s : Span} (h : s.start < s.stop) : LeftToRight s [s] :=
  ⟨List.forall_mem_singleton.2 ⟨Nat.le_refl _, h, Nat.le_refl _⟩, List.pairwise_singleton ..⟩

/-- A span is visited before the spans in it, if these are in spans that stand in order. -/
theorem LeftToRight.cons {s : Span} {ι : Type} {items : List ι} {outer : ι → Span}
    {visited : ι → List Span} (nonempty : s.start < s.stop)
    (order : InOrder s.start (items.map outer) s.stop)
    (each : ∀ i ∈ items, LeftToRight (outer i) (visited i)) :
    LeftToRight s (s :: items.flatMap visited) := by
  have hinside : ∀ a ∈ items.flatMap visited,
      s.start ≤ a.start ∧ a.start < a.stop ∧ a.stop ≤ s.stop := by
    intro a ha
    obtain ⟨i, hi, ha⟩ := List.mem_flatMap.1 ha
    obtain ⟨hlo, hhi⟩ := order.within _ (List.mem_map_of_mem hi)
    obtain ⟨hstart, hnonempty, hstop⟩ := (each i hi).inside a ha
    omega
  have hlater : items.Pairwise fun i j => (outer i).stop ≤ (outer j).start :=
    List.pairwise_map.1 order.disjoint
  refine ⟨List.forall_mem_cons.2 ⟨⟨Nat.le_refl _, nonempty, Nat.le_refl _⟩, hinside⟩,
    List.pairwise_cons.2 ⟨fun a ha => (hinside a ha).1, List.pairwise_flatMap.2 ⟨?_, ?_⟩⟩⟩
  · exact fun i hi => (each i hi).ascending
  · -- what is visited in an item ends before the next one begins
    refine hlater.imp_of_mem fun {i j} hi hj hij a ha b hb => ?_
    have ha := (each i hi).inside a ha
    have hb := (each j hj).inside b hb
    omega

/-- A function is visited before its parameters, and these before its body. -/
private theorem FuncNested.visits {f : Func Span (Exp Span)} (h : FuncNested tokens f)
    (hbody : LeftToRight f.body.ann f.body.anns) :
    LeftToRight f.ann ((Role.body f).anns ++ f.body.anns) := by
  obtain ⟨name, -, -, hname, hwidth, horder⟩ := h.below
  have hlo : f.ann.start ≤ name.span.stop := by omega
  -- each parameter is visited by itself, the body with what is in it
  let items : List (Span × List Span) :=
    f.params.map (fun p => (p.ann, [p.ann])) ++ [(f.body.ann, f.body.anns)]
  have houter : items.map Prod.fst = f.params.map (·.ann) ++ [f.body.ann] := by simp [items]
  have hvisited : items.flatMap Prod.snd = f.params.map (·.ann) ++ f.body.anns := by
    simp [items, List.flatMap_map, ← List.map_eq_flatMap]
  have hitems : InOrder f.ann.start (items.map Prod.fst) f.ann.stop :=
    houter ▸ horder.mono hlo (Nat.le_refl _)
  have heach : ∀ i ∈ items, LeftToRight i.1 i.2 := by
    simp only [items, List.forall_mem_append, List.forall_mem_map, List.forall_mem_singleton]
    exact ⟨fun p hp => .single (h.params p hp).nonempty, hbody⟩
  have hall := LeftToRight.cons h.onTokens.nonempty hitems heach
  rw [hvisited] at hall
  exact hall

/-- The spans of a nested tree are visited from left to right. -/
theorem Nested.visits (h : Nested tokens e) : LeftToRight e.ann e.anns := by
  induction e using Exp.induct with
  | step e ih =>
    rw [Exp.anns_eq]
    refine .cons h.node.onTokens.nonempty h.node.below fun p hp => ?_
    have hpart := h.part hp
    have hvisits := ih p.2 (Exp.mem_children_of_mem_parts hp) hpart.nested
    obtain ⟨role, part⟩ := p
    cases role with
    | body f =>
      obtain ⟨-, rfl⟩ := Exp.body_mem_parts hp
      exact (hpart.func f rfl).visits hvisits
    | _ => exact hvisits

end Nested

end BranchIR
