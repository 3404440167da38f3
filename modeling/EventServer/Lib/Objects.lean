import Mathlib.Order.Defs.PartialOrder
import EventServer.Lib.Linearizability

/-
  Objects given by what their operations can do, and refinement between them.

  An `Object` is a specification: what an operation can return from a state, and the state after
  it. A `History` is a sequence of operations with what they returned. `History.simulate` is the
  refinement rule: a relation that every operation of the concrete object keeps, with an operation
  of the abstract one, gives for every concrete history an abstract one with corresponding
  returns. The relation may hold up to a bound: an operation needs it only from abstract states that
  are `Small`. Where the states only grow, an operation finds all that an earlier one has left
  (`History.pair`); with linearizability that holds of every two calls of which one
  returned before the other began (`Linearization.pair`).
-/

namespace Lib

/-- What an operation can return from a state, and the state after it. -/
abbrev Object (σ Op Ret : Type) := σ → Op → Ret → σ → Prop

namespace Object

variable {σ τ Op Ret Ret' : Type}

/-- The operations, one after the other, can return these and lead from the one state to the
    other. -/
inductive History (A : Object σ Op Ret) : σ → List (Op × Ret) → σ → Prop
  | nil (s : σ) : History A s [] s
  | cons {s s' t : σ} {op : Op} {r : Ret} {h : List (Op × Ret)} (first : A s op r s')
    (rest : History A s' h t) : History A s ((op, r) :: h) t

variable {A : Object σ Op Ret} {s t : σ} {h h' : List (Op × Ret)}

theorem history_append : A.History s (h ++ h') t ↔ ∃ u, A.History s h u ∧ A.History u h' t := by
  induction h generalizing s with
  | nil =>
    refine ⟨fun hrun => ⟨s, .nil s, hrun⟩, fun hrun => ?_⟩
    obtain ⟨u, hnil, hrest⟩ := hrun
    cases hnil
    exact hrest
  | cons x h ih =>
    constructor
    · intro hrun
      cases hrun with
      | cons first rest =>
        obtain ⟨u, hu, hrest⟩ := ih.1 rest
        exact ⟨u, .cons first hu, hrest⟩
    · intro hrun
      obtain ⟨u, hu, hrest⟩ := hrun
      cases hu with
      | cons first rest => exact .cons first (ih.2 ⟨u, rest, hrest⟩)

/-- Where no operation leads down, no history does. -/
theorem History.le [Preorder σ] (hA : ∀ {s op r s'}, A s op r s' → s ≤ s') (hrun : A.History s h t) :
    s ≤ t := by
  induction hrun with
  | nil s => exact le_refl s
  | cons first _ ih => exact le_trans (hA first) ih

/-- An operation of a history, between what comes before and after it. -/
theorem History.split {op : Op} {r : Ret} (hrun : A.History s h t) (hmem : (op, r) ∈ h) :
    ∃ h₁ h₂ u u', h = h₁ ++ (op, r) :: h₂ ∧ A.History s h₁ u ∧ A u op r u' ∧ A.History u' h₂ t := by
  obtain ⟨h₁, h₂, rfl⟩ := List.append_of_mem hmem
  obtain ⟨u, hu, hrest⟩ := history_append.1 hrun
  cases hrest with
  | cons first rest => exact ⟨h₁, h₂, u, _, rfl, hu, first, rest⟩

/-- **An operation finds what an earlier one has left**, where states only grow. -/
theorem History.pair [Preorder σ] (hA : ∀ {s op r s'}, A s op r s' → s ≤ s') {op op' : Op}
    {r r' : Ret} (hrun : A.History s h t) (hsub : [(op, r), (op', r')].Sublist h) :
    ∃ u u' v v', A u op r u' ∧ u' ≤ v ∧ A v op' r' v' ∧ v' ≤ t := by
  obtain ⟨h₁, h₂, rfl, hfirst, hsecond⟩ := List.cons_sublist_iff.1 hsub
  obtain ⟨w, hw, hrest⟩ := history_append.1 hrun
  obtain ⟨k₁, k₂, u, u', rfl, -, hu, hk₂⟩ := hw.split hfirst
  obtain ⟨l₁, l₂, v, v', rfl, hl₁, hv, hl₂⟩ := hrest.split (List.singleton_sublist.1 hsecond)
  exact ⟨u, u', v, v', hu, le_trans (hk₂.le hA) (hl₁.le hA), hv, hl₂.le hA⟩

/-! ## Refinement -/

/-- The same operations, with returns that correspond. -/
def Matches (Q : Op → Ret → Ret' → Prop) (h : List (Op × Ret)) (g : List (Op × Ret')) : Prop :=
  List.Forall₂ (fun x y => y.1 = x.1 ∧ Q x.1 x.2 y.2) h g

/-- **Refinement.** If every operation of `C`, from related states of which the abstract one is
    small, is an operation of `A` to related states, then so is every history that does not leave
    the small states before its end. -/
theorem History.simulate {C : Object σ Op Ret} {A : Object τ Op Ret'} {R : σ → τ → Prop}
    {Q : Op → Ret → Ret' → Prop} {Small : τ → Prop}
    (hstep : ∀ {s a op r s'}, R s a → Small a → C s op r s' →
      ∃ r' a', Q op r r' ∧ A a op r' a' ∧ R s' a')
    {s t : σ} {a : τ} {h : List (Op × Ret)} (hrun : C.History s h t) (hR : R s a)
    (hsmall : ∀ pre g b, pre <+: h → Matches Q pre g → A.History a g b → Small b) :
    ∃ g b, Matches Q h g ∧ A.History a g b ∧ R t b := by
  induction hrun generalizing a with
  | nil s => exact ⟨[], a, .nil, .nil a, hR⟩
  | @cons s s' t op r h first _ ih =>
    have ha : Small a := hsmall [] [] a (List.nil_prefix) .nil (.nil a)
    obtain ⟨r', a', hQ, hA, hR'⟩ := hstep hR ha first
    obtain ⟨g, b, hg, hrest, hRb⟩ := ih hR' fun pre g b hpre hg hb =>
      hsmall ((op, r) :: pre) ((op, r') :: g) b ((List.prefix_cons_inj _).2 hpre)
        (.cons ⟨rfl, hQ⟩ hg) (.cons hA hb)
    exact ⟨(op, r') :: g, b, .cons ⟨rfl, hQ⟩ hg, .cons hA hrest, hRb⟩

end Object

/-! ## Objects with two steps -/

section Linearization

variable {σ T Op Loc Ret : Type} {M : TwoStep σ Op Loc Ret} {s₀ : σ}
  {c : Conc σ T Op Loc Ret} {order : List (Done Op Ret)}

/-- The object whose operations are the whole operations of `M`. -/
def TwoStep.object (M : TwoStep σ Op Loc Ret) : Object σ Op Ret :=
  fun s op r s' => M.whole op s = some (r, s')

/-- A completed call as an operation of a history. -/
def Done.pair (d : Done Op Ret) : Op × Ret := (d.op, d.ret)

theorem TwoStep.history_of_sequential {t : σ} : ∀ {order : List (Done Op Ret)} {s : σ},
    M.sequential s (order.map Done.op) = some (order.map Done.ret, t) →
      M.object.History s (order.map Done.pair) t
  | [], s, h => by
      simp only [List.map_nil, TwoStep.sequential, Option.some.injEq, Prod.mk.injEq] at h
      exact h.2 ▸ .nil s
  | d :: order, s, h => by
      simp only [List.map_cons, TwoStep.sequential, Option.bind_eq_some_iff,
        Option.map_eq_some_iff] at h
      obtain ⟨r, hr, q, hq, heq⟩ := h
      simp only [Prod.mk.injEq, List.cons.injEq] at heq
      obtain ⟨⟨hret, hrest⟩, rfl⟩ := heq
      have hfirst : M.object s d.op d.ret r.2 := by
        rw [← hret]
        exact hr
      refine .cons hfirst (TwoStep.history_of_sequential ?_)
      rw [hq, ← hrest]

theorem Linearization.history (h : Linearization M s₀ c order) :
    M.object.History s₀ (order.map Done.pair) c.shared :=
  TwoStep.history_of_sequential h.sequential

/-! ## Moves of one thread -/

section Moves

variable [DecidableEq T] {c' : Conc σ T Op Loc Ret} {t u : T}

theorem TwoStep.call_cases {op : Op} (h : M.move c (.call t op) = some c') :
    c.phase t = .idle ∧ c' = { c.setPhase t (.called c.calls op) with
      calls := c.calls + 1, history := c.history ++ [.call c.calls op] } := by
  obtain ⟨t', op', hm, hidle, rfl⟩ | ⟨t', k, op', l, hm, -⟩ | ⟨t', k, op', r, hm, -⟩ |
    ⟨t', k, op', l, r, hm, -⟩ | ⟨t', k, op', r, hm, -⟩ := TwoStep.move_cases h
  · cases hm
    exact ⟨hidle, rfl⟩
  all_goals cases hm

/-- A step finds something, or ends the operation. -/
theorem TwoStep.step_cases (h : M.move c (.step t) = some c') :
    ∃ k op, (∃ l, c.phase t = .called k op ∧ c' = c.setPhase t (.found k op l)) ∨
      ((c.phase t = .called k op ∨ ∃ l, c.phase t = .found k op l) ∧
        ∃ r, c' = c.finish t k op r) := by
  obtain ⟨t', op', hm, -⟩ | ⟨t', k, op, l, hm, hp, -, rfl⟩ | ⟨t', k, op, r, hm, hp, -, rfl⟩ |
    ⟨t', k, op, l, r, hm, hp, -, rfl⟩ | ⟨t', k, op', r, hm, -⟩ := TwoStep.move_cases h
  · cases hm
  · cases hm
    exact ⟨k, op, Or.inl ⟨l, hp, rfl⟩⟩
  · cases hm
    exact ⟨k, op, Or.inr ⟨Or.inl hp, r, rfl⟩⟩
  · cases hm
    exact ⟨k, op, Or.inr ⟨Or.inr ⟨l, hp⟩, r, rfl⟩⟩
  · cases hm

theorem TwoStep.ret_cases (h : M.move c (.ret t) = some c') :
    ∃ k op r, c.phase t = .finished k op r ∧
      c' = { c.setPhase t .idle with history := c.history ++ [.ret k r] } := by
  obtain ⟨t', op', hm, -⟩ | ⟨t', k, op', l, hm, -⟩ | ⟨t', k, op', r, hm, -⟩ |
    ⟨t', k, op', l, r, hm, -⟩ | ⟨t', k, op, r, hm, hp, rfl⟩ := TwoStep.move_cases h
  · cases hm
  · cases hm
  · cases hm
  · cases hm
  · cases hm
    exact ⟨k, op, r, hp, rfl⟩

theorem Conc.setPhase_self (c : Conc σ T Op Loc Ret) (t : T) (p : Phase Op Loc Ret) :
    (c.setPhase t p).phase t = p := Function.update_self ..

theorem Conc.setPhase_other (c : Conc σ T Op Loc Ret) (hu : u ≠ t) (p : Phase Op Loc Ret) :
    (c.setPhase t p).phase u = c.phase u := Function.update_of_ne hu ..

end Moves

theorem forall₂_of_sublist {α β : Type} {R : α → β → Prop} {l l' : List α} {m : List β}
    (h : List.Forall₂ R l m) (hsub : l'.Sublist l) : ∃ m', m'.Sublist m ∧ List.Forall₂ R l' m' := by
  induction hsub generalizing m with
  | slnil => exact ⟨[], List.nil_sublist m, .nil⟩
  | cons _ _ ih =>
    cases h with
    | cons _ hrest =>
      obtain ⟨m', hm, hR⟩ := ih hrest
      exact ⟨m', hm.cons _, hR⟩
  | cons_cons _ _ ih =>
    cases h with
    | cons hxy hrest =>
      obtain ⟨m', hm, hR⟩ := ih hrest
      exact ⟨_, hm.cons_cons _, .cons hxy hR⟩

theorem sublist_of_map_nodup {α β : Type} {f : α → β} {l : List α} {a b : α}
    (hnodup : (l.map f).Nodup) (ha : a ∈ l) (hb : b ∈ l) (h : [f a, f b].Sublist (l.map f)) :
    [a, b].Sublist l := by
  obtain ⟨l', hsub, heq⟩ := List.sublist_map_iff.1 h
  obtain ⟨x, l₁, rfl, hx, heq⟩ := List.map_eq_cons_iff.1 heq.symm
  obtain ⟨y, l₂, rfl, hy, heq⟩ := List.map_eq_cons_iff.1 heq
  obtain rfl := List.map_eq_nil_iff.1 heq
  have hinj := List.inj_on_of_nodup_map hnodup
  rw [hinj (hsub.subset (by simp)) ha hx, hinj (hsub.subset (by simp)) hb hy] at hsub
  exact hsub

/-- A call that returned before another began comes before it. -/
theorem Linearization.before (h : Linearization M s₀ c order) {d d' : Done Op Ret} {r : Ret}
    {op : Op} (hd : d ∈ order) (hd' : d' ∈ order)
    (htime : [Event.ret d.id r, Event.call d'.id op].Sublist c.history) : [d, d'].Sublist order :=
  sublist_of_map_nodup h.once hd hd'
    (h.realTime d.id r d'.id op htime (List.mem_map_of_mem hd'))

/-- The one call has returned before the other began. -/
def Conc.Before (c : Conc σ T Op Loc Ret) (d d' : Done Op Ret) : Prop :=
  ∃ r op, [Event.ret d.id r, Event.call d'.id op].Sublist c.history

section Places

variable {front back : List (Done Op Ret)} {d d' : Done Op Ret}

theorem mem_front_of_sublist {α : Type} {front back : List α} {a b : α}
    (hnodup : (front ++ b :: back).Nodup) (h : [a, b].Sublist (front ++ b :: back)) : a ∈ front := by
  obtain ⟨l, l', heq, hl, hl'⟩ := List.sublist_append_iff.1 h
  cases l with
  | cons x l =>
    obtain rfl : a = x := (List.cons.inj heq).1
    exact hl.subset (List.mem_cons_self ..)
  | nil =>
    obtain rfl : [a, b] = l' := heq
    -- there is no second place for `b`
    have hmem : b ∈ back := by
      obtain hback | ⟨rest, hrest, hback⟩ := List.sublist_cons_iff.1 hl'
      · exact hback.subset (by simp)
      · exact hback.subset (by rw [← (List.cons.inj hrest).2]; exact List.mem_singleton_self b)
    exact absurd hmem (List.nodup_cons.1 (List.nodup_append.1 hnodup).2.1).1

/-- What had returned before a call began is in front of it. -/
theorem Linearization.mem_front (h : Linearization M s₀ c (front ++ d :: back))
    (hd' : d' ∈ front ++ d :: back) (htime : c.Before d' d) : d' ∈ front := by
  obtain ⟨r, op, htime⟩ := htime
  exact mem_front_of_sublist (List.Nodup.of_map _ h.once) (h.before hd' (by simp) htime)

/-- What is in front of a call had begun before the call returned. -/
theorem Linearization.not_before (h : Linearization M s₀ c (front ++ d :: back)) (hd' : d' ∈ front) :
    ¬ c.Before d d' := by
  intro htime
  obtain ⟨front, middle, rfl⟩ := List.append_of_mem hd'
  have hnodup := List.Nodup.of_map _ h.once
  rw [List.append_assoc, List.cons_append] at h hnodup
  have hmem := h.mem_front (by simp) htime
  exact (List.nodup_append.1 hnodup).2.2 d hmem d (by simp) rfl

end Places

end Linearization

end Lib
