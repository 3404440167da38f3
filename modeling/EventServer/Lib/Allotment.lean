import Mathlib.Algebra.GroupWithZero.Nat
import Mathlib.Data.Finset.Card

/-
  Allotments: disjoint shares of a finite set, given out one after the other.

  An `Allotment u` cannot hold shares that overlap or that leave `u`. `grant` gives out a share
  of what is free. `owner` says which share an element is in, counted from 1, and 0 for a free
  element; giving out a share changes it only there (`owner_grant`). So it never changes once it is
  not 0 (`owner_mono`), and what is free and what is given out always make up `u` (`card_free`).
-/

namespace Lib

variable {α : Type} [DecidableEq α] {u : Finset α}

/-- The place of the first of the sets that has `x`, counted from 1; 0 if there is none. -/
def ordinal (x : α) : List (Finset α) → ℕ
  | [] => 0
  | s :: ss => if x ∈ s then 1 else if ordinal x ss = 0 then 0 else ordinal x ss + 1

theorem ordinal_eq_zero {x : α} {ss : List (Finset α)} : ordinal x ss = 0 ↔ ∀ s ∈ ss, x ∉ s := by
  induction ss with
  | nil => simp [ordinal]
  | cons s ss ih =>
    rw [List.forall_mem_cons, ← ih, ordinal]
    by_cases hx : x ∈ s
    · simp [hx]
    · by_cases h0 : ordinal x ss = 0 <;> simp [hx, h0]

theorem ordinal_snoc (x : α) (ss : List (Finset α)) (s : Finset α) :
    ordinal x (ss ++ [s]) =
      if ordinal x ss ≠ 0 then ordinal x ss else if x ∈ s then ss.length + 1 else 0 := by
  induction ss with
  | nil => simp [ordinal]
  | cons t ss ih =>
    rw [List.cons_append, ordinal, ordinal, ih, List.length_cons]
    by_cases ht : x ∈ t
    · simp [ht]
    · by_cases h0 : ordinal x ss = 0 <;> by_cases hs : x ∈ s <;> simp [ht, h0, hs]

theorem ordinal_le (x : α) (ss : List (Finset α)) : ordinal x ss ≤ ss.length := by
  induction ss with
  | nil => simp [ordinal]
  | cons s ss ih =>
    rw [ordinal, List.length_cons]
    split
    · omega
    · split <;> omega

/-- The set at the place that `ordinal` gives has the element. -/
theorem mem_of_ordinal {x : α} {ss : List (Finset α)} {k : ℕ} (h : ordinal x ss = k + 1) :
    ∃ s, ss[k]? = some s ∧ x ∈ s := by
  induction ss generalizing k with
  | nil => simp [ordinal] at h
  | cons s ss ih =>
    rw [ordinal] at h
    split at h
    · next hx =>
      obtain rfl : k = 0 := by omega
      exact ⟨s, rfl, hx⟩
    · split at h
      · omega
      · obtain ⟨j, rfl⟩ : ∃ j, k = j + 1 := ⟨k - 1, by omega⟩
        obtain ⟨t, ht, hx⟩ := ih (k := j) (by omega)
        exact ⟨t, by simpa using ht, hx⟩

/-- Disjoint parts of `u`, in the order in which they were given out. -/
structure Allotment (u : Finset α) where
  shares : List (Finset α)
  within : ∀ s ∈ shares, s ⊆ u
  disjoint : shares.Pairwise Disjoint

namespace Allotment

variable {a b : Allotment u} {x : α} {s : Finset α}

/-- Nothing has been given out. -/
def empty (u : Finset α) : Allotment u := ⟨[], by simp, List.Pairwise.nil⟩

def owner (a : Allotment u) (x : α) : ℕ := ordinal x a.shares

def free (a : Allotment u) : Finset α := u.filter fun x => a.owner x = 0

theorem mem_free : x ∈ a.free ↔ x ∈ u ∧ a.owner x = 0 := Finset.mem_filter

theorem owner_le (a : Allotment u) (x : α) : a.owner x ≤ a.shares.length := ordinal_le x a.shares

/-- An element is in the share of its owner and in no other. -/
theorem owner_eq_iff {k : ℕ} : a.owner x = k + 1 ↔ ∃ s, a.shares[k]? = some s ∧ x ∈ s := by
  refine ⟨mem_of_ordinal, fun h => ?_⟩
  obtain ⟨s, hs, hx⟩ := h
  obtain ⟨hk, rfl⟩ := List.getElem?_eq_some_iff.1 hs
  have hne : a.owner x ≠ 0 := fun h0 => ordinal_eq_zero.1 h0 _ (List.getElem_mem hk) hx
  obtain ⟨j, hj⟩ := Nat.exists_eq_succ_of_ne_zero hne
  obtain ⟨t, ht, hxt⟩ := mem_of_ordinal hj
  obtain ⟨hlt, rfl⟩ := List.getElem?_eq_some_iff.1 ht
  rw [hj]
  -- two different shares are disjoint
  rcases Nat.lt_trichotomy j k with h | rfl | h
  · exact absurd hx (Finset.disjoint_left.1 (List.pairwise_iff_getElem.1 a.disjoint j k hlt hk h) hxt)
  · rfl
  · exact absurd hxt (Finset.disjoint_left.1 (List.pairwise_iff_getElem.1 a.disjoint k j hk hlt h) hx)

/-! ## Giving out a share -/

theorem disjoint_of_free (h : s ⊆ a.free) : ∀ t ∈ a.shares, Disjoint t s := by
  intro t ht
  rw [Finset.disjoint_right]
  intro x hx
  exact ordinal_eq_zero.1 (mem_free.1 (h hx)).2 t ht

/-- Give out a share. -/
def grant (a : Allotment u) (s : Finset α) (h : s ⊆ a.free) : Allotment u where
  shares := a.shares ++ [s]
  within := by
    intro t ht
    rcases List.mem_append.1 ht with ht | ht
    · exact a.within t ht
    · rw [List.mem_singleton.1 ht]
      exact fun x hx => (mem_free.1 (h hx)).1
  disjoint := List.pairwise_append.2 ⟨a.disjoint, List.pairwise_singleton _ _, fun t ht t' ht' => by
    rw [List.mem_singleton.1 ht']
    exact disjoint_of_free h t ht⟩

theorem length_grant (h : s ⊆ a.free) : (a.grant s h).shares.length = a.shares.length + 1 :=
  List.length_append

theorem owner_grant (h : s ⊆ a.free) (x : α) :
    (a.grant s h).owner x = if x ∈ s then a.shares.length + 1 else a.owner x := by
  have hsnoc := ordinal_snoc x a.shares s
  by_cases hx : x ∈ s
  · have h0 : ordinal x a.shares = 0 := (mem_free.1 (h hx)).2
    rw [if_pos hx]
    exact hsnoc.trans (by simp [h0, hx])
  · rw [if_neg hx]
    refine hsnoc.trans ?_
    by_cases h0 : ordinal x a.shares = 0 <;> simp [owner, h0, hx]

/-! ## Growing -/

/-- `a ≤ b` if `b` has given out the shares of `a` and then perhaps more. -/
instance : Preorder (Allotment u) where
  le a b := a.shares <+: b.shares
  le_refl a := List.prefix_refl a.shares
  le_trans _ _ _ h h' := h.trans h'

theorem le_grant (h : s ⊆ a.free) : a ≤ a.grant s h := List.prefix_append _ _

omit [DecidableEq α] in
theorem length_le (h : a ≤ b) : a.shares.length ≤ b.shares.length := List.IsPrefix.length_le h

omit [DecidableEq α] in
/-- A share that has been given out stays where it is. -/
theorem share_mono (h : a ≤ b) {k : ℕ} (hs : a.shares[k]? = some s) : b.shares[k]? = some s := by
  obtain ⟨rest, hrest⟩ := h
  rw [← hrest, List.getElem?_append_left (List.getElem?_eq_some_iff.1 hs).1, hs]

/-- What is taken stays taken, by the same share. -/
theorem owner_mono (h : a ≤ b) (hx : a.owner x ≠ 0) : b.owner x = a.owner x := by
  obtain ⟨k, hk⟩ := Nat.exists_eq_succ_of_ne_zero hx
  obtain ⟨s, hs, hxs⟩ := owner_eq_iff.1 hk
  rw [hk]
  exact owner_eq_iff.2 ⟨s, share_mono h hs, hxs⟩

/-! ## Counting -/

theorem card_ordinal (u : Finset α) (shares : List (Finset α)) (hwithin : ∀ s ∈ shares, s ⊆ u)
    (hdisjoint : shares.Pairwise Disjoint) :
    (u.filter fun x => ordinal x shares = 0).card + (shares.map Finset.card).sum = u.card := by
  induction shares using List.reverseRecOn with
  | nil => simp [ordinal]
  | append_singleton shares s ih =>
    obtain ⟨hpair, -, hlast⟩ := List.pairwise_append.1 hdisjoint
    have hrest := ih (fun t ht => hwithin t (List.mem_append_left _ ht)) hpair
    have hfree : ∀ x ∈ s, ordinal x shares = 0 := fun x hx => ordinal_eq_zero.2 fun t ht =>
      Finset.disjoint_right.1 (hlast t ht s (List.mem_singleton_self s)) hx
    -- the last share is a part of what was free before it
    have hsplit : (u.filter fun x => ordinal x shares = 0) =
        (u.filter fun x => ordinal x (shares ++ [s]) = 0) ∪ s := by
      ext x
      have hsu : x ∈ s → x ∈ u := fun hx => hwithin s (by simp) hx
      simp only [Finset.mem_union, Finset.mem_filter, ordinal_snoc]
      by_cases hx : x ∈ s
      · simp [hx, hsu hx, hfree x hx]
      · by_cases h0 : ordinal x shares = 0 <;> simp [hx, h0]
    have hdisj : Disjoint (u.filter fun x => ordinal x (shares ++ [s]) = 0) s := by
      rw [Finset.disjoint_right]
      intro x hx hmem
      exact ordinal_eq_zero.1 (Finset.mem_filter.1 hmem).2 s (by simp) hx
    rw [hsplit, Finset.card_union_of_disjoint hdisj] at hrest
    rw [List.map_append, List.sum_append]
    simp only [List.map_cons, List.map_nil, List.sum_cons, List.sum_nil]
    omega

/-- What is free and what has been given out make up the whole. -/
theorem card_free (a : Allotment u) : a.free.card + (a.shares.map Finset.card).sum = u.card :=
  card_ordinal u a.shares a.within a.disjoint

end Allotment

end Lib
