import Mathlib.Data.List.Nodup
import Mathlib.Data.List.Perm.Subperm

/-
  A heap of blocks of one type, and singly linked chains in it.

  A pointer is the number of a block. `alloc` hands out a number never used before, `free`
  kills a block for good, so a dangling pointer never becomes live again and a block that is
  freed twice shows (`free` gives `none`). `Freed` says which blocks of a heap have been freed.
  `Chain next h o ps` says that following `next` from `o` visits exactly the live blocks `ps` and
  then ends; it determines `ps` (`chain_unique`), so the pointers are distinct (`chain_nodup`).
-/

namespace Lib

/-- A pointer: the number of a block of some heap. -/
abbrev Ptr := Nat

/-- The blocks handed out so far; `none` is a block that has been freed. -/
structure Heap (α : Type) where
  blocks : List (Option α) := []
  deriving DecidableEq, Repr

namespace Heap

variable {α : Type}

/-- What a live pointer points to. -/
def load (h : Heap α) (p : Ptr) : Option α := h.blocks[p]?.join

/-- The pointer the next allocation returns. -/
def fresh (h : Heap α) : Ptr := h.blocks.length

/-- The heap after allocating a block holding `a` at `h.fresh`. -/
def alloc (h : Heap α) (a : α) : Heap α := ⟨h.blocks ++ [some a]⟩

/-- The heap in which the block at `p` holds `a`. -/
def set (h : Heap α) (p : Ptr) (a : α) : Heap α := ⟨h.blocks.set p (some a)⟩

/-- Write `a` through `p`; `none` when `p` is not live. -/
def store (h : Heap α) (p : Ptr) (a : α) : Option (Heap α) :=
  (h.load p).map fun _ => h.set p a

/-- Free the block at `p`; `none` when `p` is not live. -/
def free (h : Heap α) (p : Ptr) : Option (Heap α) :=
  (h.load p).map fun _ => ⟨h.blocks.set p none⟩

theorem load_lt {h : Heap α} {p : Ptr} {a : α} (hp : h.load p = some a) : p < h.fresh := by
  by_contra hlt
  rw [load, List.getElem?_eq_none (by simpa [fresh] using hlt)] at hp
  simp at hp

theorem ne_fresh_of_load {h : Heap α} {p : Ptr} {a : α} (hp : h.load p = some a) :
    p ≠ h.fresh := Nat.ne_of_lt (load_lt hp)

@[simp] theorem load_alloc_fresh (h : Heap α) (a : α) : (h.alloc a).load h.fresh = some a := by
  simp [load, fresh, alloc]

theorem load_alloc_of_ne {h : Heap α} {p : Ptr} (hp : p ≠ h.fresh) (a : α) :
    (h.alloc a).load p = h.load p := by
  have hp' : p ≠ h.blocks.length := hp
  unfold load alloc
  rcases Nat.lt_or_gt_of_ne hp' with hlt | hgt
  · rw [List.getElem?_append_left hlt]
  · rw [List.getElem?_eq_none (by simp; omega), List.getElem?_eq_none (by omega)]

/-- An allocation changes no live block. -/
theorem load_alloc_of_load {h : Heap α} {p : Ptr} {b : α} (hp : h.load p = some b) (a : α) :
    (h.alloc a).load p = some b := by
  rw [load_alloc_of_ne (ne_fresh_of_load hp), hp]

/-- A write through a live pointer succeeds. -/
theorem store_of_load {h : Heap α} {p : Ptr} {b : α} (hp : h.load p = some b) (a : α) :
    h.store p a = some (h.set p a) := by
  simp [store, hp]

/-- A write through a live pointer changes that block and no other. -/
theorem load_set {h : Heap α} {p : Ptr} {b : α} (hp : h.load p = some b) (a : α) (q : Ptr) :
    (h.set p a).load q = if q = p then some a else h.load q := by
  have hlt : p < h.blocks.length := load_lt hp
  unfold load set
  by_cases hq : q = p
  · subst hq
    simp [List.getElem?_set_self hlt]
  · rw [if_neg hq, List.getElem?_set_ne (Ne.symm hq)]

theorem set_set (h : Heap α) (p : Ptr) (a b : α) : (h.set p a).set p b = h.set p b := by
  simp [set]

/-- Writing back what is there changes nothing. -/
theorem set_self {h : Heap α} {p : Ptr} {a : α} (hp : h.load p = some a) : h.set p a = h := by
  have hlt : p < h.blocks.length := load_lt hp
  have hget : h.blocks[p] = some a := by
    simpa [load, List.getElem?_eq_getElem hlt] using hp
  rw [set, ← hget, List.set_getElem_self]

/-- Freeing a live block succeeds, kills that block and no other. -/
theorem free_of_load {h : Heap α} {p : Ptr} {b : α} (hp : h.load p = some b) :
    ∃ h', h.free p = some h' ∧ ∀ q, h'.load q = if q = p then none else h.load q := by
  refine ⟨⟨h.blocks.set p none⟩, by simp [free, hp], fun q => ?_⟩
  have hlt : p < h.blocks.length := load_lt hp
  unfold load
  by_cases hq : q = p
  · subst hq
    simp [List.getElem?_set_self hlt]
  · rw [if_neg hq, List.getElem?_set_ne (Ne.symm hq)]

@[simp] theorem load_fresh (h : Heap α) : h.load h.fresh = none := by
  simp [load, fresh]

/-- A new block can be overwritten without touching the old ones. -/
theorem load_set_fresh (h : Heap α) (a b : α) :
    ((h.alloc a).set h.fresh b).load h.fresh = some b ∧
      ∀ q, q ≠ h.fresh → ((h.alloc a).set h.fresh b).load q = h.load q := by
  refine ⟨by rw [load_set (load_alloc_fresh h a), if_pos rfl], fun q hq => ?_⟩
  rw [load_set (load_alloc_fresh h a), if_neg hq]
  exact load_alloc_of_ne hq a

/-- Freeing a new block leaves the heap as it was before. -/
theorem free_fresh {h h₁ : Heap α} {a : α} (hnew : h₁.load h.fresh = some a)
    (hold : ∀ q, q ≠ h.fresh → h₁.load q = h.load q) :
    ∃ h', h₁.free h.fresh = some h' ∧ ∀ q, h'.load q = h.load q := by
  obtain ⟨h', hs, hl⟩ := free_of_load hnew
  refine ⟨h', hs, fun q => ?_⟩
  rw [hl]
  by_cases hq : q = h.fresh
  · rw [if_pos hq, hq, load_fresh]
  · rw [if_neg hq]
    exact hold q hq

/-- `h'` is `h` after the blocks `ps` have been freed, and no others. -/
def Freed (h h' : Heap α) (ps : List Ptr) : Prop :=
  ∀ q, h'.load q = if q ∈ ps then none else h.load q

theorem freed_nil (h : Heap α) : h.Freed h [] := fun q => by simp

/-- One more block before the others. -/
theorem Freed.cons {h h₁ h' : Heap α} {p : Ptr} {ps : List Ptr}
    (hp : ∀ q, h₁.load q = if q = p then none else h.load q) (hps : h₁.Freed h' ps) :
    h.Freed h' (p :: ps) := by
  intro q
  rw [hps, hp]
  by_cases hq : q = p
  · simp [hq]
  · simp [hq]

end Heap

/-! ## Chains -/

section Chain

variable {α : Type} (next : α → Option Ptr)

/-- Following `next` from `o` visits the live blocks `ps` in order and ends. -/
def Chain (h : Heap α) : Option Ptr → List Ptr → Prop
  | o, [] => o = none
  | o, p :: ps => o = some p ∧ ∃ a, h.load p = some a ∧ Chain h (next a) ps

variable {next} {h h' : Heap α}

theorem chain_nil {o : Option Ptr} : Chain next h o [] ↔ o = none := Iff.rfl

theorem chain_eq_head? : ∀ {ps : List Ptr} {o : Option Ptr}, Chain next h o ps → o = ps.head?
  | [], _, hc => hc
  | _ :: _, _, hc => hc.1

theorem chain_live : ∀ {ps : List Ptr} {o : Option Ptr}, Chain next h o ps →
    ∀ p ∈ ps, ∃ a, h.load p = some a
  | q :: ps, _, ⟨_, a, ha, hc⟩, p, hp => by
      rcases List.mem_cons.mp hp with rfl | hp
      · exact ⟨a, ha⟩
      · exact chain_live hc p hp

/-- The start determines the whole chain. -/
theorem chain_unique : ∀ {ps qs : List Ptr} {o : Option Ptr}, Chain next h o ps →
    Chain next h o qs → ps = qs
  | [], [], _, _, _ => rfl
  | [], q :: qs, _, hp, hq => by simp [chain_nil.1 hp] at hq; exact absurd hq.1 (by simp)
  | p :: ps, [], _, hp, hq => by simp [chain_nil.1 hq] at hp; exact absurd hp.1 (by simp)
  | p :: ps, q :: qs, _, ⟨ho, a, ha, hp⟩, ⟨ho', b, hb, hq⟩ => by
      obtain rfl : p = q := Option.some.inj (ho.symm.trans ho')
      obtain rfl : a = b := Option.some.inj (ha.symm.trans hb)
      rw [chain_unique hp hq]

/-- The rest of a chain from one of its blocks is a chain. -/
theorem chain_drop : ∀ {ps : List Ptr} {o : Option Ptr} {q : Ptr} {qs : List Ptr},
    Chain next h o (ps ++ q :: qs) → Chain next h (some q) (q :: qs)
  | [], _, _, _, ⟨_, a, ha, hc⟩ => ⟨rfl, a, ha, hc⟩
  | _ :: _, _, _, _, ⟨_, _, _, hc⟩ => chain_drop hc

/-- A chain ends, so it visits no block twice. -/
theorem chain_nodup : ∀ {ps : List Ptr} {o : Option Ptr}, Chain next h o ps → ps.Nodup
  | [], _, _ => List.nodup_nil
  | p :: ps, o, hc => by
      refine List.nodup_cons.mpr ⟨fun hmem => ?_, chain_nodup hc.2.choose_spec.2⟩
      -- a second visit of `p` would give two chains of different lengths from `p`
      obtain ⟨l, r, rfl⟩ := List.append_of_mem hmem
      have hlong : Chain next h (some p) ((p :: l) ++ p :: r) := hc.1 ▸ hc
      have hshort : Chain next h (some p) (p :: r) := chain_drop hlong
      have := congrArg List.length (chain_unique hlong hshort)
      simp at this
      omega

/-- A chain depends only on the `next` of the blocks it visits. -/
theorem chain_congr : ∀ {ps : List Ptr} {o : Option Ptr}, Chain next h o ps →
    (∀ p ∈ ps, ∀ a, h.load p = some a → ∃ b, h'.load p = some b ∧ next b = next a) →
    Chain next h' o ps
  | [], _, hc, _ => hc
  | p :: ps, _, ⟨ho, a, ha, hc⟩, hf => by
      obtain ⟨b, hb, hn⟩ := hf p (by simp) a ha
      refine ⟨ho, b, hb, ?_⟩
      rw [hn]
      exact chain_congr hc fun q hq => hf q (List.mem_cons_of_mem _ hq)

/-- Linking one more block behind the last one of a chain. -/
theorem chain_snoc : ∀ {ps : List Ptr} {o : Option Ptr} {t n : Ptr} {c : α},
    Chain next h o (ps ++ [t]) →
    (∀ p ∈ ps, h'.load p = h.load p) → (∃ b, h'.load t = some b ∧ next b = some n) →
    h'.load n = some c → next c = none → Chain next h' o (ps ++ [t] ++ [n])
  | [], _, t, n, c, ⟨ho, _, _, _⟩, _, ⟨b, hb, hnb⟩, hn, hc =>
      ⟨ho, b, hb, hnb, c, hn, hc⟩
  | p :: ps, _, t, n, c, ⟨ho, a, ha, hch⟩, hf, hb, hn, hc => by
      refine ⟨ho, a, (hf p (by simp)).trans ha, ?_⟩
      exact chain_snoc hch (fun q hq => hf q (List.mem_cons_of_mem _ hq)) hb hn hc

/-- A chain has no more blocks than the heap. -/
theorem chain_length_le {ps : List Ptr} {o : Option Ptr} (hc : Chain next h o ps) :
    ps.length ≤ h.fresh := by
  have hsub : ps ⊆ List.range h.fresh := fun p hp => by
    obtain ⟨a, ha⟩ := chain_live hc p hp
    exact List.mem_range.mpr (Heap.load_lt ha)
  have := (chain_nodup hc).subperm hsub
  simpa using this.length_le

end Chain

end Lib
