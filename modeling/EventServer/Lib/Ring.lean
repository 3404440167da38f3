import Mathlib.Data.Nat.ModEq

/-
  Ring buffers seen from their history.

  `ins` is everything that has been put into the ring so far, `outs` the number of elements taken
  out of it. `Holds slots ins outs` says that the slots hold the elements still inside, each at its
  number modulo the size; `Holds.put` and `Holds.take` are the two operations. `ringContents` reads
  them off from the slot of the oldest one.
-/

namespace Lib

variable {α : Type} {slots ins : List α} {outs : Nat}

/-- The elements that are still inside stand in their slots. -/
structure Holds (slots ins : List α) (outs : Nat) : Prop where
  outs_le : outs ≤ ins.length
  room : ins.length ≤ outs + slots.length
  get : ∀ k, outs ≤ k → k < ins.length → slots[k % slots.length]? = ins[k]?

/-- Fewer steps than the size of the ring do not lead back to a slot. -/
theorem mod_ne_of_lt {n j k : Nat} (hjk : j < k) (hk : k < j + n) : j % n ≠ k % n := by
  intro h
  have hdvd : n ∣ k - j := (Nat.modEq_iff_dvd' hjk.le).1 h
  have := Nat.le_of_dvd (by omega) hdvd
  omega

theorem holds_nil (slots : List α) : Holds slots [] 0 :=
  ⟨Nat.le_refl _, Nat.zero_le _, fun k _ hk => absurd hk (Nat.not_lt_zero k)⟩

/-- Put an element into the next free slot. -/
theorem Holds.put (h : Holds slots ins outs) (hfree : ins.length < outs + slots.length) (a : α) :
    Holds (slots.set (ins.length % slots.length) a) (ins ++ [a]) outs where
  outs_le := by
    have := h.outs_le
    rw [List.length_append]
    omega
  room := by
    rw [List.length_append, List.length_set, List.length_singleton]
    omega
  get k hk hlt := by
    have hle := h.outs_le
    have hpos : 0 < slots.length := by omega
    rw [List.length_append, List.length_singleton] at hlt
    rw [List.length_set]
    by_cases hlast : k = ins.length
    · subst hlast
      rw [List.getElem?_set_self (Nat.mod_lt _ hpos), List.getElem?_append_right (Nat.le_refl _),
        Nat.sub_self]
      rfl
    · have hne := mod_ne_of_lt (n := slots.length) (j := k) (k := ins.length) (by omega) (by omega)
      rw [List.getElem?_set_ne hne.symm, List.getElem?_append_left (by omega)]
      exact h.get k hk (by omega)

/-- Take the oldest element out. -/
theorem Holds.take (h : Holds slots ins outs) (hlt : outs < ins.length) :
    slots[outs % slots.length]? = ins[outs]? ∧ Holds slots ins (outs + 1) :=
  ⟨h.get outs (Nat.le_refl _) hlt, hlt, by have := h.room; omega, fun k hk => h.get k (by omega)⟩

/-- The next `n` elements of a ring from slot `out` on. -/
def ringContents (slots : List α) : Nat → Nat → List α
  | _, 0 => []
  | out, n + 1 => slots[out]?.toList ++ ringContents slots ((out + 1) % slots.length) n

/-- The ring contains what has been put in and not been taken out. -/
theorem Holds.contents : ∀ {n outs : Nat}, Holds slots ins outs → outs + n = ins.length →
    ringContents slots (outs % slots.length) n = ins.drop outs
  | 0, outs, _, hn => (List.drop_eq_nil_of_le (by omega)).symm
  | n + 1, outs, h, hn => by
      have hlt : outs < ins.length := by omega
      obtain ⟨hslot, htaken⟩ := h.take hlt
      have hnext : (outs % slots.length + 1) % slots.length = (outs + 1) % slots.length :=
        Nat.mod_add_mod _ _ _
      rw [ringContents, hslot, hnext, htaken.contents (by omega), List.getElem?_eq_getElem hlt,
        List.drop_eq_getElem_cons hlt]
      rfl

/-- A prefix grows by the element that follows it. -/
theorem prefix_concat {l ins : List α} {a : α} (h : l <+: ins) (ha : ins[l.length]? = some a) :
    l ++ [a] <+: ins := by
  obtain ⟨rest, rfl⟩ := h
  rw [List.getElem?_append_right (Nat.le_refl _), Nat.sub_self] at ha
  cases rest with
  | nil => cases ha
  | cons b rest =>
    obtain rfl : b = a := Option.some.inj ha
    exact ⟨rest, by rw [List.append_assoc]; rfl⟩

end Lib
