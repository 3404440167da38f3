import Mathlib.Data.Nat.Digits.Defs
import Mathlib.Tactic.Ring

/-
  Fixed-width little-endian byte strings of natural numbers and of lists of them.
  `leValue` reads the value of a byte string, `leBytes k` writes a number into `k` bytes; reading
  what was written gives the number modulo `256 ^ k` (`leValue_leBytes`).
-/

namespace Lib

/-- The low `k` bytes of `n`, least significant first. -/
def leBytes : Nat → Nat → List UInt8
  | 0, _ => []
  | k + 1, n => UInt8.ofNat n :: leBytes k (n / 256)

/-- The number a byte string stands for, least significant byte first. -/
def leValue (bs : List UInt8) : Nat := Nat.ofDigits 256 (bs.map UInt8.toNat)

@[simp] theorem length_leBytes (k n : Nat) : (leBytes k n).length = k := by
  induction k generalizing n with
  | zero => rfl
  | succ k ih => simp [leBytes, ih]

theorem leValue_cons (b : UInt8) (bs : List UInt8) :
    leValue (b :: bs) = b.toNat + 256 * leValue bs := by
  simp [leValue, Nat.ofDigits_cons]

theorem leValue_leBytes (k n : Nat) : leValue (leBytes k n) = n % 256 ^ k := by
  induction k generalizing n with
  | zero => simp [leBytes, leValue, Nat.mod_one]
  | succ k ih =>
    rw [leBytes, leValue_cons, ih, UInt8.toNat_ofNat', Nat.pow_succ' (m := 256), Nat.mod_mul]

theorem leValue_lt (bs : List UInt8) : leValue bs < 256 ^ bs.length := by
  induction bs with
  | nil => exact Nat.one_pos
  | cons b bs ih =>
    have hb := b.toNat_lt
    rw [leValue_cons, List.length_cons, pow_succ]
    omega

/-- Writing back what has been read. -/
theorem leBytes_leValue {k : Nat} {bs : List UInt8} (h : bs.length = k) :
    leBytes k (leValue bs) = bs := by
  subst h
  induction bs with
  | nil => rfl
  | cons b bs ih =>
    have hb := b.toNat_lt
    have hdiv : (b.toNat + 256 * leValue bs) / 256 = leValue bs := by omega
    have hlow : UInt8.ofNat (b.toNat + 256 * leValue bs) = b :=
      UInt8.toNat_inj.1 (by rw [UInt8.toNat_ofNat']; omega)
    rw [leValue_cons, List.length_cons, leBytes, hdiv, ih, hlow]

/-- The first `n` groups of `k` bytes. -/
def groups (k : Nat) : Nat → List UInt8 → List (List UInt8)
  | 0, _ => []
  | n + 1, bs => bs.take k :: groups k n (bs.drop k)

@[simp] theorem length_groups (k n : Nat) (bs : List UInt8) : (groups k n bs).length = n := by
  induction n generalizing bs with
  | zero => rfl
  | succ n ih => simp [groups, ih]

/-- The groups come from the first `k * n` bytes. -/
theorem groups_append {k n : Nat} {bs : List UInt8} (h : k * n ≤ bs.length) (rest : List UInt8) :
    groups k n (bs ++ rest) = groups k n bs := by
  induction n generalizing bs with
  | zero => rfl
  | succ n ih =>
    rw [Nat.mul_succ] at h
    have htail : groups k n (bs.drop k ++ rest) = groups k n (bs.drop k) :=
      ih (by rw [List.length_drop]; omega)
    rw [groups, groups, List.take_append_of_le_length (by omega),
      List.drop_append_of_le_length (by omega), htail]

theorem take_groups {k n m : Nat} (hn : n ≤ m) (bs : List UInt8) :
    (groups k m bs).take n = groups k n bs := by
  induction n generalizing m bs with
  | zero => rfl
  | succ n ih =>
    obtain ⟨m, rfl⟩ : ∃ m', m = m' + 1 := ⟨m - 1, by omega⟩
    rw [groups, groups, List.take_succ_cons, ih (by omega)]

/-- Cutting the concatenation of byte strings of one length gives the strings back, whatever
    follows them. -/
theorem groups_flatten_append {k : Nat} {bss : List (List UInt8)} (h : ∀ bs ∈ bss, bs.length = k)
    {n : Nat} (hn : bss.length ≤ n) (rest : List UInt8) :
    (groups k n (bss.flatten ++ rest)).take bss.length = bss := by
  induction bss generalizing n with
  | nil => rfl
  | cons bs bss ih =>
    obtain ⟨m, rfl⟩ : ∃ m, n = m + 1 := ⟨n - 1, by simp at hn; omega⟩
    have hk : bs.length = k := h bs (by simp)
    have htail : (groups k m (bss.flatten ++ rest)).take bss.length = bss :=
      ih (fun b hb => h b (List.mem_cons_of_mem _ hb)) (by simpa using hn)
    simp only [List.flatten_cons, List.append_assoc, groups, List.length_cons, List.take_succ_cons]
    rw [← hk, List.take_left, List.drop_left, hk, htail]

end Lib
