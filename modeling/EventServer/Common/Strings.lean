import EventServer.Common.Paths

/-
  Strings in arrays: `strcpy` and `strrchr`.

  `strcpy` stores a string and a NUL wherever it is told to, and behind the array if that is too
  small (`strcpy_eq_none`). What the array holds then is read up to the first NUL
  (`strcpy_str`). `strrchr` finds the extension of a path (`strrchr_append`).
-/

namespace EventServer

/-- A string: bytes without NUL. -/
structure CString where
  bytes : Bytes
  no_nul : 0 ∉ bytes
  deriving Repr

/-- The string at the start of an array. -/
def Buffer.str {n : Nat} (buf : Buffer n) : Bytes := buf.bytes.takeWhile (· != 0)

/-- `strcpy(buf + start, str)`; `none` if the array has no room for the string and its NUL. -/
def strcpy {n : Nat} (buf : Buffer n) (start : Nat) (str : Bytes) : Option (Buffer n) :=
  if h : start + str.length < n then some
    { bytes := buf.bytes.take start ++ str ++ 0 :: buf.bytes.drop (start + str.length + 1)
      length_eq := by
        have := buf.length_eq
        simp only [List.length_append, List.length_take, List.length_cons, List.length_drop]
        omega }
  else none

/-- `strrchr`: the index of the last byte `ch` of a string; `none` for NULL. -/
def strrchr (ch : UInt8) : Bytes → Option Nat
  | [] => none
  | c :: str =>
    match strrchr ch str with
    | some i => some (i + 1)
    | none => if c = ch then some 0 else none

section

variable {n : Nat} {buf buf' : Buffer n} {start : Nat} {str : Bytes}

theorem strcpy_eq_none : strcpy buf start str = none ↔ n ≤ start + str.length := by
  unfold strcpy
  split
  · next h => exact iff_of_false (by simp) (Nat.not_le.2 h)
  · next h => exact iff_of_true rfl (Nat.not_lt.1 h)

theorem strcpy_bytes (h : strcpy buf start str = some buf') : start + str.length < n ∧
    buf'.bytes = buf.bytes.take start ++ str ++ 0 :: buf.bytes.drop (start + str.length + 1) := by
  unfold strcpy at h
  split at h
  · next hlt => exact ⟨hlt, by rw [← Option.some.inj h]⟩
  · cases h

/-- The string in the array afterwards. -/
theorem strcpy_str (h : strcpy buf start str = some buf') (hfront : 0 ∉ buf.bytes.take start)
    (hstr : 0 ∉ str) : buf'.str = buf.bytes.take start ++ str := by
  rw [Buffer.str, (strcpy_bytes h).2]
  refine takeWhile_nul (fun hm => ?_) _
  exact (List.mem_append.1 hm).elim hfront hstr

/-- A string copied to the start of an array. -/
theorem strcpy_start (h : strcpy buf 0 str = some buf') (hstr : 0 ∉ str) : buf'.str = str := by
  simpa using strcpy_str h (by simp) hstr

end

/-! ## The last point -/

theorem strrchr_of_not_mem {ch : UInt8} : ∀ {str : Bytes}, ch ∉ str → strrchr ch str = none
  | [], _ => rfl
  | c :: str, h => by
      rw [strrchr, strrchr_of_not_mem fun hm => h (List.mem_cons_of_mem _ hm)]
      exact if_neg fun hc => h (List.mem_cons.2 (Or.inl hc.symm))

theorem strrchr_append {ch : UInt8} {ext : Bytes} (h : ch ∉ ext) :
    ∀ stem : Bytes, strrchr ch (stem ++ ch :: ext) = some stem.length
  | [] => by
      rw [List.nil_append, strrchr, strrchr_of_not_mem h]
      simp
  | c :: stem => by
      rw [List.cons_append, strrchr, strrchr_append h stem]
      rfl

end EventServer
