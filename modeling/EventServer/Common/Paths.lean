import EventServer.Common.Io

/-
  Paths of named pipes, in the arrays of `MAX_PATH` bytes that the client sends and the server
  copies. `ems_setup` of `client/api.c` fills an array with NUL bytes and copies the path to its
  start (`PipePath.field`); `extract_requests` of `server/main.c` copies the string in an array
  with `snprintf`, which gives the path back (`snprintf_field`).
-/

namespace EventServer

def MAX_PATH : Nat := 40

/-- A path that names a pipe and fits an array of `MAX_PATH` bytes with its NUL. -/
structure PipePath where
  bytes : Bytes
  ne_nil : bytes ≠ []
  no_nul : 0 ∉ bytes
  lt_max : bytes.length < MAX_PATH
  deriving DecidableEq, Repr

/-- The array after `memset` with NUL and `strcpy` of the path. -/
def PipePath.field (p : PipePath) : Bytes :=
  p.bytes ++ List.replicate (MAX_PATH - p.bytes.length) 0

@[simp] theorem PipePath.length_field (p : PipePath) : p.field.length = MAX_PATH := by
  have := p.lt_max
  rw [PipePath.field, List.length_append, List.length_replicate]
  omega

/-- `snprintf(dst, MAX_PATH, "%s", src)`: the string at the start of `src`, cut to what `dst` has
    room for; `none` if `src` holds no NUL, so that the copying runs past its end. -/
def snprintf (src : Bytes) : Option Bytes :=
  if 0 ∈ src then some ((src.takeWhile (· != 0)).take (MAX_PATH - 1)) else none

theorem takeWhile_nul {bs : Bytes} (h : 0 ∉ bs) (rest : Bytes) :
    (bs ++ 0 :: rest).takeWhile (· != 0) = bs := by
  have hall : ∀ b ∈ bs, (b != 0) = true := fun b hb => bne_iff_ne.2 fun h0 => h (h0 ▸ hb)
  rw [List.takeWhile_append_of_pos hall]
  simp

/-- A string that is followed by NUL is copied as it is. -/
theorem snprintf_append {bs : Bytes} (h : 0 ∉ bs) (hlen : bs.length < MAX_PATH) (rest : Bytes) :
    snprintf (bs ++ 0 :: rest) = some bs := by
  rw [snprintf, if_pos (by simp), takeWhile_nul h, List.take_of_length_le (by omega)]

@[simp] theorem snprintf_field (p : PipePath) : snprintf p.field = some p.bytes := by
  have hsplit : p.field = p.bytes ++ 0 :: List.replicate (MAX_PATH - p.bytes.length - 1) 0 := by
    have := p.lt_max
    obtain ⟨n, hn⟩ : ∃ n, MAX_PATH - p.bytes.length = n + 1 := ⟨_, (Nat.sub_add_cancel (by omega)).symm⟩
    rw [PipePath.field, hn, List.replicate_succ, Nat.add_sub_cancel]
  rw [hsplit, snprintf_append p.no_nul p.lt_max]

end EventServer
