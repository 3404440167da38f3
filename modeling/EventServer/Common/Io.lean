import EventServer.Lib.LittleEndian

/-
  `common/io.c` over descriptors with a hostile environment.

  A descriptor carries the bytes that pass through it and the turns the environment takes at its
  system calls: how much of a request a call transfers, a call cut short by SIGUSR1 (`EINTR`),
  a failing call, a SIGUSR1 that is handled between two calls. With no turns left every call
  transfers all it can. `myRead` and `myWrite` are the two loops every message of the system
  goes through.
-/

namespace EventServer

open Lib

abbrev Bytes := List UInt8

/-- The bytes of a string literal. -/
def ascii (s : String) : Bytes := s.toList.map fun c => UInt8.ofNat c.toNat

/-- `int` and `unsigned int` are 4 bytes wide, `size_t` 8, all little endian. -/
def intBytes (n : Int32) : Bytes := leBytes 4 n.toUInt32.toNat

def uintBytes (n : UInt32) : Bytes := leBytes 4 n.toNat

def sizeBytes (n : UInt64) : Bytes := leBytes 8 n.toNat

def toUInt (bs : Bytes) : UInt32 := UInt32.ofNat (leValue bs)

def toInt (bs : Bytes) : Int32 := (toUInt bs).toInt32

def toSize (bs : Bytes) : UInt64 := UInt64.ofNat (leValue bs)

/-- The bytes of an array of `size_t`. -/
def sizesBytes (ns : List UInt64) : Bytes := (ns.map sizeBytes).flatten

/-- The first `n` elements of an array of `size_t`. -/
def toSizes (n : Nat) (bs : Bytes) : List UInt64 := (groups 8 n bs).map toSize

@[simp] theorem length_intBytes (n : Int32) : (intBytes n).length = 4 := length_leBytes _ _

@[simp] theorem length_uintBytes (n : UInt32) : (uintBytes n).length = 4 := length_leBytes _ _

@[simp] theorem length_sizeBytes (n : UInt64) : (sizeBytes n).length = 8 := length_leBytes _ _

@[simp] theorem length_sizesBytes (ns : List UInt64) : (sizesBytes ns).length = ns.length * 8 := by
  induction ns with
  | nil => rfl
  | cons n ns ih =>
    simp only [sizesBytes, List.map_cons, List.flatten_cons, List.length_append,
      List.length_cons, length_sizeBytes] at ih ⊢
    omega

theorem sizesBytes_append (ns ns' : List UInt64) :
    sizesBytes (ns ++ ns') = sizesBytes ns ++ sizesBytes ns' := by
  rw [sizesBytes, List.map_append, List.flatten_append]
  rfl

@[simp] theorem length_toSizes (n : Nat) (bs : Bytes) : (toSizes n bs).length = n := by
  simp [toSizes]

@[simp] theorem toUInt_uintBytes (n : UInt32) : toUInt (uintBytes n) = n := by
  rw [toUInt, uintBytes, leValue_leBytes, Nat.mod_eq_of_lt (by simpa using n.toNat_lt),
    UInt32.ofNat_toNat]

@[simp] theorem toInt_intBytes (n : Int32) : toInt (intBytes n) = n := by
  have h : toUInt (intBytes n) = n.toUInt32 := toUInt_uintBytes n.toUInt32
  rw [toInt, h, Int32.toInt32_toUInt32]

@[simp] theorem toSize_sizeBytes (n : UInt64) : toSize (sizeBytes n) = n := by
  rw [toSize, sizeBytes, leValue_leBytes, Nat.mod_eq_of_lt (by simpa using n.toNat_lt),
    UInt64.ofNat_toNat]

/-- A counter that does not wrap. -/
theorem toNat_counter {i : UInt64} (h : i.toNat + 1 < 2 ^ 64) : (i + 1).toNat = i.toNat + 1 := by
  rw [UInt64.toNat_add, UInt64.toNat_one, Nat.mod_eq_of_lt h]

/-- Bytes that have been received are those of the number they are read as. -/
theorem uintBytes_toUInt {bs : Bytes} (h : bs.length = 4) : uintBytes (toUInt bs) = bs := by
  have hlt : leValue bs < 2 ^ 32 := by
    have := leValue_lt bs
    rwa [h] at this
  rw [uintBytes, toUInt, UInt32.toNat_ofNat', Nat.mod_eq_of_lt hlt, leBytes_leValue h]

theorem intBytes_toInt {bs : Bytes} (h : bs.length = 4) : intBytes (toInt bs) = bs := by
  rw [intBytes, toInt, UInt32.toUInt32_toInt32]
  exact uintBytes_toUInt h

theorem sizeBytes_toSize {bs : Bytes} (h : bs.length = 8) : sizeBytes (toSize bs) = bs := by
  have hlt : leValue bs < 2 ^ 64 := by
    have := leValue_lt bs
    rwa [h] at this
  rw [sizeBytes, toSize, UInt64.toNat_ofNat', Nat.mod_eq_of_lt hlt, leBytes_leValue h]

/-- Reading back an array of `size_t` that is followed by anything. -/
theorem take_toSizes {ns : List UInt64} {n : Nat} (h : ns.length ≤ n) (rest : Bytes) :
    (toSizes n (sizesBytes ns ++ rest)).take ns.length = ns := by
  have hg := groups_flatten_append (show ∀ bs ∈ ns.map sizeBytes, bs.length = 8 by simp)
    (show (ns.map sizeBytes).length ≤ n by simpa) rest
  rw [List.length_map] at hg
  rw [toSizes, ← List.map_take, sizesBytes, hg, List.map_map]
  exact List.map_id'' (fun n => toSize_sizeBytes n) ns

/-! ## Variables -/

/-- A variable of `n` bytes. -/
structure Buffer (n : Nat) where
  bytes : Bytes
  length_eq : bytes.length = n
  deriving DecidableEq, Repr

/-- The variable after storing bytes at its start, as far as it has room for them. -/
def Buffer.overwrite {n : Nat} (b : Buffer n) (bs : Bytes) : Buffer n where
  bytes := bs.take n ++ b.bytes.drop bs.length
  length_eq := by
    have := b.length_eq
    simp only [List.length_append, List.length_take, List.length_drop]
    omega

/-- A variable that happens to hold zeros. -/
def Buffer.zero (n : Nat) : Buffer n := ⟨List.replicate n 0, List.length_replicate⟩

theorem overwrite_of_length {n : Nat} (b : Buffer n) {bs : Bytes} (h : bs.length = n) :
    (b.overwrite bs).bytes = bs := by
  have := b.length_eq
  simp only [Buffer.overwrite]
  rw [List.drop_eq_nil_of_le (by omega), List.append_nil, List.take_of_length_le (by omega)]

/-! ## Descriptors -/

/-- Why a run stops without returning: undefined behaviour of the C program, SIGPIPE, a loop that
    never ends, or a read that waits for ever. -/
inductive Stop where
  | nullPointer
  | dangling
  | outOfBounds
  | invalidFree
  | sigpipe
  | diverges
  | blocked
  deriving DecidableEq, Repr

/-- What the environment does at the next system call on a descriptor. -/
inductive Turn where
  /-- The call transfers at most `n + 1` bytes. -/
  | go (n : Nat)
  /-- SIGUSR1 arrives during the call, which fails with `EINTR`. -/
  | eintr
  /-- The call fails with another error. -/
  | fail
  /-- SIGUSR1 arrives before the call; the call itself is the next turn. -/
  | signal
  deriving DecidableEq, Repr

/-- Turns of an environment without signals and errors. -/
def Calm (ts : List Turn) : Prop := ∀ t ∈ ts, ∃ n, t = .go n

theorem calm_nil : Calm [] := by simp [Calm]

theorem Calm.tail {t : Turn} {ts : List Turn} (h : Calm (t :: ts)) : Calm ts :=
  fun u hu => h u (List.mem_cons_of_mem _ hu)

/-- A descriptor open for reading: the bytes still to come, whether the stream ends after them
    (else a read waits), and `print_flag`, which the handler of SIGUSR1 sets. -/
structure Reader where
  bytes : Bytes
  eof : Bool := true
  turns : List Turn := []
  printFlag : Bool := false
  deriving DecidableEq, Repr

/-- A descriptor open for writing: the bytes written so far. -/
structure Writer where
  written : Bytes := []
  turns : List Turn := []
  deriving DecidableEq, Repr

/-- The number of SIGUSR1 (on Linux). -/
def SIGUSR1 : Nat := 10

/-- `sigusr1_handler`: the new value of `print_flag`. -/
def sigusr1Handler (signum : Nat) (print_flag : Bool) : Bool :=
  if signum = SIGUSR1 then true else print_flag

/-- Result of the system call `read`; no data means end of file. -/
inductive ReadResult where
  | data (bs : Bytes)
  | eintr
  | error
  | blocked
  deriving DecidableEq, Repr

/-- Hand over at most `k` bytes. -/
def Reader.deliver (r : Reader) (k : Nat) : ReadResult × Reader :=
  if r.bytes = [] then (if r.eof then .data [] else .blocked, r)
  else (.data (r.bytes.take k), { r with bytes := r.bytes.drop k })

/-- The system call `read` for `size` bytes when the environment takes the turns `ts`. -/
def Reader.readTurns (r : Reader) (size : Nat) : List Turn → ReadResult × Reader
  | [] => { r with turns := [] }.deliver size
  | .go n :: ts => { r with turns := ts }.deliver (min size (n + 1))
  | .eintr :: ts =>
    (.eintr, { r with turns := ts, printFlag := sigusr1Handler SIGUSR1 r.printFlag })
  | .fail :: ts => (.error, { r with turns := ts })
  | .signal :: ts =>
    { r with printFlag := sigusr1Handler SIGUSR1 r.printFlag }.readTurns size ts

/-- The system call `read` for `size` bytes. -/
def Reader.read (r : Reader) (size : Nat) : ReadResult × Reader := r.readTurns size r.turns

/-- The system call `write`: the number of bytes taken, or `-1`. -/
def Writer.writeTurns (w : Writer) (buffer : Bytes) : List Turn → Int × Writer
  | [] => (buffer.length, { w with written := w.written ++ buffer, turns := [] })
  | .go n :: ts =>
    ((buffer.take (n + 1)).length,
      { w with written := w.written ++ buffer.take (n + 1), turns := ts })
  | .eintr :: ts => (-1, { w with turns := ts })
  | .fail :: ts => (-1, { w with turns := ts })
  | .signal :: ts => w.writeTurns buffer ts

def Writer.write (w : Writer) (buffer : Bytes) : Int × Writer := w.writeTurns buffer w.turns

/-- The conversion `(ssize_t) size`. -/
def ssize (size : UInt64) : Int :=
  if size.toNat < 2 ^ 63 then size.toNat else (size.toNat : Int) - 2 ^ 64

/-! ## `my_read` and `my_write` -/

/-- What a call of `my_read` gives: its return value (`none` if it waits for ever), the bytes it
    stored in the buffer, and the descriptor after it. -/
structure ReadDone where
  ret : Option Int
  stored : Bytes
  reader : Reader
  deriving DecidableEq, Repr

/-- The loop of `my_read`; `done` is what it has stored so far. Every round that does not
    leave the loop stores a byte, so `fuel` rounds are enough when `fuel` is the size. -/
def myReadLoop (new_size : Nat) : Nat → Reader → Bytes → ReadDone
  | 0, r, done => ⟨some done.length, done, r⟩
  | fuel + 1, r, done =>
    if done.length < new_size then
      match r.read (new_size - done.length) with
      | (.eintr, r') => ⟨some (-2), done, r'⟩
      | (.error, r') => ⟨some (-1), done, r'⟩
      | (.blocked, r') => ⟨none, done, r'⟩
      | (.data bs, r') =>
        if bs = [] then ⟨some done.length, done, r'⟩
        else myReadLoop new_size fuel r' (done ++ bs)
    else ⟨some done.length, done, r⟩

def myRead (r : Reader) (size : UInt64) : ReadDone :=
  let new_size := (ssize size).toNat
  myReadLoop new_size new_size r []

/-- The loop of `my_write`: what is left of the buffer, and how much is done. -/
def myWriteLoop : Nat → Writer → Bytes → Int → Int × Writer
  | 0, w, _, done => (done, w)
  | fuel + 1, w, buffer, done =>
    if buffer = [] then (done, w)
    else
      match w.write buffer with
      | (n, w') =>
        if n < 0 then (-1, w')
        else myWriteLoop fuel w' (buffer.drop n.toNat) (done + n)

def myWrite (w : Writer) (buffer : Bytes) : Int × Writer :=
  myWriteLoop buffer.length w buffer 0

/-! ### Descriptors without signals -/

/-- Turns without signals. -/
def Unsignalled (ts : List Turn) : Prop := .eintr ∉ ts ∧ .signal ∉ ts

theorem Unsignalled.suffix {ts ts' : List Turn} (h : Unsignalled ts) (hts : ts' <:+ ts) :
    Unsignalled ts' :=
  ⟨fun hm => h.1 (hts.mem hm), fun hm => h.2 (hts.mem hm)⟩

theorem Calm.suffix {ts ts' : List Turn} (h : Calm ts) (hts : ts' <:+ ts) : Calm ts' :=
  fun t ht => h t (hts.mem ht)

theorem Calm.unsignalled {ts : List Turn} (h : Calm ts) : Unsignalled ts := by
  refine ⟨fun hm => ?_, fun hm => ?_⟩
  · obtain ⟨n, hn⟩ := h _ hm
    cases hn
  · obtain ⟨n, hn⟩ := h _ hm
    cases hn

theorem Calm.not_fail {ts : List Turn} (h : Calm ts) : .fail ∉ ts := by
  intro hm
  obtain ⟨n, hn⟩ := h _ hm
  cases hn

/-- Without signals a read hands over between one byte and what it asked for, or it fails. -/
theorem Reader.read_unsignalled {r : Reader} (h : Unsignalled r.turns) {k : Nat} (hk : 0 < k) :
    ∃ ts, ts <:+ r.turns ∧
      ((∃ j, 0 < j ∧ j ≤ k ∧ r.read k = { r with turns := ts }.deliver j) ∨
        .fail ∈ r.turns ∧ r.read k = (.error, { r with turns := ts })) := by
  unfold Reader.read
  cases hts : r.turns with
  | nil => exact ⟨[], List.suffix_refl _, Or.inl ⟨k, hk, Nat.le_refl k, rfl⟩⟩
  | cons t ts =>
    refine ⟨ts, List.suffix_cons _ _, ?_⟩
    cases t with
    | go n => exact Or.inl ⟨min k (n + 1), by omega, Nat.min_le_left _ _, rfl⟩
    | fail => exact Or.inr ⟨List.mem_cons_self .., rfl⟩
    | eintr => exact absurd (hts ▸ List.mem_cons_self ..) h.1
    | signal => exact absurd (hts ▸ List.mem_cons_self ..) h.2

theorem myReadLoop_unsignalled (new_size : Nat) : ∀ (fuel : Nat) (r : Reader) (done : Bytes),
    Unsignalled r.turns → done.length ≤ new_size → new_size ≤ done.length + fuel →
    ∃ ts, ts <:+ r.turns ∧ (myReadLoop new_size fuel r done =
      ⟨if new_size ≤ done.length + r.bytes.length ∨ r.eof then
          some (min new_size (done.length + r.bytes.length) : Nat) else none,
        done ++ r.bytes.take (new_size - done.length),
        { r with bytes := r.bytes.drop (new_size - done.length), turns := ts }⟩ ∨
      .fail ∈ r.turns ∧ ∃ k, k ≤ new_size - done.length ∧ myReadLoop new_size fuel r done =
        ⟨some (-1), done ++ r.bytes.take k, { r with bytes := r.bytes.drop k, turns := ts }⟩)
  | 0, r, done, hc, hle, hfuel => by
      obtain rfl : new_size = done.length := by omega
      exact ⟨r.turns, List.suffix_refl _, Or.inl (by simp [myReadLoop])⟩
  | fuel + 1, r, done, hc, hle, hfuel => by
      by_cases hlt : done.length < new_size
      · obtain ⟨ts, hts, ⟨j, hj, hjk, hread⟩ | ⟨hfail, hread⟩⟩ := Reader.read_unsignalled hc
          (k := new_size - done.length) (by omega)
        · simp only [myReadLoop, if_pos hlt, hread, Reader.deliver]
          by_cases hb : r.bytes = []
          · refine ⟨ts, hts, Or.inl ?_⟩
            cases he : r.eof
            · simp [hb, Nat.not_le.mpr hlt]
            · simp [hb, Nat.min_eq_right hle]
          · have hpos : 0 < r.bytes.length := List.length_pos_iff.2 hb
            have hne : r.bytes.take j ≠ [] := by
              intro he
              have := congrArg List.length he
              rw [List.length_take, List.length_nil] at this
              omega
            have hlen : (done ++ r.bytes.take j).length = done.length + min j r.bytes.length := by
              simp
            obtain ⟨ts', hts', hrec⟩ := myReadLoop_unsignalled new_size fuel
              { r with bytes := r.bytes.drop j, turns := ts } (done ++ r.bytes.take j)
              (hc.suffix hts) (by omega) (by omega)
            refine ⟨ts', hts'.trans hts, ?_⟩
            obtain hrec | ⟨hfail, k, hk, hrec⟩ := hrec
            · have htot : done.length + min j r.bytes.length + (r.bytes.drop j).length =
                  done.length + r.bytes.length := by
                rw [List.length_drop]; omega
              have hsplit : r.bytes.take (new_size - done.length) =
                  r.bytes.take j ++ (r.bytes.drop j).take (new_size - done.length - j) := by
                rw [← List.take_add, Nat.add_sub_cancel' hjk]
              have htake : (r.bytes.drop j).take
                  (new_size - (done.length + min j r.bytes.length)) =
                  (r.bytes.drop j).take (new_size - done.length - j) := by
                rcases Nat.le_total j r.bytes.length with h | h
                · rw [Nat.min_eq_left h, Nat.sub_add_eq]
                · simp [List.drop_eq_nil_of_le h]
              have hdrop : (r.bytes.drop j).drop
                  (new_size - (done.length + min j r.bytes.length)) =
                  r.bytes.drop (new_size - done.length) := by
                rcases Nat.le_total j r.bytes.length with h | h
                · rw [Nat.min_eq_left h, List.drop_drop]; congr 1; omega
                · have h' : r.bytes.length ≤ new_size - done.length := Nat.le_trans h hjk
                  rw [List.drop_eq_nil_of_le h, List.drop_eq_nil_of_le h', List.drop_nil]
              refine Or.inl ?_
              simp only [hb, if_neg hne, if_false, hrec, hlen, htot, htake, hdrop]
              rw [hsplit, List.append_assoc]
            · refine Or.inr ⟨hts.mem hfail, min j r.bytes.length + k, by omega, ?_⟩
              simp only [hb, if_neg hne, if_false, hrec]
              rcases Nat.le_total j r.bytes.length with h | h
              · rw [Nat.min_eq_left h, List.append_assoc, ← List.take_add, List.drop_drop]
              · rw [Nat.min_eq_right h, List.drop_eq_nil_of_le h, List.take_nil, List.drop_nil,
                  List.append_nil, List.take_of_length_le h, List.take_of_length_le (by omega),
                  List.drop_eq_nil_of_le (by omega)]
        · refine ⟨ts, hts, Or.inr ⟨hfail, 0, Nat.zero_le _, ?_⟩⟩
          simp [myReadLoop, hlt, hread]
      · obtain rfl : new_size = done.length := by omega
        exact ⟨r.turns, List.suffix_refl _, Or.inl (by simp [myReadLoop])⟩

/-- Without signals `my_read` takes the next bytes of the stream, up to the size it was given, and
    returns their number, unless a call fails; it waits only when the stream neither has them nor
    ends. -/
theorem myRead_unsignalled {r : Reader} (h : Unsignalled r.turns) (size : UInt64) :
    ∃ ts, ts <:+ r.turns ∧ (myRead r size =
      ⟨if (ssize size).toNat ≤ r.bytes.length ∨ r.eof then
          some (min (ssize size).toNat r.bytes.length : Nat) else none,
        r.bytes.take (ssize size).toNat,
        { r with bytes := r.bytes.drop (ssize size).toNat, turns := ts }⟩ ∨
      .fail ∈ r.turns ∧ ∃ k, k ≤ (ssize size).toNat ∧ myRead r size =
        ⟨some (-1), r.bytes.take k, { r with bytes := r.bytes.drop k, turns := ts }⟩) := by
  obtain ⟨ts, hts, hrun⟩ := myReadLoop_unsignalled (ssize size).toNat (ssize size).toNat r [] h
    (by simp) (by simp)
  exact ⟨ts, hts, by simpa [myRead] using hrun⟩

/-! ### Calm descriptors -/

theorem ssize_of_lt {size : UInt64} (h : size.toNat < 2 ^ 63) : (ssize size).toNat = size.toNat := by
  rw [ssize, if_pos h, Int.toNat_natCast]

/-- Without signals and errors `my_read` takes the next bytes of the stream, up to the size it
    was given, and returns their number; it waits only when the stream neither has them nor
    ends. -/
theorem myRead_calm {r : Reader} (h : Calm r.turns) (size : UInt64) :
    ∃ ts, Calm ts ∧ (r.turns = [] → ts = []) ∧ myRead r size =
      ⟨if (ssize size).toNat ≤ r.bytes.length ∨ r.eof then
          some (min (ssize size).toNat r.bytes.length : Nat) else none,
        r.bytes.take (ssize size).toNat,
        { r with bytes := r.bytes.drop (ssize size).toNat, turns := ts }⟩ := by
  obtain ⟨ts, hts, hrun | ⟨hfail, -⟩⟩ := myRead_unsignalled h.unsignalled size
  · exact ⟨ts, h.suffix hts, fun hnil => List.suffix_nil.1 (hnil ▸ hts), hrun⟩
  · exact absurd hfail h.not_fail

theorem Writer.write_calm {w : Writer} (h : Calm w.turns) {buffer : Bytes} (hb : buffer ≠ []) :
    ∃ j ts, 0 < j ∧ j ≤ buffer.length ∧ Calm ts ∧ (w.turns = [] → ts = []) ∧
      w.write buffer = ((j : Int), { written := w.written ++ buffer.take j, turns := ts }) := by
  have hpos : 0 < buffer.length := List.length_pos_iff.2 hb
  unfold Writer.write
  cases hts : w.turns with
  | nil => exact ⟨buffer.length, [], hpos, Nat.le_refl _, calm_nil, fun _ => rfl,
      by simp [Writer.writeTurns]⟩
  | cons t ts =>
    obtain ⟨n, rfl⟩ := h t (by simp [hts])
    refine ⟨(buffer.take (n + 1)).length, ts, by simp; omega, by simp, (hts ▸ h).tail, by simp, ?_⟩
    simp [Writer.writeTurns]

theorem myWriteLoop_calm : ∀ (fuel : Nat) (w : Writer) (buffer : Bytes) (done : Int),
    Calm w.turns → buffer.length ≤ fuel →
    ∃ ts, Calm ts ∧ (w.turns = [] → ts = []) ∧ myWriteLoop fuel w buffer done =
      (done + buffer.length, { written := w.written ++ buffer, turns := ts })
  | 0, w, buffer, done, hc, hle => by
      obtain rfl : buffer = [] := List.eq_nil_of_length_eq_zero (by omega)
      exact ⟨w.turns, hc, id, by simp [myWriteLoop]⟩
  | fuel + 1, w, buffer, done, hc, hle => by
      by_cases hb : buffer = []
      · subst hb
        exact ⟨w.turns, hc, id, by simp [myWriteLoop]⟩
      · obtain ⟨j, ts, hj, hjl, hts, hnil, hw⟩ := Writer.write_calm hc hb
        obtain ⟨ts', hts', hnil', hrec⟩ := myWriteLoop_calm fuel
          { written := w.written ++ buffer.take j, turns := ts } (buffer.drop j) (done + j) hts
          (by simp; omega)
        refine ⟨ts', hts', fun h => hnil' (hnil h), ?_⟩
        have hnn : ¬ ((j : Int) < 0) := by omega
        simp only [myWriteLoop, if_neg hb, hw, if_neg hnn, Int.toNat_natCast, hrec,
          List.append_assoc, List.take_append_drop, List.length_drop]
        rw [Prod.mk.injEq]
        exact ⟨by omega, rfl⟩

/-- Without signals and errors `my_write` writes its whole buffer. -/
theorem myWrite_calm {w : Writer} (h : Calm w.turns) (buffer : Bytes) :
    ∃ ts, Calm ts ∧ (w.turns = [] → ts = []) ∧
      myWrite w buffer = ((buffer.length : Int), { written := w.written ++ buffer, turns := ts }) := by
  obtain ⟨ts, hts, hnil, hrun⟩ := myWriteLoop_calm buffer.length w buffer 0 h (Nat.le_refl _)
  exact ⟨ts, hts, hnil, by simpa [myWrite] using hrun⟩

/-! ### Streams that do not end -/

/-- How `my_read` of `size` bytes ends after `k` bytes of a stream that does not end, when `ts` are
    the turns to come: it waits, it has read everything, SIGUSR1 has interrupted it, or it has
    failed. -/
def ReadEnds (size k available : Nat) (ts : List Turn) (printFlag : Bool) : Option Int → Prop
  | none => k = available ∧ k < size
  | some ret => k = size ∧ ret = size ∨ k < size ∧ ret = -2 ∧ printFlag = true ∧ .eintr ∈ ts ∨
      ret = -1 ∧ .fail ∈ ts

/-- Without failing calls a read that returns is complete or has been interrupted. -/
theorem ReadEnds.complete_iff {size k available : Nat} {ts : List Turn} {flag : Bool} {ret : Int}
    (h : ReadEnds size k available ts flag (some ret)) (hfail : .fail ∉ ts) :
    k ≤ size ∧ ret ≠ -1 ∧ (ret ≠ -2 ↔ k = size) := by
  obtain ⟨rfl, rfl⟩ | ⟨hlt, rfl, -, -⟩ | ⟨-, hm⟩ := h
  · omega
  · omega
  · exact absurd hm hfail

/-- The flag changes only with a signal among the turns. -/
def FlagKept (ts : List Turn) (before after : Bool) : Prop :=
  after = before ∨ .signal ∈ ts ∨ .eintr ∈ ts

theorem FlagKept.trans {ts ts' : List Turn} {a b c : Bool} (hts : ts' <:+ ts)
    (h : FlagKept ts a b) (h' : FlagKept ts' b c) : FlagKept ts a c := by
  obtain rfl | h' := h'
  · exact h
  · exact Or.inr (h'.imp (fun hm => hts.mem hm) fun hm => hts.mem hm)

/-- One `read`: it delivers something, waits on an empty stream, is interrupted or fails. -/
theorem Reader.readTurns_open {size : Nat} (hsize : 0 < size) : ∀ (ts : List Turn) (r : Reader),
    r.eof = false → ∃ ts' flag, ts' <:+ ts ∧ FlagKept ts r.printFlag flag ∧
      ((∃ j, 0 < j ∧ j ≤ size ∧ j ≤ r.bytes.length ∧ r.readTurns size ts = (.data (r.bytes.take j),
          { r with bytes := r.bytes.drop j, turns := ts', printFlag := flag })) ∨
        r.bytes = [] ∧
          r.readTurns size ts = (.blocked, { r with turns := ts', printFlag := flag }) ∨
        flag = true ∧ .eintr ∈ ts ∧
          r.readTurns size ts = (.eintr, { r with turns := ts', printFlag := flag }) ∨
        .fail ∈ ts ∧
          r.readTurns size ts = (.error, { r with turns := ts', printFlag := flag }))
  | [], r, ho => by
      refine ⟨[], r.printFlag, List.suffix_refl _, Or.inl rfl, ?_⟩
      by_cases hb : r.bytes = []
      · exact Or.inr (Or.inl ⟨hb, by simp [readTurns, deliver, hb, ho]⟩)
      · have := List.length_pos_iff.2 hb
        refine Or.inl ⟨min size r.bytes.length, by omega, by omega, by omega, ?_⟩
        rcases Nat.le_total size r.bytes.length with h | h
        · simp [readTurns, deliver, hb, Nat.min_eq_left h]
        · simp [readTurns, deliver, hb, Nat.min_eq_right h, List.take_of_length_le h,
            List.drop_eq_nil_of_le h]
  | .go n :: ts, r, ho => by
      refine ⟨ts, r.printFlag, List.suffix_cons _ _, Or.inl rfl, ?_⟩
      by_cases hb : r.bytes = []
      · exact Or.inr (Or.inl ⟨hb, by simp [readTurns, deliver, hb, ho]⟩)
      · have := List.length_pos_iff.2 hb
        refine Or.inl ⟨min (min size (n + 1)) r.bytes.length, by omega, by omega, by omega, ?_⟩
        rcases Nat.le_total (min size (n + 1)) r.bytes.length with h | h
        · simp [readTurns, deliver, hb, Nat.min_eq_left h]
        · simp [readTurns, deliver, hb, Nat.min_eq_right h, List.take_of_length_le h,
            List.drop_eq_nil_of_le h]
  | .eintr :: ts, r, ho =>
      ⟨ts, true, List.suffix_cons _ _, Or.inr (Or.inr (List.mem_cons_self ..)),
        Or.inr (Or.inr (Or.inl ⟨rfl, List.mem_cons_self .., rfl⟩))⟩
  | .fail :: ts, r, ho =>
      ⟨ts, r.printFlag, List.suffix_cons _ _, Or.inl rfl,
        Or.inr (Or.inr (Or.inr ⟨List.mem_cons_self .., rfl⟩))⟩
  | .signal :: ts, r, ho => by
      obtain ⟨ts', flag, hts, -, hcases⟩ := readTurns_open hsize ts
        { r with printFlag := sigusr1Handler SIGUSR1 r.printFlag } ho
      refine ⟨ts', flag, hts.trans (List.suffix_cons _ _),
        Or.inr (Or.inl (List.mem_cons_self ..)), ?_⟩
      refine hcases.imp_right (Or.imp_right (Or.imp ?_ ?_))
      · exact fun ⟨hflag, hm, hrun⟩ => ⟨hflag, List.mem_cons_of_mem _ hm, hrun⟩
      · exact fun ⟨hm, hrun⟩ => ⟨List.mem_cons_of_mem _ hm, hrun⟩

theorem ReadEnds.mono {size k k' available available' : Nat} {ts ts' : List Turn} {flag : Bool}
    {ret : Option Int} (hts : ts' <:+ ts) (hk : k = k') (ha : available = available')
    (h : ReadEnds size k available ts' flag ret) : ReadEnds size k' available' ts flag ret := by
  subst hk ha
  cases ret with
  | none => exact h
  | some ret =>
    exact h.imp_right (Or.imp (fun ⟨hk, hr, hf, hm⟩ => ⟨hk, hr, hf, hts.mem hm⟩)
      fun ⟨hr, hm⟩ => ⟨hr, hts.mem hm⟩)

theorem myReadLoop_open (new_size : Nat) : ∀ (fuel : Nat) (r : Reader) (done : Bytes),
    r.eof = false → done.length ≤ new_size → new_size ≤ done.length + fuel →
    ∃ k ts flag ret, k ≤ r.bytes.length ∧ ts <:+ r.turns ∧ FlagKept r.turns r.printFlag flag ∧
      ReadEnds new_size (done.length + k) (done.length + r.bytes.length) r.turns flag ret ∧
      myReadLoop new_size fuel r done = ⟨ret, done ++ r.bytes.take k,
        { r with bytes := r.bytes.drop k, turns := ts, printFlag := flag }⟩
  | 0, r, done, ho, hle, hfuel =>
      ⟨0, r.turns, r.printFlag, some done.length, Nat.zero_le _, List.suffix_refl _, Or.inl rfl,
        Or.inl ⟨by omega, by rw [Nat.le_antisymm hle hfuel]⟩, by simp [myReadLoop]⟩
  | fuel + 1, r, done, ho, hle, hfuel => by
      by_cases hlt : done.length < new_size
      · obtain ⟨ts, flag, hts, hflag, hcases⟩ := Reader.readTurns_open
          (show 0 < new_size - done.length by omega) r.turns r ho
        have hread : ∀ {res}, r.readTurns (new_size - done.length) r.turns = res →
            r.read (new_size - done.length) = res := id
        obtain ⟨j, hj, hjk, hjr, hrun⟩ | ⟨hb, hrun⟩ | ⟨hf, hm, hrun⟩ | ⟨hm, hrun⟩ := hcases
        · have hne : r.bytes.take j ≠ [] := by
            intro he
            have := congrArg List.length he
            rw [List.length_take, List.length_nil] at this
            omega
          have hlen : (done ++ r.bytes.take j).length = done.length + j := by simp; omega
          obtain ⟨k, ts', flag', ret, hk, hts', hflag', hends, hrec⟩ := myReadLoop_open new_size fuel
            { r with bytes := r.bytes.drop j, turns := ts, printFlag := flag }
            (done ++ r.bytes.take j) ho (by omega) (by omega)
          simp only [List.length_drop] at hk
          refine ⟨j + k, ts', flag', ret, by omega, hts'.trans hts, hflag.trans hts hflag', ?_, ?_⟩
          · refine hends.mono hts (by omega) ?_
            simp only [hlen, List.length_drop]
            omega
          · simp only [myReadLoop, if_pos hlt, hread hrun, if_neg hne, hrec, List.drop_drop]
            rw [List.append_assoc, ← List.take_add]
        · refine ⟨0, ts, flag, none, Nat.zero_le _, hts, hflag, ⟨by simp [hb], by omega⟩, ?_⟩
          simp [myReadLoop, hlt, hread hrun]
        · refine ⟨0, ts, flag, some (-2), Nat.zero_le _, hts, hflag,
            Or.inr (Or.inl ⟨by omega, rfl, hf, hm⟩), ?_⟩
          simp [myReadLoop, hlt, hread hrun]
        · refine ⟨0, ts, flag, some (-1), Nat.zero_le _, hts, hflag, Or.inr (Or.inr ⟨rfl, hm⟩), ?_⟩
          simp [myReadLoop, hlt, hread hrun]
      · exact ⟨0, r.turns, r.printFlag, some done.length, Nat.zero_le _, List.suffix_refl _,
          Or.inl rfl, Or.inl ⟨by omega, by rw [Nat.le_antisymm hle (by omega)]⟩,
          by simp [myReadLoop, hlt]⟩

/-- What `my_read` gives on a stream that does not end, whatever the environment does. -/
theorem myRead_open {r : Reader} (ho : r.eof = false) {size : UInt64} {n : Nat}
    (hn : (ssize size).toNat = n) :
    ∃ k ts flag ret, k ≤ r.bytes.length ∧ ts <:+ r.turns ∧ FlagKept r.turns r.printFlag flag ∧
      ReadEnds n k r.bytes.length r.turns flag ret ∧ myRead r size = ⟨ret, r.bytes.take k,
        { r with bytes := r.bytes.drop k, turns := ts, printFlag := flag }⟩ := by
  obtain ⟨k, ts, flag, ret, hk, hts, hflag, hends, hrun⟩ :=
    myReadLoop_open n n r [] ho (by simp) (by simp)
  refine ⟨k, ts, flag, ret, hk, hts, hflag, by simpa using hends, ?_⟩
  rw [myRead, hn]
  simpa using hrun

/-! ## `print_str` and `print_uint` -/

/-- The writing loop of `print_str` and of `print_uint`: `1` at the first failing `write`, `0`
    when everything is written. -/
def printLoop : Nat → Writer → Bytes → Int32 × Writer
  | 0, w, _ => (0, w)
  | fuel + 1, w, str =>
    if str = [] then (0, w)
    else
      match w.write str with
      | (written, w') =>
        if written = -1 then (1, w') else printLoop fuel w' (str.drop written.toNat)

def printStr (w : Writer) (str : Bytes) : Int32 × Writer := printLoop str.length w str

/-- The digit loop of `print_uint`: `digits` is what stands in the buffer from index `i` on;
    `none` is a write below index 0. -/
def uintDigits : Nat → UInt32 → Bytes → Option Bytes
  | i, value, digits =>
    if value = 0 then some digits
    else match i with
      | 0 => none
      | i + 1 => uintDigits i (value / 10) (UInt8.ofNat (48 + (value % 10).toNat) :: digits)

/-- `print_uint`; `none` would be a write outside its 16-byte buffer. -/
def printUint (w : Writer) (value : UInt32) : Option (Int32 × Writer) :=
  (uintDigits 16 value []).map fun digits =>
    let digits := if digits = [] then [48] else digits
    printLoop digits.length w digits

/-- The canonical decimal digits of a number. -/
def decimal (value : UInt32) : Bytes :=
  if value = 0 then [48]
  else ((Nat.digits 10 value.toNat).map fun d => UInt8.ofNat (48 + d)).reverse

theorem printLoop_calm : ∀ (fuel : Nat) (w : Writer) (str : Bytes),
    Calm w.turns → str.length ≤ fuel →
    ∃ ts, Calm ts ∧ printLoop fuel w str = (0, { written := w.written ++ str, turns := ts })
  | 0, w, str, hc, hle => by
      obtain rfl : str = [] := List.eq_nil_of_length_eq_zero (by omega)
      exact ⟨w.turns, hc, by simp [printLoop]⟩
  | fuel + 1, w, str, hc, hle => by
      by_cases hb : str = []
      · subst hb
        exact ⟨w.turns, hc, by simp [printLoop]⟩
      · obtain ⟨j, ts, hj, hjl, hts, -, hw⟩ := Writer.write_calm hc hb
        obtain ⟨ts', hts', hrec⟩ := printLoop_calm fuel
          { written := w.written ++ str.take j, turns := ts } (str.drop j) hts (by simp; omega)
        have hnn : ¬ ((j : Int) = -1) := by omega
        refine ⟨ts', hts', ?_⟩
        simp only [printLoop, if_neg hb, hw, if_neg hnn, Int.toNat_natCast, hrec,
          List.append_assoc, List.take_append_drop]

theorem printStr_calm {w : Writer} (h : Calm w.turns) (str : Bytes) :
    ∃ ts, Calm ts ∧ printStr w str = (0, { written := w.written ++ str, turns := ts }) :=
  printLoop_calm str.length w str h (Nat.le_refl _)

/-- Enough room for the digits of a number below `10 ^ i` is `i` cells. -/
theorem uintDigits_eq : ∀ (i : Nat) (value : UInt32) (digits : Bytes), value.toNat < 10 ^ i →
    uintDigits i value digits =
      some (((Nat.digits 10 value.toNat).map fun d => UInt8.ofNat (48 + d)).reverse ++ digits)
  | 0, value, digits, h => by
      obtain rfl : value = 0 := UInt32.toNat_inj.1 (by simpa using h)
      simp [uintDigits]
  | i + 1, value, digits, h => by
      by_cases hv : value = 0
      · subst hv
        simp [uintDigits]
      · have hpos : 0 < value.toNat := Nat.pos_of_ne_zero fun h0 => hv (UInt32.toNat_inj.1 h0)
        have hdiv : (value / 10).toNat = value.toNat / 10 := by simp
        have hmod : (value % 10).toNat = value.toNat % 10 := by simp
        have hlt : (value / 10).toNat < 10 ^ i := by
          rw [hdiv, Nat.div_lt_iff_lt_mul (by decide)]
          rwa [pow_succ] at h
        rw [uintDigits, if_neg hv]
        simp only [uintDigits_eq i _ _ hlt, hdiv, hmod]
        rw [Nat.digits_def' (by decide) hpos]
        simp

/-- The buffer has room for every number, and `print_uint` prints its canonical decimal digits. -/
theorem printUint_eq (w : Writer) (value : UInt32) :
    printUint w value = some (printStr w (decimal value)) := by
  have hroom : value.toNat < 10 ^ 16 := Nat.lt_of_lt_of_le value.toNat_lt (by decide)
  have hdigits : (if ((Nat.digits 10 value.toNat).map fun d => UInt8.ofNat (48 + d)).reverse = []
      then [48] else ((Nat.digits 10 value.toNat).map fun d => UInt8.ofNat (48 + d)).reverse) =
      decimal value := by
    unfold decimal
    by_cases hv : value = 0
    · simp [hv]
    · have h0 : value.toNat ≠ 0 := fun h0 => hv (UInt32.toNat_inj.1 h0)
      simp [hv, Nat.digits_eq_nil_iff_eq_zero, h0]
  rw [printUint, uintDigits_eq 16 value [] hroom, Option.map_some, List.append_nil]
  simp only [hdigits]
  rfl

/-- Without signals and errors `print_uint` writes the canonical decimal digits. -/
theorem printUint_calm {w : Writer} (h : Calm w.turns) (value : UInt32) :
    ∃ ts, Calm ts ∧
      printUint w value = some (0, { written := w.written ++ decimal value, turns := ts }) := by
  obtain ⟨ts, hts, hrun⟩ := printStr_calm h (decimal value)
  exact ⟨ts, hts, by rw [printUint_eq, hrun]⟩

end EventServer
