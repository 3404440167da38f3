import EventServer.Common.Scan

/-
  `client/parser.c`: commands read from the job file.

  `getNext` reads a keyword with a fixed number of bytes and a single comparison. What comes after
  the keyword is read field by field, and every field that is not as expected ends the command with
  `cleanup`, which skips to the next newline. A `Format` is such a sequence of fields, each with what
  comes after it; the four parsers are formats, and `Format.run` reads one from the file.
-/

namespace EventServer.Client

open Lib

inductive Command where
  | cmdCreate
  | cmdReserve
  | cmdShow
  | cmdListEvents
  | cmdWait
  | cmdHelp
  | cmdEmpty
  | cmdInvalid
  | eoc
  deriving DecidableEq, Repr

/-- What is left of the file after the next newline. -/
def skipLine : Bytes → Bytes
  | [] => []
  | ch :: rest => if ch = 10 then rest else skipLine rest

def cleanup : Scan Unit := modify skipLine

/-- `cleanup(fd); return a;` -/
def rejectWith {α : Type} (a : α) : Scan α := do
  cleanup
  return a

/-! ## Keywords -/

/-- A keyword with operands, of which the first letter has been read. -/
def keyword (word : Bytes) (cmd : Command) : Scan Command := do
  if (← readFile word.length) ≠ word then rejectWith .cmdInvalid else return cmd

/-- The line has to end after the keyword. -/
def lineEnd (cmd : Command) : Scan Command := do
  match ← readFile 1 with
  | [] => return cmd
  | ch :: _ => if ch ≠ 10 then rejectWith .cmdInvalid else return cmd

/-- A keyword that is a whole line. -/
def keywordLine (word : Bytes) (cmd : Command) : Scan Command := do
  if (← readFile word.length) ≠ word then rejectWith .cmdInvalid else lineEnd cmd

def getNext : Scan Command := do
  match ← readFile 1 with
  | [] => return .eoc
  | ch :: _ =>
    if ch = 'C'.toUInt8 then keyword (ascii "REATE ") .cmdCreate
    else if ch = 'R'.toUInt8 then keyword (ascii "ESERVE ") .cmdReserve
    else if ch = 'S'.toUInt8 then keyword (ascii "HOW ") .cmdShow
    else if ch = 'L'.toUInt8 then keywordLine (ascii "IST") .cmdListEvents
    else if ch = 'W'.toUInt8 then keyword (ascii "AIT ") .cmdWait
    else if ch = 'H'.toUInt8 then keywordLine (ascii "ELP") .cmdHelp
    else if ch = '#'.toUInt8 then rejectWith .cmdEmpty
    else if ch = 10 then return .cmdEmpty
    else rejectWith .cmdInvalid

/-! ## Operands -/

/-- What a parser reads, field by field, and returns. -/
inductive Format (α : Type) where
  | done (a : α)
  /-- `cleanup(fd); return a;` -/
  | reject (a : α)
  /-- A number that one of `ends` has to end. `failed` is given what `parse_uint` stored, `next` the
      number and the byte that ended it. -/
  | uint (ends : Bytes) (failed : Option UInt32 → α) (next : UInt32 → UInt8 → Format α)
  /-- One of the bytes `ok`. -/
  | char (ok : Bytes) (failed : α) (next : UInt8 → Format α)

def Format.run {α : Type} (stack : Stack) : Format α → Scan α
  | .done a => return a
  | .reject a => rejectWith a
  | .uint ends failed next => do
    match ← parseUint stack with
    | (none, _) => rejectWith (failed none)
    | (some v, ch) => if ch ∈ ends then (next v ch).run stack else rejectWith (failed (some v))
  | .char ok failed next => do
    match ← readFile 1 with
    | [] => rejectWith failed
    | ch :: _ => if ch ∈ ok then (next ch).run stack else rejectWith failed

/-- The same, with `num` for `parse_uint`. -/
def Format.runWith {α : Type} (num : Scan (Option UInt32 × UInt8)) : Format α → Scan α
  | .done a => return a
  | .reject a => rejectWith a
  | .uint ends failed next => do
    match ← num with
    | (none, _) => rejectWith (failed none)
    | (some v, ch) => if ch ∈ ends then (next v ch).runWith num else rejectWith (failed (some v))
  | .char ok failed next => do
    match ← readFile 1 with
    | [] => rejectWith failed
    | ch :: _ => if ch ∈ ok then (next ch).runWith num else rejectWith failed

theorem Format.runWith_eq {α : Type} (stack : Stack) (f : Format α) :
    f.runWith (parseUint stack) = f.run stack := by
  induction f with
  | done a => rfl
  | reject a => rfl
  | uint ends failed next ih => simp only [runWith, run, ih]
  | char ok failed next ih => simp only [runWith, run, ih]

/-- The bytes that end a command; `parse_uint` reports the end of the file as NUL. -/
def lineEnds : Bytes := ascii "\n\x00"

/-- `parse_create`: the id of the event, its rows and its columns; `none` for the return code 1. -/
def parseCreate : Format (Option (UInt32 × UInt64 × UInt64)) :=
  .uint (ascii " ") (fun _ => none) fun event_id _ =>
  .uint (ascii " ") (fun _ => none) fun u_num_rows _ =>
  .uint lineEnds (fun _ => none) fun u_num_cols _ =>
  .done (some (event_id, u_num_rows.toUInt64, u_num_cols.toUInt64))

/-- What `parse_reserve` has stored. -/
structure Reservation where
  event_id : Option UInt32
  xs : List UInt64 := []
  ys : List UInt64 := []
  deriving DecidableEq, Repr

/-- The loop of `parse_reserve` when `room` more coordinates fit in the arrays. -/
def reserveLoop : Nat → Reservation → Format (Nat × Reservation)
  | 0, r => .reject (0, r)
  | room + 1, r =>
    .char (ascii "(") (0, r) fun _ =>
    .uint (ascii ",") (fun _ => (0, r)) fun x _ =>
    let rx := { r with xs := r.xs ++ [x.toUInt64] }
    .uint (ascii ")") (fun _ => (0, rx)) fun y _ =>
    let rxy := { rx with ys := r.ys ++ [y.toUInt64] }
    .char (ascii " ]") (0, rxy) fun ch =>
    if ch = ']'.toUInt8 then
      if room = 0 then .reject (0, rxy)
      else .char lineEnds (0, rxy) fun _ => .done (rxy.xs.length, rxy)
    else reserveLoop room rxy

/-- `parse_reserve`: the number of coordinates, 0 on failure, and what has been stored. -/
def parseReserve (max : Nat) : Format (Nat × Reservation) :=
  .uint (ascii " ") (fun event_id => (0, { event_id })) fun event_id _ =>
  .char (ascii "[") (0, { event_id := some event_id }) fun _ =>
  reserveLoop max { event_id := some event_id }

/-- `parse_show`: the id of the event; `none` for the return code 1. -/
def parseShow : Format (Option UInt32) :=
  .uint lineEnds (fun _ => none) fun event_id _ => .done (some event_id)

/-- `parse_wait`, given whether there is a `thread_id` to store to: the return code, and what has
    been stored for the delay and for the thread. -/
def parseWait (thread_id : Bool) : Format (Int32 × Option UInt32 × Option UInt32) :=
  .uint (ascii " \n\x00") (fun delay => (-1, delay, none)) fun delay ch =>
  if ch = ' '.toUInt8 then
    if thread_id then
      .uint lineEnds (fun id => (-1, some delay, id)) fun id _ => .done (1, some delay, some id)
    else .reject (0, some delay, none)
  else .done (0, some delay, none)

theorem mem_lineEnds {ch : UInt8} : ch ∈ lineEnds ↔ ch = 10 ∨ ch = 0 := List.mem_pair

theorem isDigit_of_mem_lineEnds {ch : UInt8} (h : ch ∈ lineEnds) : isDigit ch = false := by
  obtain rfl | rfl := mem_lineEnds.1 h <;> rfl

/-! ## What is left of the file -/

@[simp] theorem run_cleanup (bs : Bytes) : cleanup.run bs = .ok ((), skipLine bs) := rfl

@[simp] theorem run_rejectWith {α : Type} (a : α) (bs : Bytes) :
    (rejectWith a).run bs = .ok (a, skipLine bs) := rfl

@[simp] theorem skipLine_nil : skipLine [] = [] := rfl

theorem skipLine_line {content : Bytes} (h : 10 ∉ content) (rest : Bytes) :
    skipLine (content ++ 10 :: rest) = rest := by
  induction content with
  | nil => rfl
  | cons ch content ih =>
    rw [List.mem_cons, not_or] at h
    rw [List.cons_append, skipLine, if_neg fun hch => h.1 hch.symm, ih h.2]

theorem skipLine_of_not_mem {bs : Bytes} (h : 10 ∉ bs) : skipLine bs = [] := by
  induction bs with
  | nil => rfl
  | cons ch bs ih =>
    rw [List.mem_cons, not_or] at h
    rw [skipLine, if_neg fun hch => h.1 hch.symm, ih h.2]

/-- Nothing is put back. -/
theorem skipLine_suffix (bs : Bytes) : skipLine bs <:+ bs := by
  induction bs with
  | nil => exact List.suffix_refl _
  | cons ch bs ih =>
    rw [skipLine]
    split
    · exact List.suffix_cons ch bs
    · exact ih.trans (List.suffix_cons ch bs)

namespace Format

variable {α : Type} {num : Scan (Option UInt32 × UInt8)} {stack : Stack} {ends ok : Bytes}
  {failed : Option UInt32 → α} {a : α} {next : UInt32 → UInt8 → Format α}
  {nextChar : UInt8 → Format α}

theorem runWith_uint (bs : Bytes) :
    ((uint ends failed next).runWith num).run bs =
      match num.run bs with
      | .error e => .error e
      | .ok ((none, _), rest) => .ok (failed none, skipLine rest)
      | .ok ((some v, ch), rest) =>
        if ch ∈ ends then ((next v ch).runWith num).run rest
        else .ok (failed (some v), skipLine rest) := by
  rw [Format.runWith, StateT.run_bind]
  rcases num.run bs with e | ⟨⟨_ | v, ch⟩, rest⟩
  · rfl
  · rfl
  · exact apply_ite (fun x : Scan α => x.run rest) (ch ∈ ends) _ _

theorem runWith_char_cons (ch : UInt8) (rest : Bytes) :
    ((char ok a nextChar).runWith num).run (ch :: rest) =
      if ch ∈ ok then ((nextChar ch).runWith num).run rest else .ok (a, skipLine rest) := by
  rw [Format.runWith]
  exact apply_ite (fun x : Scan α => x.run rest) (ch ∈ ok) _ _

theorem runWith_char_nil : ((char ok a nextChar).runWith num).run [] = .ok (a, []) := by
  rw [Format.runWith]
  rfl

theorem run_uint (bs : Bytes) :
    ((uint ends failed next).run stack).run bs =
      match (parseUint stack).run bs with
      | .error e => .error e
      | .ok ((none, _), rest) => .ok (failed none, skipLine rest)
      | .ok ((some v, ch), rest) =>
        if ch ∈ ends then ((next v ch).run stack).run rest
        else .ok (failed (some v), skipLine rest) := by
  simp only [← runWith_eq]
  exact runWith_uint bs

theorem run_char_cons (ch : UInt8) (rest : Bytes) :
    ((char ok a nextChar).run stack).run (ch :: rest) =
      if ch ∈ ok then ((nextChar ch).run stack).run rest else .ok (a, skipLine rest) := by
  rw [← runWith_eq, ← runWith_eq]
  exact runWith_char_cons ch rest

theorem run_char_nil : ((char ok a nextChar).run stack).run [] = .ok (a, []) := by
  rw [← runWith_eq]
  exact runWith_char_nil

end Format

end EventServer.Client
