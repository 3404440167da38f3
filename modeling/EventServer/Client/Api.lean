import EventServer.Common.Io
import EventServer.Lib.Wp

/-
  `client/api.c`: the calls of a session.

  A call writes its request field by field, and reads the response field by field into variables
  that hold anything before. `Process σ` is the client's side of a session, and `σ` whatever is at
  the other end of its pipes; `respond` is what happens there before the response is read, so a
  call is one piece as in the source. Every field is sent or read with what comes after it as
  the last argument, since each of them can end the call.
-/

namespace EventServer.Client

open Lib

/-- The variables that responses are read into. -/
structure Locals where
  result : Buffer 4
  num_rows : Buffer 8
  num_cols : Buffer 8
  seat : Buffer 4
  num_events : Buffer 8
  event_id : Buffer 4
  deriving DecidableEq, Repr

/-- Which calls of `open` and `close` on the two pipes succeed. -/
structure Pipes where
  openRequest : Bool := true
  openResponse : Bool := true
  closeRequest : Bool := true
  closeResponse : Bool := true
  deriving DecidableEq, Repr

/-- A client in a session: the id of its session, what it has written to the request pipe, what
    comes on the response pipe, its output file, the errors it has printed, and the other end of
    the pipes. -/
structure Process (σ : Type) where
  session_id : Int32
  request_pipe : Writer := {}
  response_pipe : Reader
  out : Writer := {}
  locals : Locals
  errors : List String := []
  server : σ

abbrev Api (σ : Type) := StateT (Process σ) (Except Stop)

namespace Api

variable {σ : Type}

/-! ## Fields -/

def printError (msg : String) : Api σ Unit := modify fun s => { s with errors := s.errors ++ [msg] }

/-- `print_error(msg); return 1;` -/
def fail (msg : String) : Api σ Int32 := do
  printError msg
  return 1

/-- `my_write` of a field to the request pipe. -/
def writeOr (msg : String) (buffer : Bytes) (next : Api σ Int32) : Api σ Int32 := do
  let s ← get
  let (n, request_pipe) := myWrite s.request_pipe buffer
  set { s with request_pipe }
  if n = -1 then fail msg else next

def writeSessionIdOr (next : Api σ Int32) : Api σ Int32 := do
  writeOr "Failed to write session_id.\n" (intBytes (← get).session_id) next

/-- `my_write` of an array to the request pipe: `size` bytes from its start. -/
def writeArrayOr (msg : String) (ns : List UInt64) (size : UInt64) (next : Api σ Int32) :
    Api σ Int32 :=
  if (ssize size).toNat ≤ (sizesBytes ns).length then
    writeOr msg ((sizesBytes ns).take (ssize size).toNat) next
  else throw .outOfBounds

/-- `my_read` of a variable from the response pipe; `next` is given what it holds then. Only the
    result -1 ends the call. -/
def readOr {n : Nat} (msg : String) (var : Locals → Buffer n) (put : Locals → Buffer n → Locals)
    (next : Bytes → Api σ Int32) : Api σ Int32 := do
  let s ← get
  let done := myRead s.response_pipe (UInt64.ofNat n)
  let b := (var s.locals).overwrite done.stored
  set { s with response_pipe := done.reader, locals := put s.locals b }
  match done.ret with
  | none => throw .blocked
  | some ret => if ret = -1 then fail msg else next b.bytes

/-- `print_str` to the output file. -/
def printStr (str : String) : Api σ Int32 := do
  let s ← get
  let (ret, out) := EventServer.printStr s.out (ascii str)
  set { s with out }
  return ret

/-- `print_uint` to the output file. -/
def printUint (value : UInt32) : Api σ Int32 := do
  let s ← get
  match EventServer.printUint s.out value with
  | none => throw .outOfBounds
  | some (ret, out) =>
    set { s with out }
    return ret

/-- `my_write` of a newline to the output file. -/
def writeNewlineOr (next : Api σ Int32) : Api σ Int32 := do
  let s ← get
  let (n, out) := myWrite s.out (ascii "\n")
  set { s with out }
  if n = -1 then fail "Failed to write newline.\n" else next

/-! ## Beginning and end of a call -/

section

variable (pipes : Pipes) (respond : Api σ Unit)

/-- Open the request pipe and send the two fields that every request starts with. -/
def request (unopened : Api σ Unit) (op_code : UInt8) (next : Api σ Int32) : Api σ Int32 := do
  if !pipes.openRequest then
    unopened
    return 1
  else
    writeOr "Failed to write op_code.\n" [op_code] <|
    writeSessionIdOr next

/-- Open the response pipe and read the field that every response starts with. -/
def response (unopened : Api σ Unit) (refused : String) (next : Int32 → Api σ Int32) :
    Api σ Int32 := do
  respond
  if !pipes.openResponse then
    unopened
    return 1
  else
    readOr "Failed to read result.\n" Locals.result (fun v b => { v with result := b }) fun result =>
      if toInt result = 1 then fail refused else next (toInt result)

/-- Close the pipes and return the result. -/
def close (result : Int32) : Api σ Int32 :=
  if !pipes.closeRequest then fail "Failed to close request pipe.\n"
  else if !pipes.closeResponse then fail "Failed to close response pipe.\n"
  else return result

/-! ## The calls -/

/-- Sends a create request. -/
def emsCreate (event_id : UInt32) (num_rows num_cols : UInt64) : Api σ Int32 :=
  request pipes (return ()) 3 <|
  writeOr "Failed to write event_id.\n" (uintBytes event_id) <|
  writeOr "Failed to write num_rows.\n" (sizeBytes num_rows) <|
  writeOr "Failed to write num_cols.\n" (sizeBytes num_cols) <|
  response pipes respond (return ()) "Server couldn't create." <|
  close pipes

/-- Sends a reserve request. -/
def emsReserve (event_id : UInt32) (num_seats : UInt64) (xs ys : List UInt64) : Api σ Int32 :=
  request pipes (return ()) 4 <|
  writeOr "Failed to write event_id.\n" (uintBytes event_id) <|
  writeOr "Failed to write num_seats.\n" (sizeBytes num_seats) <|
  writeArrayOr "Failed to write xs.\n" xs (num_seats * 8) <|
  writeArrayOr "Failed to write ys.\n" ys (num_seats * 8) <|
  response pipes respond (return ()) "Server couldn't reserve." <|
  close pipes

/-- The inner loop of `ems_show`: `n` seats from column `j` on. -/
def showRow (num_cols : UInt64) (next : Api σ Int32) : Nat → UInt64 → Api σ Int32
  | 0, _ => next
  | n + 1, j =>
    readOr "Failed to read seat.\n" Locals.seat (fun v b => { v with seat := b }) fun seat => do
      if (← printUint (toUInt seat)) ≠ 0 then fail "Failed to print seat.\n"
      else if j < num_cols then
        if (← printStr " ") ≠ 0 then fail "Error writing to file descriptor"
        else showRow num_cols next n (j + 1)
      else showRow num_cols next n (j + 1)

/-- The outer loop of `ems_show`: `n` rows. -/
def showRows (num_cols : UInt64) (next : Api σ Int32) : Nat → Api σ Int32
  | 0 => next
  | n + 1 => showRow num_cols (writeNewlineOr (showRows num_cols next n)) num_cols.toNat 0

/-- Sends a show request and prints the seats of the event. -/
def emsShow (event_id : Int32) : Api σ Int32 :=
  request pipes (return ()) 5 <|
  writeOr "Failed to write event_id.\n" (intBytes event_id) <|
  response pipes respond (return ()) "Server couldn't show." fun result =>
  readOr "Failed to read num_rows.\n" Locals.num_rows (fun v b => { v with num_rows := b })
    fun num_rows =>
  readOr "Failed to read num_cols.\n" Locals.num_cols (fun v b => { v with num_cols := b })
    fun num_cols =>
  showRows (toSize num_cols) (close pipes result) (toSize num_rows).toNat

/-- The loop of `ems_list_events`: `n` events from the `i`th on. -/
def listLoop (num_events : UInt64) (next : Api σ Int32) : Nat → UInt64 → Api σ Int32
  | 0, _ => next
  | n + 1, i =>
    readOr "Failed to read event_id.\n" Locals.event_id (fun v b => { v with event_id := b })
      fun event_id => do
      if (← printStr "Event: ") = -1 then return 1
      else if (← printUint (toUInt event_id)) = -1 then return 1
      -- a newline after each event, except for the last one
      else if i < num_events - 1 then writeNewlineOr (listLoop num_events next n (i + 1))
      else listLoop num_events next n (i + 1)

/-- Sends a list request and prints the ids of the events. -/
def emsListEvents : Api σ Int32 :=
  request pipes (printError "Failed to open request pipe.\n") 6 <|
  response pipes respond (printError "Failed to open response pipe.\n")
    "Server couldn't list events." fun result =>
  if result = 2 then do
    let _ ← printStr "No events\n"
    return 1
  else
    readOr "Failed to read num_events.\n" Locals.num_events (fun v b => { v with num_events := b })
      fun num_events =>
    listLoop (toSize num_events) (writeNewlineOr (close pipes result)) (toSize num_events).toNat 0

end

end Api

end EventServer.Client
