import EventServer.Server.Operations

/-
  `handle_client` of `server/main.c`: one session.

  A session reads requests field by field into local variables that live as long as the loop:
  `readInto` overwrites as many bytes of a variable as `my_read` delivered and leaves the rest,
  so an operand can be new, old or half of each. The operations run on the `Service` part of
  the session (store, response pipe), which records the calls that are made. `handleNext` is one
  round of the loop, its condition included.
  The session keeps the pipes that it has open, and counts its calls of `free`: the argument that
  it frees is the address of a local variable of its caller. `checked` makes undefined behaviour
  of them.
-/

namespace EventServer

open Lib

def MAX_RESERVATION_SIZE : Nat := 256

/-! ## Local variables -/

/-- The variables of `handle_client` that requests are read into; `session_id` is the field of
    the thread's argument. -/
structure Locals where
  session_id : Buffer 4
  event_id : Buffer 4
  num_rows : Buffer 8
  num_cols : Buffer 8
  num_seats : Buffer 8
  xs : Buffer (8 * MAX_RESERVATION_SIZE)
  ys : Buffer (8 * MAX_RESERVATION_SIZE)
  deriving DecidableEq, Repr

/-! ## Running the operations -/

/-- The store and the response pipe, with the outcomes of the locks and allocations of the calls
    to come (`{}` when the list ends), and the calls made so far, with what they read and what
    they returned. -/
structure Service where
  world : World
  envs : List Env := []
  calls : List Call := []
  results : List Int32 := []
  deriving DecidableEq, Repr

abbrev Serve := StateT Service (Except Stop)

namespace Serve

/-- Run an operation on the store. -/
def lift {α : Type} (x : Op α) : Serve α := fun s =>
  match x.run s.world with
  | .ok (a, w) => .ok (a, { s with world := w })
  | .error e => .error e

/-- Make a call. -/
def execute (c : Call) : Serve Int32 := do
  let s ← get
  set { s with envs := s.envs.tail, calls := s.calls ++ [c.cut] }
  let ret ← lift (c.op (s.envs.headD {}))
  modify fun s => { s with results := s.results ++ [ret] }
  return ret

/-- Send the result of a call. -/
def respondResult (result : Int32) : Serve Unit := do
  if !(← lift (write (intBytes result))) then lift (Op.printError "Error writing to named pipe.\n")

/-- Make a call and send its result. -/
def answer (c : Call) : Serve Unit := do respondResult (← execute c)

/-- Serve a request; `none` is an op code that no request has. `ems_show` and
    `ems_list_events` send their reply themselves. -/
def perform : Option Call → Serve Unit
  | some (.emsCreate event_id num_rows num_cols) => answer (.emsCreate event_id num_rows num_cols)
  | some (.emsReserve event_id args) => answer (.emsReserve event_id args)
  | some (.emsShow event_id) => discard (execute (.emsShow event_id))
  | some .emsListEvents => discard (execute .emsListEvents)
  | none => lift (Op.printError "Unknown operation code.\n")

end Serve

/-! ## The session -/

/-- The pipes of a session. -/
inductive Pipe where
  | server
  | request
  | response
  deriving DecidableEq, Repr

/-- The state of `handle_client`: `removed` are the calls of `remove_session`, `frees` the calls
    of `free` on the thread's argument, which is not a heap block, and `descriptors` the pipes
    that it has opened and not closed. -/
structure Session where
  service : Service
  request_pipe : Reader
  locals : Locals
  removed : List Int32 := []
  frees : Nat := 0
  descriptors : List Pipe := []
  deriving DecidableEq, Repr

abbrev Handler := StateT Session (Except Stop)

/-- How `handle_client` ends: it returns, or the thread exits. -/
inductive Ending where
  | returned
  | exited
  deriving DecidableEq, Repr

namespace Handler

def onService {α : Type} (x : Serve α) : Handler α := fun s =>
  match x.run s.service with
  | .ok (a, service) => .ok (a, { s with service })
  | .error e => .error e

def printError (msg : String) : Handler Unit := onService (Serve.lift (Op.printError msg))

/-- `open` of a pipe, which succeeds or returns -1. -/
def openPipe (pipe : Pipe) (succeeds : Bool) : Handler Bool := do
  if succeeds then modify fun s => { s with descriptors := s.descriptors ++ [pipe] }
  return succeeds

/-- `close` of a pipe. -/
def closePipe (pipe : Pipe) : Handler Unit :=
  modify fun s => { s with descriptors := s.descriptors.erase pipe }

/-- `free(thread_args)`. -/
def freeArgs : Handler Unit := modify fun s => { s with frees := s.frees + 1 }

/-- To free an address that `malloc` has not returned is undefined behaviour. -/
def checked {α : Type} (x : Handler α) : Handler α := fun s =>
  match x.run s with
  | .ok (a, s') => if s'.frees = s.frees then .ok (a, s') else .error .invalidFree
  | .error e => .error e

/-- `my_read` on the request pipe into a variable; storing more than it holds is a fault. -/
def readInto {n : Nat} (var : Locals → Buffer n) (put : Locals → Buffer n → Locals)
    (size : UInt64) : Handler Int := do
  let s ← get
  let done := myRead s.request_pipe size
  if done.stored.length > n then throw .outOfBounds
  else
    set { s with
      request_pipe := done.reader
      locals := put s.locals ((var s.locals).overwrite done.stored) }
    match done.ret with
    | none => throw .blocked
    | some ret => return ret

def readSessionId : Handler Int :=
  readInto Locals.session_id (fun v b => { v with session_id := b }) 4

def readEventId : Handler Int :=
  readInto Locals.event_id (fun v b => { v with event_id := b }) 4

def readNumRows : Handler Int :=
  readInto Locals.num_rows (fun v b => { v with num_rows := b }) 8

def readNumCols : Handler Int :=
  readInto Locals.num_cols (fun v b => { v with num_cols := b }) 8

def readNumSeats : Handler Int :=
  readInto Locals.num_seats (fun v b => { v with num_seats := b }) 8

/-- `num_seats * sizeof(size_t)`. -/
def seatsSize (v : Locals) : UInt64 := toSize v.num_seats.bytes * 8

def readXs : Handler Int := do
  readInto Locals.xs (fun v b => { v with xs := b }) (seatsSize (← get).locals)

def readYs : Handler Int := do
  readInto Locals.ys (fun v b => { v with ys := b }) (seatsSize (← get).locals)

/-- Read a field and go on with `next`; only the result -1 ends the request, with an answer. -/
def readOr (msg : String) (read : Handler Int) (next : Handler Unit) : Handler Unit := do
  if (← read) = -1 then
    printError msg
    onService (Serve.respondResult 1)
  else next

end Handler

open Handler

/-- The call that an op code asks for, with the operands as the variables hold them. -/
def Locals.call (v : Locals) (op_code : UInt8) : Option Call :=
  match op_code with
  | 3 => some (.emsCreate (toUInt v.event_id.bytes) (toSize v.num_rows.bytes)
      (toSize v.num_cols.bytes))
  | 4 => some (.emsReserve (toUInt v.event_id.bytes) ⟨toSize v.num_seats.bytes,
      toSizes MAX_RESERVATION_SIZE v.xs.bytes, toSizes MAX_RESERVATION_SIZE v.ys.bytes⟩)
  | 5 => some (.emsShow (toUInt v.event_id.bytes))
  | 6 => some .emsListEvents
  | _ => none

/-- Serve the request whose operands have been read. -/
def serve (op_code : UInt8) : Handler Unit := do
  onService (Serve.perform ((← get).locals.call op_code))

/-- Case 2, `ems_quit`. -/
def handleQuit : Handler Ending := do
  if (← readSessionId) = -1 then printError "Error reading from named pipe.\n"
  closePipe .request
  closePipe .response
  closePipe .server
  modify fun s => { s with removed := s.removed ++ [toInt s.locals.session_id.bytes] }
  freeArgs
  return .exited

/-- The cases of the switch on the op code, but for `ems_quit`. -/
def handleOp (op_code : UInt8) : Handler Unit :=
  match op_code with
  | 3 =>
    readOr "Error reading from named pipe.\n" readSessionId <|
    readOr "Error reading from named pipe.\n" readEventId <|
    readOr "4Error reading from named pipe.\n" readNumRows <|
    readOr "Error reading from named pipe.\n" readNumCols <|
    serve 3
  | 4 =>
    readOr "Error reading from named pipe.\n" readSessionId <|
    readOr "Error reading from named pipe.\n" readEventId <|
    readOr "Error reading from named pipe.\n" readNumSeats <|
    readOr "Error reading from named pipe.\n" readXs <|
    readOr "Error reading from named pipe.\n" readYs <|
    serve 4
  | 5 =>
    readOr "Error reading from named pipe.\n" readSessionId <|
    readOr "Error reading from named pipe.\n" readEventId <|
    serve 5
  | 6 =>
    readOr "Error reading from named pipe.\n" readSessionId <|
    serve 6
  | op_code => serve op_code

/-- The condition of the loop: the op code, unless the loop ends. -/
def nextOpCode : Handler (Option UInt8) := do
  let s ← get
  let done := myRead s.request_pipe 1
  set { s with request_pipe := done.reader }
  match done.ret with
  | none => throw .blocked
  | some ret =>
    let op_code := done.stored.headD 0
    return if ret > 0 ∧ op_code ≠ 2 then some op_code else none

/-- One round of the loop; `none` means that it goes on. -/
def handleNext : Handler (Option Ending) := do
  match ← nextOpCode with
  | none => return some .returned
  | some op_code =>
    if op_code = 2 then return some (← handleQuit)
    else
      handleOp op_code
      return none

/-- The loop. Every round that goes on takes a byte from the request pipe. -/
def handleLoop : Nat → Handler Ending
  | 0 => throw .diverges
  | fuel + 1 => do
    match ← handleNext with
    | some ending => return ending
    | none => handleLoop fuel

/-- Which of the three pipes of a session can be opened. -/
structure Opens where
  server : Bool := true
  request : Bool := true
  response : Bool := true
  deriving DecidableEq, Repr

/-- `free(thread_args); pthread_exit(NULL);` -/
def freeAndExit (msg : String) : Handler Ending := do
  printError msg
  freeArgs
  return .exited

/-- What `handle_client` does before its loop; `none` means that it goes on to the loop. -/
def openSession (opens : Opens) : Handler (Option Ending) := do
  if !(← openPipe .server opens.server) then
    return some (← freeAndExit "Error opening server pipe.\n")
  else if !(← openPipe .request opens.request) then
    return some (← freeAndExit "Error opening request pipe.\n")
  else if !(← openPipe .response opens.response) then
    return some (← freeAndExit "Error opening response pipe.\n")
  else if !(← onService (Serve.lift (write (← get).locals.session_id.bytes))) then
    return some (← freeAndExit "Error writing to named pipe.\n")
  else return none

def handleClient (opens : Opens) : Handler Ending := do
  match ← openSession opens with
  | some ending => return ending
  | none => handleLoop ((← get).request_pipe.bytes.length + 1)

/-! ## Rules -/

section Rules

variable {α : Type} {E : Stop → Prop}

@[simp] theorem wp_lift {x : Op α} {Q : α → Service → Prop} {s : Service} :
    wp (Serve.lift x) Q E s ↔ wp x (fun a w => Q a { s with world := w }) E s.world := by
  simp only [wp, Serve.lift, StateT.run]
  cases x s.world <;> rfl

@[simp] theorem wp_onService {x : Serve α} {s : Session} {Q : α → Session → Prop} :
    wp (onService x) Q E s ↔
      wp x (fun a service => Q a { s with service := service }) E s.service := by
  simp only [wp, onService, StateT.run]
  cases x s.service <;> rfl

@[simp] theorem wp_openPipe {pipe : Pipe} {succeeds : Bool} {s : Session}
    {Q : Bool → Session → Prop} : wp (openPipe pipe succeeds) Q E s ↔ Q succeeds { s with
      descriptors := if succeeds then s.descriptors ++ [pipe] else s.descriptors } := by
  cases succeeds <;> rfl

end Rules

end EventServer
