import EventServer.Server.EventList

/-
  `server/operations.c`: the operations on the store.

  `emsReserve` and `emsShow` are cut in two where they release the list's lock and go for the
  event's mutex: the look-up under the read lock, and the part under the mutex. Everything
  between taking a lock and releasing it is one atomic step of a concurrent run, so the two
  parts are the steps that other threads can come between; `emsCreate` and `emsListEvents`
  run under one lock.
-/

namespace EventServer

open Lib Op

/-! ## Locks -/

/-- `pthread_rwlock_rdlock` or `pthread_rwlock_wrlock` on the list; `true` if it succeeds. -/
def lockList (env : Env) : Op Bool := do
  let _ ← deref Mem.lists (← get).mem.eventList
  if env.lockList then record (.acquire .list)
  return env.lockList

/-- `pthread_rwlock_unlock` on the list. -/
def unlockList (env : Env) : Op Bool := do
  let _ ← deref Mem.lists (← get).mem.eventList
  if env.unlockList then record (.release .list)
  return env.unlockList

/-- `pthread_mutex_lock` on an event's mutex. -/
def lockEvent (env : Env) (event : Ptr) : Op Bool := do
  let _ ← deref Mem.events (some event)
  if env.lockEvent then record (.acquire (.event event))
  return env.lockEvent

/-- `pthread_mutex_unlock` on an event's mutex. -/
def unlockEvent (env : Env) (event : Ptr) : Op Bool := do
  let _ ← deref Mem.events (some event)
  if env.unlockEvent then record (.release (.event event))
  return env.unlockEvent

/-- Release the list's lock and go on whether or not that worked. -/
def leaveList (env : Env) : Op Unit := do
  if !(← unlockList env) then printError "Error unlocking list rwl.\n"

/-- Release an event's mutex and go on whether or not that worked. -/
def leaveEvent (env : Env) (event : Ptr) : Op Unit := do
  if !(← unlockEvent env event) then printError "Error unlocking mutex.\n"

/-- The world after an access that happened if `ok`. -/
def World.mark (w : World) (ok : Bool) (a : Access) : World :=
  if ok then { w with trace := w.trace ++ [a] } else w

@[simp] theorem World.mark_mem (w : World) (ok : Bool) (a : Access) : (w.mark ok a).mem = w.mem := by
  cases ok <;> rfl

@[simp] theorem World.mark_fd (w : World) (ok : Bool) (a : Access) : (w.mark ok a).fd = w.fd := by
  cases ok <;> rfl

section

variable {α : Type} {Q : Bool → World → Prop} {E : Stop → Prop} {w : World} {env : Env} {l p : Ptr}

theorem wp_lockList {x : EventList} (hroot : w.mem.eventList = some l)
    (hlive : w.mem.lists.load l = some x) :
    wp (lockList env) Q E w ↔ Q env.lockList (w.mark env.lockList (.acquire .list)) := by
  cases h : env.lockList <;> simp [lockList, wp_deref, hroot, hlive, h, World.mark]

theorem wp_unlockList {x : EventList} (hroot : w.mem.eventList = some l)
    (hlive : w.mem.lists.load l = some x) :
    wp (unlockList env) Q E w ↔ Q env.unlockList (w.mark env.unlockList (.release .list)) := by
  cases h : env.unlockList <;> simp [unlockList, wp_deref, hroot, hlive, h, World.mark]

theorem wp_lockEvent {x : Event} (hlive : w.mem.events.load p = some x) :
    wp (lockEvent env p) Q E w ↔ Q env.lockEvent (w.mark env.lockEvent (.acquire (.event p))) := by
  cases h : env.lockEvent <;> simp [lockEvent, wp_deref, hlive, h, World.mark]

theorem wp_unlockEvent {x : Event} (hlive : w.mem.events.load p = some x) :
    wp (unlockEvent env p) Q E w ↔
      Q env.unlockEvent (w.mark env.unlockEvent (.release (.event p))) := by
  cases h : env.unlockEvent <;> simp [unlockEvent, wp_deref, hlive, h, World.mark]

theorem wp_leaveList {Q : Unit → World → Prop} {x : EventList} (hroot : w.mem.eventList = some l)
    (hlive : w.mem.lists.load l = some x)
    (hQ : ∀ w', w'.mem = w.mem → w'.fd = w.fd → Q () w') : wp (leaveList env) Q E w := by
  simp only [leaveList, wp_bind, wp_unlockList hroot hlive]
  cases env.unlockList <;> exact hQ _ (by simp) (by simp)

theorem wp_leaveEvent {Q : Unit → World → Prop} {x : Event} (hlive : w.mem.events.load p = some x)
    (hQ : ∀ w', w'.mem = w.mem → w'.fd = w.fd → Q () w') : wp (leaveEvent env p) Q E w := by
  simp only [leaveEvent, wp_bind, wp_unlockEvent hlive]
  cases env.unlockEvent <;> exact hQ _ (by simp) (by simp)

end

/-! ## Seats -/

/-- Gets the index of a seat. -/
def seatIndex (event : Event) (row col : UInt64) : UInt64 := (row - 1) * event.cols + col - 1

/-- `xs[i]` for an argument array. -/
def index (xs : List UInt64) (i : Nat) : Op UInt64 :=
  match xs[i]? with
  | none => throw .outOfBounds
  | some x => return x

/-- `event->data[i]`. -/
def loadCell (event : Ptr) (data : Ptr) (i : UInt64) : Op UInt32 := do
  record (.touch event)
  let cells ← deref Mem.cells (some data)
  match cells[i.toNat]? with
  | none => throw .outOfBounds
  | some c => return c

/-- `event->data[i] = c`. -/
def storeCell (event : Ptr) (data : Ptr) (i : UInt64) (c : UInt32) : Op Unit := do
  record (.touch event)
  let cells ← deref Mem.cells (some data)
  if i.toNat < cells.length then assign Mem.cells putCells (some data) (cells.set i.toNat c)
  else throw .outOfBounds

/-! ## The operations -/

/-- Gets the event with the given id; the artificial delay has no effect on the state. -/
def getEventWithDelay (event_id : UInt32) (fromNode toNode : Option Ptr) : Op (Option Ptr) := do
  getEvent (← get).mem.eventList event_id fromNode toNode

def emsInit (env : Env) : Op Int32 := do
  if (← get).mem.eventList ≠ none then
    printError "EMS state has already been initialized.\n"
    return 1
  else
    let list ← createList env
    setMem fun m => { m with eventList := list }
    return if list = none then 1 else 0

/-- The part of `ems_create` under the list's write lock once the id is known to be new. -/
def createEvent (env : Env) (event_id : UInt32) (num_rows num_cols : UInt64) : Op Int32 := do
  match ← allocate env.mallocEvent Mem.events putEvents ⟨event_id, 0, num_cols, num_rows, 0⟩ with
  | none =>
    printError "Error allocating memory for event.\n"
    leaveList env
    return 1
  | some event =>
    if !env.mutexInit then
      leaveList env
      Op.release Mem.events putEvents event
      return 1
    else
      let size := (num_rows * num_cols).toNat
      match ← allocate env.callocCells Mem.cells putCells (List.replicate size 0) with
      | none =>
        printError "Error allocating memory for event data.\n"
        leaveList env
        Op.release Mem.events putEvents event
        return 1
      | some data =>
        assign Mem.events putEvents (some event) ⟨event_id, 0, num_cols, num_rows, data⟩
        if (← appendToList env (← get).mem.eventList event) ≠ 0 then
          printError "Error appending event to list.\n"
          leaveList env
          Op.release Mem.cells putCells data
          Op.release Mem.events putEvents event
          return 1
        else
          leaveList env
          return 0

/-- Creates a new event with the given id and dimensions. -/
def emsCreate (env : Env) (event_id : UInt32) (num_rows num_cols : UInt64) : Op Int32 := do
  if (← get).mem.eventList = none then
    printError "EMS state must be initialized.\n"
    return 1
  else if !(← lockList env) then
    printError "Error locking list rwl.\n"
    return 1
  else
    let list ← deref Mem.lists (← get).mem.eventList
    if (← getEventWithDelay event_id list.head list.tail) ≠ none then
      printError "Event already exists\n"
      leaveList env
      return 1
    else createEvent env event_id num_rows num_cols

/-- The look-up that `ems_reserve` starts with: the return code if it ends there, else the event
    it found. -/
def emsReserveLookup (env : Env) (event_id : UInt32) : Op (Int32 ⊕ Ptr) := do
  if (← get).mem.eventList = none then
    printError "EMS state must be initialized.\n"
    return .inl 1
  else if !(← lockList env) then
    printError "Error locking list rwl.\n"
    return .inl 1
  else
    let list ← deref Mem.lists (← get).mem.eventList
    let event ← getEventWithDelay event_id list.head list.tail
    if !(← unlockList env) then
      printError "Error unlocking list rwl.\n"
      return .inl 1
    else
      match event with
      | none =>
        printError "Event not found.\n"
        return .inl 1
      | some event => return .inr event

/-- The loop over the listed seats that checks their coordinates: `n` seats from the `i`th. -/
def seatsInBounds (event : Event) (xs ys : List UInt64) : Nat → Nat → Op Bool
  | 0, _ => return true
  | n + 1, i => do
    let x ← index xs i
    if x ≤ 0 ∨ x > event.rows then return false
    else
      let y ← index ys i
      if y ≤ 0 ∨ y > event.cols then return false
      else seatsInBounds event xs ys n (i + 1)

/-- The inner loop of the availability check: does some listed seat have index `i` and hold a
    reservation already? The first seat with that index ends the loop. -/
def cellTaken (p : Ptr) (event : Event) (xs ys : List UInt64) (i : UInt64) : Nat → Nat → Op Bool
  | 0, _ => return false
  | n + 1, j => do
    if seatIndex event (← index xs j) (← index ys j) ≠ i then cellTaken p event xs ys i n (j + 1)
    else return (← loadCell p event.data i) ≠ 0

/-- The outer loop of the availability check: `n` cells from the `i`th. -/
def someCellTaken (p : Ptr) (event : Event) (num_seats : UInt64) (xs ys : List UInt64) :
    Nat → Nat → Op Bool
  | 0, _ => return false
  | n + 1, i => do
    if ← cellTaken p event xs ys (UInt64.ofNat i) num_seats.toNat 0 then return true
    else someCellTaken p event num_seats xs ys n (i + 1)

/-- The loop that writes the reservation into the listed seats: `n` seats from the `i`th. -/
def writeSeats (p : Ptr) (event : Event) (reservation_id : UInt32) (xs ys : List UInt64) :
    Nat → Nat → Op Unit
  | 0, _ => return ()
  | n + 1, i => do
    storeCell p event.data (seatIndex event (← index xs i) (← index ys i)) reservation_id
    writeSeats p event reservation_id xs ys n (i + 1)

/-- `++event->reservations`. -/
def nextReservation (p : Ptr) : Op UInt32 := do
  record (.touch p)
  let event ← deref Mem.events (some p)
  assign Mem.events putEvents (some p) { event with reservations := event.reservations + 1 }
  return event.reservations + 1

/-- The part of `ems_reserve` under the event's mutex. -/
def emsReserveLocked (env : Env) (p : Ptr) (num_seats : UInt64) (xs ys : List UInt64) :
    Op Int32 := do
  if !(← lockEvent env p) then
    printError "Error locking mutex.\n"
    return 1
  else
    let event ← deref Mem.events (some p)
    if !(← seatsInBounds event xs ys num_seats.toNat 0) then
      printError "Seat out of bounds\n"
      leaveEvent env p
      return 1
    else if ← someCellTaken p event num_seats xs ys (event.rows * event.cols).toNat 0 then
      printError "Seat already reserved.\n"
      leaveEvent env p
      return 1
    else
      let reservation_id ← nextReservation p
      writeSeats p event reservation_id xs ys num_seats.toNat 0
      leaveEvent env p
      return 0

/-- Reserves seats for an event. -/
def emsReserve (env : Env) (event_id : UInt32) (num_seats : UInt64) (xs ys : List UInt64) :
    Op Int32 := do
  match ← emsReserveLookup env event_id with
  | .inl code => return code
  | .inr event => emsReserveLocked env event num_seats xs ys

/-! ## Showing -/

/-- `my_write` on the descriptor of the operation; `true` unless it returns -1. -/
def write (buffer : Bytes) : Op Bool := do
  let w ← get
  let (n, fd) := myWrite w.fd buffer
  set { w with fd }
  return n ≠ -1

/-- Report a failure of the operation to the client, as far as that works. -/
def respond (result : Int32) : Op Unit := do
  if !(← write (intBytes result)) then printError "Error writing to fd.\n"

def emsShowLookup (env : Env) (event_id : UInt32) : Op (Int32 ⊕ Ptr) := do
  if (← get).mem.eventList = none then
    printError "EMS state must be initialized.\n"
    respond 1
    return .inl 1
  else if !(← lockList env) then
    respond 1
    return .inl 1
  else
    let list ← deref Mem.lists (← get).mem.eventList
    let event ← getEventWithDelay event_id list.head list.tail
    leaveList env
    match event with
    | none =>
      printError "Event not found.\n"
      respond 1
      return .inl 1
    | some event => return .inr event

/-- Write a buffer while holding an event's mutex, then go on with `next`; a failing write ends
    the operation with 1. -/
def writeHolding (env : Env) (p : Ptr) (buffer : Bytes) (next : Op Int32) : Op Int32 := do
  if !(← write buffer) then
    printError "Error writing to fd.\n"
    leaveEvent env p
    return 1
  else next

/-- The loop that sends the seats: `n` cells from the `i`th. -/
def writeCells (env : Env) (p : Ptr) (event : Event) : Nat → Nat → Op Int32
  | 0, _ => do
    leaveEvent env p
    return 0
  | n + 1, i => do
    let c ← loadCell p event.data (UInt64.ofNat i)
    writeHolding env p (uintBytes c) (writeCells env p event n (i + 1))

/-- The part of `ems_show` under the event's mutex. -/
def emsShowLocked (env : Env) (p : Ptr) : Op Int32 := do
  if !(← lockEvent env p) then
    printError "Error locking mutex.\n"
    respond 1
    return 1
  else
    let event ← deref Mem.events (some p)
    writeHolding env p (intBytes 0) <|
      writeHolding env p (sizeBytes event.rows) <|
        writeHolding env p (sizeBytes event.cols) <|
          writeCells env p event (event.rows * event.cols).toNat 0

/-- Sends information about an event through the given descriptor. -/
def emsShow (env : Env) (event_id : UInt32) : Op Int32 := do
  match ← emsShowLookup env event_id with
  | .inl code => return code
  | .inr event => emsShowLocked env event

/-! ## Showing on the standard output -/

/-- The look-up that `ems_show_stdout` starts with; a failing unlock does not end it. -/
def emsShowStdoutLookup (env : Env) (event_id : UInt32) : Op (Int32 ⊕ Ptr) := do
  if (← get).mem.eventList = none then
    printError "EMS state must be initialized.\n"
    return .inl 1
  else if !(← lockList env) then
    printError "Error locking list rwl.\n"
    return .inl 1
  else
    let list ← deref Mem.lists (← get).mem.eventList
    let event ← getEventWithDelay event_id list.head list.tail
    leaveList env
    match event with
    | none =>
      printError "Event not found.\n"
      return .inl 1
    | some event => return .inr event

/-- `print_str` while holding an event's mutex, then go on with `next`; a failing write ends the
    operation with 1. -/
def printHolding (env : Env) (p : Ptr) (str : Bytes) (next : Op Int32) : Op Int32 := do
  let w ← get
  let (failed, fd) := printStr w.fd str
  set { w with fd }
  if failed ≠ 0 then
    printError "Error writing to file descriptor.\n"
    let _ ← unlockEvent env p
    return 1
  else next

/-- The inner loop of `ems_show_stdout`: the seats of row `i` from column `j` on, then `next`. -/
def printSeats (env : Env) (p : Ptr) (event : Event) (i : UInt64) (next : Op Int32) :
    Nat → UInt64 → Op Int32
  | 0, _ => throw .diverges
  | fuel + 1, j =>
    if j ≤ event.cols then do
      let c ← loadCell p event.data (seatIndex event i j)
      printHolding env p (decimal c) <|
        if j < event.cols then
          printHolding env p (ascii " ") (printSeats env p event i next fuel (j + 1))
        else printSeats env p event i next fuel (j + 1)
    else next

/-- The outer loop of `ems_show_stdout`: the rows from the `i`th on. -/
def printRows (env : Env) (p : Ptr) (event : Event) (width : Nat) : Nat → UInt64 → Op Int32
  | 0, _ => throw .diverges
  | fuel + 1, i =>
    if i ≤ event.rows then
      printSeats env p event i
        (printHolding env p (ascii "\n") (printRows env p event width fuel (i + 1))) width 1
    else do
      let _ ← unlockEvent env p
      return 0

/-- The part of `ems_show_stdout` under the event's mutex. -/
def emsShowStdoutLocked (env : Env) (fuel : Nat) (p : Ptr) : Op Int32 := do
  if !(← lockEvent env p) then
    printError "Error locking mutex.\n"
    return 1
  else
    let event ← deref Mem.events (some p)
    printRows env p event fuel fuel 1

/-- Sends information about an event to the standard output. The counters of its loops are of
    type `size_t`, so with as many rows or columns as that holds they do not end; `fuel` is how
    many rounds of a loop are followed. -/
def emsShowStdout (env : Env) (fuel : Nat) (event_id : UInt32) : Op Int32 := do
  match ← emsShowStdoutLookup env event_id with
  | .inl code => return code
  | .inr event => emsShowStdoutLocked env fuel event

/-! ## Listing -/

/-- The loop of `ems_list_events` that counts the nodes from `current` to `toNode`. -/
def countEvents (toNode : Option Ptr) : Nat → Option Ptr → UInt64 → Op UInt64
  | 0, _, _ => throw .diverges
  | fuel + 1, current, num_events => do
    if current = toNode then return num_events + 1
    else
      let node ← deref Mem.nodes current
      countEvents toNode fuel node.next (num_events + 1)

/-- Write a buffer while holding the list's lock, then go on with `next`; a failing write ends
    the operation with 1. -/
def writeListing (env : Env) (buffer : Bytes) (next : Op Int32) : Op Int32 := do
  if !(← write buffer) then
    printError "Error writing to fd.\n"
    leaveList env
    return 1
  else next

/-- The loop of `ems_list_events` that sends the ids of the events from `current` to `toNode`. -/
def writeIds (env : Env) (toNode : Option Ptr) : Nat → Option Ptr → Op Int32
  | 0, _ => throw .diverges
  | fuel + 1, current => do
    let node ← deref Mem.nodes current
    let event ← deref Mem.events (some node.event)
    writeListing env (uintBytes event.id) do
      if current = toNode then
        leaveList env
        return 0
      else writeIds env toNode fuel node.next

/-- Lists all events, sending their ids through the given descriptor. -/
def emsListEvents (env : Env) : Op Int32 := do
  if (← get).mem.eventList = none then
    printError "EMS state must be initialized.\n"
    respond 1
    return 1
  else if !(← lockList env) then
    printError "Error locking list rwl.\n"
    respond 1
    return 1
  else
    let list ← deref Mem.lists (← get).mem.eventList
    if list.head = none then
      let _ ← write (intBytes 2)
      leaveList env
      return 1
    else
      writeListing env (intBytes 0) do
        let num_events ← countEvents list.tail (← get).mem.nodes.fresh list.head 0
        writeListing env (sizeBytes num_events) do
          let again ← deref Mem.lists (← get).mem.eventList
          writeIds env list.tail (← get).mem.nodes.fresh again.head

/-! ## Calls -/

/-- The seats a call of `ems_reserve` lists: their number and the arrays of their rows and
    columns. -/
structure SeatArgs where
  num_seats : UInt64
  xs : List UInt64
  ys : List UInt64
  deriving DecidableEq, Repr

/-- The same seats, in arrays that hold nothing else. -/
def SeatArgs.cut (args : SeatArgs) : SeatArgs :=
  ⟨args.num_seats, args.xs.take args.num_seats.toNat, args.ys.take args.num_seats.toNat⟩

/-- A call of one of the four operations that clients can ask for. -/
inductive Call where
  | emsCreate (event_id : UInt32) (num_rows num_cols : UInt64)
  | emsReserve (event_id : UInt32) (args : SeatArgs)
  | emsShow (event_id : UInt32)
  | emsListEvents
  deriving DecidableEq, Repr

/-- The call, with arrays that hold only what it reads. -/
def Call.cut : Call → Call
  | .emsReserve event_id args => .emsReserve event_id args.cut
  | c => c

/-- The function that is called. -/
def Call.op (env : Env) : Call → Op Int32
  | .emsCreate event_id num_rows num_cols => EventServer.emsCreate env event_id num_rows num_cols
  | .emsReserve event_id args =>
    EventServer.emsReserve env event_id args.num_seats args.xs args.ys
  | .emsShow event_id => EventServer.emsShow env event_id
  | .emsListEvents => EventServer.emsListEvents env

end EventServer
