import EventServer.Lib.Heap
import EventServer.Lib.Wp
import EventServer.Common.Io

/-
  The server's memory and `server/eventlist.c`.

  Each struct of the source lives in a heap of its own. A program over the server's state is an
  `Op`: it reads and writes the memory, writes to one descriptor, prints errors, and records
  which locks it takes and which seats it touches. A call that can fail asks `Env` whether it
  does. Following NULL or a dangling pointer, and indexing past a block, stops the program.
-/

namespace EventServer

open Lib

/-! ## Structs -/

structure Event where
  id : UInt32
  /-- Number of reservations for the event. -/
  reservations : UInt32
  cols : UInt64
  rows : UInt64
  /-- The array of `rows * cols` seats, each holding its reservation or 0. -/
  data : Ptr
  deriving DecidableEq, Repr

structure ListNode where
  event : Ptr
  next : Option Ptr
  deriving DecidableEq, Repr

structure EventList where
  head : Option Ptr
  tail : Option Ptr
  deriving DecidableEq, Repr

/-- The memory of the server: the static variable `event_list` and the blocks of each type. -/
structure Mem where
  eventList : Option Ptr := none
  lists : Heap EventList := {}
  nodes : Heap ListNode := {}
  events : Heap Event := {}
  cells : Heap (List UInt32) := {}
  deriving DecidableEq, Repr

/-- The locks of the store: the list's read-write lock, and one mutex per event. -/
inductive Lock where
  | list
  | event (p : Ptr)
  deriving DecidableEq, Repr

/-- What an operation does with locks, and with data that a mutex protects. -/
inductive Access where
  | acquire (l : Lock)
  | release (l : Lock)
  | touch (event : Ptr)
  deriving DecidableEq, Repr

/-- The outcomes of the calls of one operation that can fail (`true` is success). No operation
    makes a call of one kind twice. -/
structure Env where
  lockList : Bool := true
  unlockList : Bool := true
  lockEvent : Bool := true
  unlockEvent : Bool := true
  mallocList : Bool := true
  rwlockInit : Bool := true
  mallocEvent : Bool := true
  mutexInit : Bool := true
  callocCells : Bool := true
  mallocNode : Bool := true
  deriving DecidableEq, Repr

/-- What an operation runs in: the memory, the descriptor it was given, the errors printed so
    far and the accesses so far. -/
structure World where
  mem : Mem
  fd : Writer := {}
  stderr : List String := []
  trace : List Access := []
  deriving DecidableEq, Repr

abbrev Op := StateT World (Except Stop)

/-! ## Memory accesses -/

namespace Op

def printError (msg : String) : Op Unit :=
  modify fun w => { w with stderr := w.stderr ++ [msg] }

def record (a : Access) : Op Unit :=
  modify fun w => { w with trace := w.trace ++ [a] }

def setMem (f : Mem → Mem) : Op Unit :=
  modify fun w => { w with mem := f w.mem }

/-- Follow a pointer into the heap `heap`. -/
def deref {α : Type} (heap : Mem → Heap α) : Option Ptr → Op α
  | none => throw .nullPointer
  | some p => do
    match (heap (← get).mem).load p with
    | none => throw .dangling
    | some a => return a

/-- Write through a pointer into the heap `heap`. -/
def assign {α : Type} (heap : Mem → Heap α) (put : Mem → Heap α → Mem) (p : Option Ptr) (a : α) :
    Op Unit := do
  match p with
  | none => throw .nullPointer
  | some p =>
    match (heap (← get).mem).store p a with
    | none => throw .dangling
    | some h => setMem (put · h)

/-- Give a block back. -/
def release {α : Type} (heap : Mem → Heap α) (put : Mem → Heap α → Mem) (p : Ptr) : Op Unit := do
  match (heap (← get).mem).free p with
  | none => throw .dangling
  | some h => setMem (put · h)

/-- Allocate a block holding `a`; NULL when the allocation fails. -/
def allocate {α : Type} (ok : Bool) (heap : Mem → Heap α) (put : Mem → Heap α → Mem) (a : α) :
    Op (Option Ptr) := do
  if ok then
    let h := heap (← get).mem
    setMem (put · (h.alloc a))
    return some h.fresh
  else return none

@[simp] def putLists (m : Mem) (h : Heap EventList) : Mem := { m with lists := h }
@[simp] def putNodes (m : Mem) (h : Heap ListNode) : Mem := { m with nodes := h }
@[simp] def putEvents (m : Mem) (h : Heap Event) : Mem := { m with events := h }
@[simp] def putCells (m : Mem) (h : Heap (List UInt32)) : Mem := { m with cells := h }

/-! ### What they do -/

variable {α β : Type} {Q : α → World → Prop} {E : Stop → Prop} {w : World}

@[simp] theorem wp_printError {Q : Unit → World → Prop} (msg : String) :
    wp (printError msg) Q E w ↔ Q () { w with stderr := w.stderr ++ [msg] } := Iff.rfl

@[simp] theorem wp_record {Q : Unit → World → Prop} (a : Access) :
    wp (record a) Q E w ↔ Q () { w with trace := w.trace ++ [a] } := Iff.rfl

@[simp] theorem wp_setMem {Q : Unit → World → Prop} (f : Mem → Mem) :
    wp (setMem f) Q E w ↔ Q () { w with mem := f w.mem } := Iff.rfl

theorem wp_deref {heap : Mem → Heap α} {p : Ptr} :
    wp (deref heap (some p)) Q E w ↔
      match (heap w.mem).load p with
      | none => E .dangling
      | some a => Q a w := by
  simp only [deref, wp_bind, wp_get]
  split <;> rfl

theorem wp_assign {heap : Mem → Heap α} {put : Mem → Heap α → Mem} {p : Ptr} {a : α}
    {Q : Unit → World → Prop} :
    wp (assign heap put (some p) a) Q E w ↔
      match (heap w.mem).store p a with
      | none => E .dangling
      | some h => Q () { w with mem := put w.mem h } := by
  simp only [assign, wp_bind, wp_get]
  split <;> rfl

theorem wp_release {heap : Mem → Heap α} {put : Mem → Heap α → Mem} {p : Ptr}
    {Q : Unit → World → Prop} :
    wp (release heap put p) Q E w ↔
      match (heap w.mem).free p with
      | none => E .dangling
      | some h => Q () { w with mem := put w.mem h } := by
  simp only [release, wp_bind, wp_get]
  split <;> rfl

theorem wp_allocate {ok : Bool} {heap : Mem → Heap α} {put : Mem → Heap α → Mem} {a : α}
    {Q : Option Ptr → World → Prop} :
    wp (allocate ok heap put a) Q E w ↔
      (ok = true → Q (some (heap w.mem).fresh)
        { w with mem := put w.mem ((heap w.mem).alloc a) }) ∧ (ok = false → Q none w) := by
  cases ok <;> simp [allocate]

end Op

open Op

/-! ## `eventlist.c` -/

/-- Creates an empty event list; NULL if the allocation or its lock fails. -/
def createList (env : Env) : Op (Option Ptr) := do
  match ← allocate env.mallocList Mem.lists putLists ⟨none, none⟩ with
  | none => return none
  | some list =>
    if env.rwlockInit then return some list
    else
      release Mem.lists putLists list
      return none

/-- Appends an event at the end of the list. -/
def appendToList (env : Env) (list : Option Ptr) (event : Ptr) : Op Int32 := do
  match list with
  | none => return 1
  | some _ =>
    match ← allocate env.mallocNode Mem.nodes putNodes ⟨event, none⟩ with
    | none => return 1
    | some new_node =>
      let l ← deref Mem.lists list
      match l.head with
      | none => assign Mem.lists putLists list ⟨some new_node, some new_node⟩
      | some _ =>
        let t ← deref Mem.nodes l.tail
        assign Mem.nodes putNodes l.tail { t with next := some new_node }
        assign Mem.lists putLists list { l with tail := some new_node }
      return 0

/-- The loop of `get_event`. A run that visits more nodes than there are comes back to a node
    it has left, and never ends. -/
def getEventLoop (event_id : UInt32) (toNode : Option Ptr) : Nat → Option Ptr → Op (Option Ptr)
  | 0, _ => throw .diverges
  | fuel + 1, current => do
    let node ← deref Mem.nodes current
    let event ← deref Mem.events (some node.event)
    if event.id = event_id then return some node.event
    else if current = toNode then return none
    else getEventLoop event_id toNode fuel node.next

/-- Retrieves the event with the given id between the nodes `fromNode` and `toNode`. -/
def getEvent (list : Option Ptr) (event_id : UInt32) (fromNode toNode : Option Ptr) :
    Op (Option Ptr) := do
  if list = none ∨ fromNode = none ∨ toNode = none then return none
  else getEventLoop event_id toNode (← get).mem.nodes.fresh fromNode

end EventServer
