import EventServer.Lib.Locks
import EventServer.Server.Dump

/-
  The lock discipline of the operations.

  `Keeps a x b` says of a program that is run while the lock `a` is held and returns `r` that it
  follows the automaton of `Lib.LockAction` and ends holding `b r`. It says nothing of the memory,
  so it holds whatever other threads do to the store between two parts of a call, whichever calls
  fail and wherever the descriptor fails. One lemma per function gives that every call begins
  and ends without a lock, holds at most one at a time and touches the seats of an event only
  under its mutex (`SharedCall.disciplined`).
-/

namespace EventServer

open Lib Op

/-- An access as an action of a thread: its mutex protects the seats and the counter of an event. -/
def Access.action : Access → LockAction Lock
  | .acquire l => .acquire l
  | .release l => .release l
  | .touch p => .use (.event p)

/-- The accesses lead from holding `a` to holding `b`. -/
def Leads (a b : Option Lock) (t : List Access) : Prop :=
  exec LockAction.next a (t.map Access.action) = some b

theorem Leads.append {a b c : Option Lock} {t t' : List Access} (h : Leads a b t)
    (h' : Leads b c t') : Leads a c (t ++ t') := by
  rw [Leads, List.map_append]
  exact exec_append_of_eq h h'

/-- Run while `a` is held, the program returns only with `b r` held, `r` being what it returns. -/
def Keeps {α : Type} (a : Option Lock) (x : Op α) (b : α → Option Lock) : Prop :=
  ∀ w, wp x (fun r w' => ∃ t, w'.trace = w.trace ++ t ∧ Leads a (b r) t) (fun _ => True) w

/-- The program takes no lock, gives none back and touches nothing that a mutex protects. -/
def Quiet {α : Type} (x : Op α) : Prop :=
  ∀ w, wp x (fun _ w' => w'.trace = w.trace) (fun _ => True) w

section Rules

variable {α β : Type} {a : Option Lock} {b : α → Option Lock} {c : β → Option Lock}

theorem Quiet.keeps {x : Op α} (h : Quiet x) : Keeps a x fun _ => a := fun w =>
  wp_mono (h w) (fun _ _ ht => ⟨[], by simp [ht], rfl⟩) fun _ he => he

theorem Keeps.bind {x : Op β} {f : β → Op α} (hx : Keeps a x c) (hf : ∀ r, Keeps (c r) (f r) b) :
    Keeps a (x >>= f) b := by
  intro w
  rw [wp_bind]
  refine wp_mono (hx w) (fun r w₁ hr => ?_) fun _ he => he
  obtain ⟨t, ht, hleads⟩ := hr
  refine wp_mono (hf r w₁) (fun r' w₂ hr' => ?_) fun _ he => he
  obtain ⟨t', ht', hleads'⟩ := hr'
  exact ⟨t ++ t', by rw [ht', ht, List.append_assoc], hleads.append hleads'⟩

/-- A quiet program in front changes nothing. -/
theorem Quiet.bind {x : Op β} {f : β → Op α} (hx : Quiet x) (hf : ∀ r, Keeps a (f r) b) :
    Keeps a (x >>= f) b :=
  hx.keeps.bind hf

theorem keeps_pure {r : α} (h : b r = a) : Keeps a (pure r) b := fun w =>
  ⟨[], by simp, congrArg some h.symm⟩

theorem keeps_throw (stop : Stop) : Keeps a (throw stop : Op α) b := fun _ => trivial

theorem keeps_ite {p : Prop} [Decidable p] {x y : Op α} (hx : Keeps a x b) (hy : Keeps a y b) :
    Keeps a (if p then x else y) b := by
  split
  · exact hx
  · exact hy

theorem keeps_record {x : Access} {o : Option Lock} (h : LockAction.next a x.action = some o) :
    Keeps a (record x) fun _ => o := by
  intro w
  refine ⟨[x], rfl, ?_⟩
  rw [Leads, List.map_singleton, exec_cons, h]
  rfl

theorem quiet_bind {x : Op β} {f : β → Op α} (hx : Quiet x) (hf : ∀ r, Quiet (f r)) :
    Quiet (x >>= f) := by
  intro w
  rw [wp_bind]
  exact wp_mono (hx w) (fun r w₁ hr => wp_mono (hf r w₁) (fun _ _ h => h.trans hr) fun _ he => he)
    fun _ he => he

theorem quiet_pure (r : α) : Quiet (pure r : Op α) := fun _ => rfl

theorem quiet_throw (stop : Stop) : Quiet (throw stop : Op α) := fun _ => trivial

theorem quiet_ite {p : Prop} [Decidable p] {x y : Op α} (hx : Quiet x) (hy : Quiet y) :
    Quiet (if p then x else y) := by
  split
  · exact hx
  · exact hy

end Rules

/-! ## What is quiet -/

theorem quiet_get : Quiet (get : Op World) := fun _ => rfl

theorem quiet_printError (msg : String) : Quiet (printError msg) := fun _ => rfl

section Quiet

variable {α : Type} {heap : Mem → Heap α} {put : Mem → Heap α → Mem}

theorem quiet_deref : ∀ p : Option Ptr, Quiet (deref heap p)
  | none => quiet_throw _
  | some p => fun w => by
      rw [wp_deref]
      split
      · trivial
      · rfl

theorem quiet_assign (a : α) : ∀ p : Option Ptr, Quiet (assign heap put p a)
  | none => quiet_throw _
  | some p => fun w => by
      rw [wp_assign]
      split
      · trivial
      · rfl

theorem quiet_release (p : Ptr) : Quiet (Op.release heap put p) := fun w => by
  rw [wp_release]
  split
  · trivial
  · rfl

theorem quiet_allocate (ok : Bool) (a : α) : Quiet (allocate ok heap put a) := fun w => by
  rw [wp_allocate]
  exact ⟨fun _ => rfl, fun _ => rfl⟩

end Quiet

theorem quiet_write (buffer : Bytes) : Quiet (write buffer) := fun _ => rfl

theorem quiet_respond (result : Int32) : Quiet (respond result) :=
  quiet_bind (quiet_write _) fun _ => quiet_ite (quiet_printError _) (quiet_pure _)

theorem quiet_index (xs : List UInt64) (i : Nat) : Quiet (index xs i) := by
  unfold index
  split
  · exact quiet_throw _
  · exact quiet_pure _

theorem quiet_getEventLoop (id : UInt32) (toNode : Option Ptr) :
    ∀ (fuel : Nat) (current : Option Ptr), Quiet (getEventLoop id toNode fuel current)
  | 0, _ => quiet_throw _
  | fuel + 1, current => by
      rw [getEventLoop]
      refine quiet_bind (quiet_deref _) fun node => quiet_bind (quiet_deref _) fun event => ?_
      refine quiet_ite (quiet_pure _) (quiet_ite (quiet_pure _) ?_)
      exact quiet_getEventLoop id toNode fuel node.next

theorem quiet_getEventWithDelay (id : UInt32) (fromNode toNode : Option Ptr) :
    Quiet (getEventWithDelay id fromNode toNode) := by
  refine quiet_bind quiet_get fun w => quiet_ite (quiet_pure _) ?_
  exact quiet_bind quiet_get fun w => quiet_getEventLoop _ _ _ _

theorem quiet_appendToList (env : Env) (event : Ptr) :
    ∀ list : Option Ptr, Quiet (appendToList env list event)
  | none => quiet_pure _
  | some list => by
      refine quiet_bind (quiet_allocate _ _) fun node => ?_
      cases node with
      | none => exact quiet_pure _
      | some node =>
        refine quiet_bind (quiet_deref _) fun l => ?_
        cases hl : l.head with
        | none => exact quiet_bind (quiet_assign _ _) fun _ => quiet_pure _
        | some head =>
          refine quiet_bind (quiet_deref _) fun t => ?_
          exact quiet_bind (quiet_assign _ _) fun _ =>
            quiet_bind (quiet_assign _ _) fun _ => quiet_pure _

theorem quiet_countEvents (toNode : Option Ptr) :
    ∀ (fuel : Nat) (current : Option Ptr) (n : UInt64), Quiet (countEvents toNode fuel current n)
  | 0, _, _ => quiet_throw _
  | fuel + 1, current, n => by
      rw [countEvents]
      refine quiet_ite (quiet_pure _) (quiet_bind (quiet_deref _) fun node => ?_)
      exact quiet_countEvents toNode fuel node.next (n + 1)

theorem quiet_seatsInBounds (event : Event) (xs ys : List UInt64) :
    ∀ n i : Nat, Quiet (seatsInBounds event xs ys n i)
  | 0, _ => quiet_pure _
  | n + 1, i => by
      rw [seatsInBounds]
      refine quiet_bind (quiet_index _ _) fun x => quiet_ite (quiet_pure _) ?_
      refine quiet_bind (quiet_index _ _) fun y => quiet_ite (quiet_pure _) ?_
      exact quiet_seatsInBounds event xs ys n (i + 1)

/-! ## Locks and seats -/

/-- `pthread_rwlock_unlock` and `pthread_mutex_unlock` succeed. -/
structure Env.Unlocks (env : Env) : Prop where
  list : env.unlockList = true
  event : env.unlockEvent = true

section Locks

variable {α : Type} {env : Env} {p : Ptr} {b : α → Option Lock}

/-- The list's lock cannot be had, or it is held from here on. -/
theorem keeps_lockList {stop next : Op α} (hstop : Keeps none stop b)
    (hnext : Keeps (some .list) next b) :
    Keeps none (do if !(← lockList env) then stop else next) b := by
  have hlock : Keeps none (lockList env) fun ok => if ok then some .list else none := by
    refine quiet_get.bind fun w => (quiet_deref _).bind fun _ => ?_
    cases h : env.lockList with
    | false => exact keeps_pure rfl
    | true => exact (keeps_record rfl).bind fun _ => keeps_pure rfl
  refine hlock.bind fun ok => ?_
  cases ok with
  | false => exact hstop
  | true => exact hnext

/-- The beginning of an operation on an event: it ends without the lock, or goes on with it. -/
theorem keeps_searched {absent stop : Op α} {next : Option Ptr → Op α} (id : UInt32)
    (habsent : Keeps none absent b) (hstop : Keeps none stop b)
    (hnext : ∀ event, Keeps (some .list) (next event) b) :
    Keeps none (do
      if (← get).mem.eventList = none then absent
      else if !(← lockList env) then stop
      else
        let list ← deref Mem.lists (← get).mem.eventList
        let event ← getEventWithDelay id list.head list.tail
        next event) b := by
  refine quiet_get.bind fun w => keeps_ite habsent (keeps_lockList hstop ?_)
  refine quiet_get.bind fun w => (quiet_deref _).bind fun list => ?_
  exact (quiet_getEventWithDelay _ _ _).bind hnext

theorem keeps_unlockList (henv : env.Unlocks) :
    Keeps (some .list) (unlockList env) fun _ => none := by
  refine quiet_get.bind fun w => (quiet_deref _).bind fun _ => ?_
  rw [henv.list]
  exact (keeps_record rfl).bind fun _ => keeps_pure rfl

theorem keeps_leaveList (henv : env.Unlocks) : Keeps (some .list) (leaveList env) fun _ => none :=
  (keeps_unlockList henv).bind fun _ =>
    (quiet_ite (quiet_printError _) (quiet_pure _)).keeps

/-- The event's mutex cannot be had, or it is held from here on. -/
theorem keeps_lockEvent {stop next : Op α} (hstop : Keeps none stop b)
    (hnext : Keeps (some (.event p)) next b) :
    Keeps none (do if !(← lockEvent env p) then stop else next) b := by
  have hlock : Keeps none (lockEvent env p) fun ok => if ok then some (.event p) else none := by
    refine (quiet_deref _).bind fun _ => ?_
    cases h : env.lockEvent with
    | false => exact keeps_pure rfl
    | true => exact (keeps_record rfl).bind fun _ => keeps_pure rfl
  refine hlock.bind fun ok => ?_
  cases ok with
  | false => exact hstop
  | true => exact hnext

theorem keeps_unlockEvent (henv : env.Unlocks) :
    Keeps (some (.event p)) (unlockEvent env p) fun _ => none := by
  refine (quiet_deref _).bind fun _ => ?_
  rw [henv.event]
  refine Keeps.bind (c := fun _ => none) (keeps_record ?_) fun _ => keeps_pure rfl
  simp [LockAction.next, Access.action]

theorem keeps_leaveEvent (henv : env.Unlocks) :
    Keeps (some (.event p)) (leaveEvent env p) fun _ => none :=
  (keeps_unlockEvent henv).bind fun _ =>
    (quiet_ite (quiet_printError _) (quiet_pure _)).keeps

theorem keeps_touch : Keeps (some (.event p)) (record (.touch p)) fun _ => some (.event p) :=
  keeps_record (by simp [LockAction.next, Access.action])

theorem keeps_loadCell (data : Ptr) (i : UInt64) :
    Keeps (some (.event p)) (loadCell p data i) fun _ => some (.event p) := by
  refine keeps_touch.bind fun _ => (quiet_deref _).bind fun cells => ?_
  split
  · exact keeps_throw _
  · exact (quiet_pure _).keeps

theorem keeps_storeCell (data : Ptr) (i : UInt64) (c : UInt32) :
    Keeps (some (.event p)) (storeCell p data i c) fun _ => some (.event p) := by
  refine keeps_touch.bind fun _ => (quiet_deref _).bind fun cells => ?_
  exact keeps_ite (quiet_assign _ _).keeps (keeps_throw _)

end Locks

/-! ## The operations -/

section Operations

variable {env : Env} (henv : env.Unlocks) {p : Ptr}

include henv

theorem keeps_createEvent (id : UInt32) (rows cols : UInt64) :
    Keeps (some .list) (createEvent env id rows cols) fun _ => none := by
  have hleave : ∀ {x : Op Int32}, Quiet x →
      Keeps (some .list) (leaveList env >>= fun _ => x) fun _ => none := fun hx =>
    (keeps_leaveList henv).bind fun _ => hx.keeps
  have hfree : ∀ p, Quiet (Op.release Mem.events putEvents p >>= fun _ => return (1 : Int32)) :=
    fun p => quiet_bind (quiet_release p) fun _ => quiet_pure _
  refine (quiet_allocate _ _).bind fun event => ?_
  cases event with
  | none => exact (quiet_printError _).bind fun _ => hleave (quiet_pure _)
  | some event =>
    refine keeps_ite (hleave (hfree event)) ((quiet_allocate _ _).bind fun data => ?_)
    cases data with
    | none => exact (quiet_printError _).bind fun _ => hleave (hfree event)
    | some data =>
      refine (quiet_assign _ _).bind fun _ => quiet_get.bind fun w => ?_
      refine (quiet_appendToList env event _).bind fun r => keeps_ite ?_ (hleave (quiet_pure _))
      exact (quiet_printError _).bind fun _ =>
        hleave (quiet_bind (quiet_release data) fun _ => hfree event)

theorem keeps_emsCreate (id : UInt32) (rows cols : UInt64) :
    Keeps none (emsCreate env id rows cols) fun _ => none := by
  have hstop : ∀ msg, Keeps none (do printError msg; return (1 : Int32)) fun _ => none := fun msg =>
    (quiet_bind (quiet_printError msg) fun _ => quiet_pure _).keeps
  refine keeps_searched id (hstop _) (hstop _) fun event =>
    keeps_ite ?_ (keeps_createEvent henv _ _ _)
  exact (quiet_printError _).bind fun _ =>
    (keeps_leaveList henv).bind fun _ => (quiet_pure _).keeps

theorem keeps_emsReserveLookup (id : UInt32) :
    Keeps none (emsReserveLookup env id) fun _ => none := by
  have hstop : ∀ msg, Quiet (do printError msg; return (.inl 1 : Int32 ⊕ Ptr)) := fun msg =>
    quiet_bind (quiet_printError msg) fun _ => quiet_pure _
  refine keeps_searched id (hstop _).keeps (hstop _).keeps fun event => ?_
  refine (keeps_unlockList henv).bind fun ok => keeps_ite (hstop _).keeps ?_
  cases event with
  | none => exact (hstop _).keeps
  | some event => exact (quiet_pure _).keeps

omit henv in
theorem keeps_cellTaken (event : Event) (xs ys : List UInt64) (i : UInt64) : ∀ n j : Nat,
    Keeps (some (.event p)) (cellTaken p event xs ys i n j) fun _ => some (.event p)
  | 0, _ => keeps_pure rfl
  | n + 1, j => by
      rw [cellTaken]
      refine (quiet_index _ _).bind fun x => (quiet_index _ _).bind fun y => ?_
      refine keeps_ite (keeps_cellTaken event xs ys i n (j + 1)) ?_
      exact (keeps_loadCell _ _).bind fun c => keeps_pure rfl

omit henv in
theorem keeps_someCellTaken (event : Event) (num_seats : UInt64) (xs ys : List UInt64) :
    ∀ n i : Nat, Keeps (some (.event p)) (someCellTaken p event num_seats xs ys n i)
      fun _ => some (.event p)
  | 0, _ => keeps_pure rfl
  | n + 1, i => by
      rw [someCellTaken]
      refine (keeps_cellTaken event xs ys _ _ _).bind fun taken => keeps_ite (keeps_pure rfl) ?_
      exact keeps_someCellTaken event num_seats xs ys n (i + 1)

omit henv in
theorem keeps_writeSeats (event : Event) (reservation_id : UInt32) (xs ys : List UInt64) :
    ∀ n i : Nat, Keeps (some (.event p)) (writeSeats p event reservation_id xs ys n i)
      fun _ => some (.event p)
  | 0, _ => keeps_pure rfl
  | n + 1, i => by
      rw [writeSeats]
      refine (quiet_index _ _).bind fun x => (quiet_index _ _).bind fun y => ?_
      exact (keeps_storeCell _ _ _).bind fun _ =>
        keeps_writeSeats event reservation_id xs ys n (i + 1)

omit henv in
theorem keeps_nextReservation :
    Keeps (some (.event p)) (nextReservation p) fun _ => some (.event p) :=
  keeps_touch.bind fun _ => (quiet_deref _).bind fun _ => (quiet_assign _ _).bind fun _ =>
    keeps_pure rfl

theorem keeps_emsReserveLocked (num_seats : UInt64) (xs ys : List UInt64) :
    Keeps none (emsReserveLocked env p num_seats xs ys) fun _ => none := by
  have hleave : ∀ code : Int32, Keeps (some (.event p))
      (leaveEvent env p >>= fun _ => return code) fun _ => none := fun code =>
    (keeps_leaveEvent henv).bind fun _ => keeps_pure rfl
  refine keeps_lockEvent ((quiet_printError _).bind fun _ => keeps_pure rfl) ?_
  refine (quiet_deref _).bind fun event => (quiet_seatsInBounds _ _ _ _ _).bind fun ok => ?_
  refine keeps_ite ((quiet_printError _).bind fun _ => hleave 1) ?_
  refine (keeps_someCellTaken event num_seats xs ys _ _).bind fun taken => ?_
  refine keeps_ite ((quiet_printError _).bind fun _ => hleave 1) ?_
  exact keeps_nextReservation.bind fun id => (keeps_writeSeats event id xs ys _ _).bind fun _ =>
    hleave 0

/-! ### Showing -/

theorem keeps_emsShowLookup (id : UInt32) : Keeps none (emsShowLookup env id) fun _ => none := by
  have hstop : Quiet (do respond 1; return (.inl 1 : Int32 ⊕ Ptr)) :=
    quiet_bind (quiet_respond 1) fun _ => quiet_pure _
  refine keeps_searched id ((quiet_printError _).bind fun _ => hstop.keeps) hstop.keeps
    fun event => ?_
  refine (keeps_leaveList henv).bind fun _ => ?_
  cases event with
  | none => exact (quiet_printError _).bind fun _ => hstop.keeps
  | some event => exact keeps_pure rfl

theorem keeps_writeHolding {buffer : Bytes} {next : Op Int32}
    (hnext : Keeps (some (.event p)) next fun _ => none) :
    Keeps (some (.event p)) (writeHolding env p buffer next) fun _ => none := by
  refine (quiet_write buffer).bind fun ok => keeps_ite ?_ hnext
  exact (quiet_printError _).bind fun _ => (keeps_leaveEvent henv).bind fun _ => keeps_pure rfl

theorem keeps_writeCells (event : Event) : ∀ n i : Nat,
    Keeps (some (.event p)) (writeCells env p event n i) fun _ => none
  | 0, _ => (keeps_leaveEvent henv).bind fun _ => keeps_pure rfl
  | n + 1, i => by
      rw [writeCells]
      refine (keeps_loadCell _ _).bind fun c => keeps_writeHolding henv ?_
      exact keeps_writeCells event n (i + 1)

theorem keeps_emsShowLocked : Keeps none (emsShowLocked env p) fun _ => none := by
  refine keeps_lockEvent ?_ ((quiet_deref _).bind fun event => ?_)
  · exact (quiet_printError _).bind fun _ => (quiet_respond 1).bind fun _ => keeps_pure rfl
  · refine keeps_writeHolding henv (keeps_writeHolding henv (keeps_writeHolding henv ?_))
    exact keeps_writeCells henv event _ _

theorem keeps_emsShowStdoutLookup (id : UInt32) :
    Keeps none (emsShowStdoutLookup env id) fun _ => none := by
  have hstop : ∀ msg, Quiet (do printError msg; return (.inl 1 : Int32 ⊕ Ptr)) := fun msg =>
    quiet_bind (quiet_printError msg) fun _ => quiet_pure _
  refine keeps_searched id (hstop _).keeps (hstop _).keeps fun event => ?_
  refine (keeps_leaveList henv).bind fun _ => ?_
  cases event with
  | none => exact (hstop _).keeps
  | some event => exact keeps_pure rfl

theorem keeps_printHolding {str : Bytes} {next : Op Int32}
    (hnext : Keeps (some (.event p)) next fun _ => none) :
    Keeps (some (.event p)) (printHolding env p str next) fun _ => none := by
  have hstop : Keeps (some (.event p)) (do
      printError "Error writing to file descriptor.\n"
      let _ ← unlockEvent env p
      return (1 : Int32)) fun _ => none :=
    (quiet_printError _).bind fun _ => (keeps_unlockEvent henv).bind fun _ => keeps_pure rfl
  intro w
  exact keeps_ite (p := (printStr w.fd str).1 ≠ 0) hstop hnext
    { w with fd := (printStr w.fd str).2 }

theorem keeps_printSeats (event : Event) (i : UInt64) {next : Op Int32}
    (hnext : Keeps (some (.event p)) next fun _ => none) : ∀ (fuel : Nat) (j : UInt64),
    Keeps (some (.event p)) (printSeats env p event i next fuel j) fun _ => none
  | 0, _ => keeps_throw _
  | fuel + 1, j => by
      rw [printSeats]
      have hrest := keeps_printSeats event i hnext fuel (j + 1)
      refine keeps_ite ((keeps_loadCell _ _).bind fun c => keeps_printHolding henv ?_) hnext
      exact keeps_ite (keeps_printHolding henv hrest) hrest

theorem keeps_printRows (event : Event) (width : Nat) : ∀ (fuel : Nat) (i : UInt64),
    Keeps (some (.event p)) (printRows env p event width fuel i) fun _ => none
  | 0, _ => keeps_throw _
  | fuel + 1, i => by
      rw [printRows]
      refine keeps_ite ?_ ((keeps_unlockEvent henv).bind fun _ => keeps_pure rfl)
      refine keeps_printSeats henv event i (keeps_printHolding henv ?_) _ _
      exact keeps_printRows event width fuel (i + 1)

theorem keeps_emsShowStdoutLocked (fuel : Nat) :
    Keeps none (emsShowStdoutLocked env fuel p) fun _ => none := by
  refine keeps_lockEvent ((quiet_printError _).bind fun _ => keeps_pure rfl) ?_
  exact (quiet_deref _).bind fun event => keeps_printRows henv event fuel fuel 1

/-! ### Listing -/

theorem keeps_writeListing {buffer : Bytes} {next : Op Int32}
    (hnext : Keeps (some .list) next fun _ => none) :
    Keeps (some .list) (writeListing env buffer next) fun _ => none := by
  refine (quiet_write buffer).bind fun ok => keeps_ite ?_ hnext
  exact (quiet_printError _).bind fun _ => (keeps_leaveList henv).bind fun _ => keeps_pure rfl

theorem keeps_writeIds (toNode : Option Ptr) : ∀ (fuel : Nat) (current : Option Ptr),
    Keeps (some .list) (writeIds env toNode fuel current) fun _ => none
  | 0, _ => keeps_throw _
  | fuel + 1, current => by
      rw [writeIds]
      refine (quiet_deref _).bind fun node => (quiet_deref _).bind fun event => ?_
      refine keeps_writeListing henv (keeps_ite ?_ (keeps_writeIds toNode fuel node.next))
      exact (keeps_leaveList henv).bind fun _ => keeps_pure rfl

theorem keeps_emsListEvents : Keeps none (emsListEvents env) fun _ => none := by
  have hstop : Quiet (do respond 1; return (1 : Int32)) :=
    quiet_bind (quiet_respond 1) fun _ => quiet_pure _
  refine quiet_get.bind fun w => keeps_ite ((quiet_printError _).bind fun _ => hstop.keeps) ?_
  refine keeps_lockList ((quiet_printError _).bind fun _ => hstop.keeps) ?_
  refine quiet_get.bind fun w => (quiet_deref _).bind fun list => keeps_ite ?_ ?_
  · exact (quiet_write _).bind fun _ => (keeps_leaveList henv).bind fun _ => keeps_pure rfl
  · refine keeps_writeListing henv (quiet_get.bind fun w => ?_)
    refine (quiet_countEvents _ _ _ _).bind fun n => keeps_writeListing henv ?_
    refine quiet_get.bind fun w => (quiet_deref _).bind fun again => quiet_get.bind fun w' => ?_
    exact keeps_writeIds henv _ _ _

end Operations

/-! ## Calls -/

/-- A call of one of the operations on the store. -/
inductive StoreOp where
  | call (c : Call)
  | emsShowStdout (fuel : Nat) (event_id : UInt32)

def StoreOp.op (env : Env) : StoreOp → Op Int32
  | .call c => c.op env
  | .emsShowStdout fuel event_id => EventServer.emsShowStdout env fuel event_id

/-- Some run of the program, from whatever store, makes the accesses `t` and returns `r`. -/
def Makes {α : Type} (x : Op α) (r : α) (t : List Access) : Prop :=
  ∃ w w', x.run w = .ok (r, w') ∧ w'.trace = w.trace ++ t

/-- The accesses of a look-up, and of what follows at the event it has found; in between, other
    threads may have changed the store. -/
def Interrupted (lookup : Op (Int32 ⊕ Ptr)) (locked : Ptr → Op Int32) (t : List Access) : Prop :=
  (∃ code, Makes lookup (.inl code) t) ∨
    ∃ p code t₁ t₂, Makes lookup (.inr p) t₁ ∧ Makes (locked p) code t₂ ∧ t = t₁ ++ t₂

/-- The accesses that a call can make while other threads run. -/
def StoreOp.Traced (env : Env) : StoreOp → List Access → Prop
  | .call (.emsCreate event_id num_rows num_cols), t =>
    ∃ code, Makes (emsCreate env event_id num_rows num_cols) code t
  | .call (.emsReserve event_id args), t =>
    Interrupted (emsReserveLookup env event_id)
      (fun p => emsReserveLocked env p args.num_seats args.xs args.ys) t
  | .call (.emsShow event_id), t =>
    Interrupted (emsShowLookup env event_id) (emsShowLocked env) t
  | .call .emsListEvents, t => ∃ code, Makes (emsListEvents env) code t
  | .emsShowStdout fuel event_id, t =>
    Interrupted (emsShowStdoutLookup env event_id) (emsShowStdoutLocked env fuel) t

section Traced

variable {α : Type} {x : Op α} {a : Option Lock} {b : α → Option Lock} {r : α} {t : List Access}

theorem Keeps.leads (h : Keeps a x b) (ht : Makes x r t) : Leads a (b r) t := by
  obtain ⟨w, w', hrun, htrace⟩ := ht
  obtain ⟨t', htrace', hleads⟩ := wp_run_ok (h w) hrun
  rwa [List.append_cancel_left (htrace.symm.trans htrace')]

theorem Interrupted.leads {lookup : Op (Int32 ⊕ Ptr)} {locked : Ptr → Op Int32}
    (h : Interrupted lookup locked t) (hlookup : Keeps none lookup fun _ => none)
    (hlocked : ∀ p, Keeps none (locked p) fun _ => none) : Leads none none t := by
  obtain ⟨code, h⟩ | ⟨p, code, t₁, t₂, h₁, h₂, rfl⟩ := h
  · exact hlookup.leads h
  · exact (hlookup.leads h₁).append ((hlocked p).leads h₂)

/-- **Every call keeps the discipline**, whatever fails and whatever other threads do. -/
theorem StoreOp.Traced.leads {env : Env} (henv : env.Unlocks) {op : StoreOp}
    (h : op.Traced env t) : Leads none none t := by
  cases op with
  | call c =>
    cases c with
    | emsCreate id rows cols => exact h.elim fun _ h => (keeps_emsCreate henv id rows cols).leads h
    | emsReserve id args =>
      exact Interrupted.leads h (keeps_emsReserveLookup henv id) fun _ =>
        keeps_emsReserveLocked henv _ _ _
    | emsShow id =>
      exact Interrupted.leads h (keeps_emsShowLookup henv id) fun _ => keeps_emsShowLocked henv
    | emsListEvents => exact h.elim fun _ h => (keeps_emsListEvents henv).leads h
  | emsShowStdout fuel id =>
    exact Interrupted.leads h (keeps_emsShowStdoutLookup henv id) fun _ =>
      keeps_emsShowStdoutLocked henv fuel

theorem Keeps.makes (h : Keeps a x b) (w : World) :
    wp x (fun r w' => ∃ t, w'.trace = w.trace ++ t ∧ Makes x r t) (fun _ => True) w := by
  unfold wp
  split
  · next r w' hrun =>
    obtain ⟨t, ht, -⟩ := wp_run_ok (h w) hrun
    exact ⟨t, ht, w, w', hrun, ht⟩
  · trivial

theorem interrupted_of_run {lookup : Op (Int32 ⊕ Ptr)} {locked : Ptr → Op Int32}
    (hlookup : Keeps none lookup fun _ => none)
    (hlocked : ∀ p, Keeps none (locked p) fun _ => none) (w : World) :
    wp (do match ← lookup with
          | .inl code => return code
          | .inr event => locked event)
      (fun _ w' => ∃ t, w'.trace = w.trace ++ t ∧ Interrupted lookup locked t) (fun _ => True) w := by
  rw [wp_bind]
  refine wp_mono (hlookup.makes w) (fun r w₁ hr => ?_) fun _ he => he
  obtain ⟨t₁, ht₁, hmakes₁⟩ := hr
  cases r with
  | inl code => exact ⟨t₁, ht₁, Or.inl ⟨code, hmakes₁⟩⟩
  | inr p =>
    refine wp_mono ((hlocked p).makes w₁) (fun code w₂ hr => ?_) fun _ he => he
    obtain ⟨t₂, ht₂, hmakes₂⟩ := hr
    exact ⟨t₁ ++ t₂, by rw [ht₂, ht₁, List.append_assoc],
      Or.inr ⟨p, code, t₁, t₂, hmakes₁, hmakes₂, rfl⟩⟩

/-- A call that nothing comes between is a special case. -/
theorem StoreOp.traced_of_run {env : Env} (henv : env.Unlocks) (op : StoreOp) (w : World) :
    wp (op.op env) (fun _ w' => ∃ t, w'.trace = w.trace ++ t ∧ op.Traced env t) (fun _ => True) w := by
  have hone : ∀ {x : Op Int32}, Keeps none x (fun _ => none) →
      wp x (fun _ w' => ∃ t, w'.trace = w.trace ++ t ∧ ∃ code, Makes x code t) (fun _ => True) w :=
    fun hx => wp_mono (hx.makes w) (fun r _ ⟨t, ht, hm⟩ => ⟨t, ht, r, hm⟩) fun _ he => he
  cases op with
  | call c =>
    cases c with
    | emsCreate id rows cols => exact hone (keeps_emsCreate henv id rows cols)
    | emsReserve id args =>
      exact interrupted_of_run (keeps_emsReserveLookup henv id)
        (fun _ => keeps_emsReserveLocked henv _ _ _) w
    | emsShow id =>
      exact interrupted_of_run (keeps_emsShowLookup henv id) (fun _ => keeps_emsShowLocked henv) w
    | emsListEvents => exact hone (keeps_emsListEvents henv)
  | emsShowStdout fuel id =>
    exact interrupted_of_run (keeps_emsShowStdoutLookup henv id)
      (fun _ => keeps_emsShowStdoutLocked henv fuel) w

end Traced

/-- What a thread does that makes calls, one after the other. -/
def CallsInTurn (t : List Access) : Prop :=
  ∃ ts : List (List Access), t = ts.flatten ∧
    ∀ t' ∈ ts, ∃ (op : StoreOp) (env : Env), env.Unlocks ∧ op.Traced env t'

theorem CallsInTurn.disciplined {t : List Access} (h : CallsInTurn t) :
    Disciplined (t.map Access.action) := by
  obtain ⟨ts, rfl, hts⟩ := h
  refine disciplined_of_exec ?_
  rw [List.map_flatten]
  refine exec_flatten fun as has => ?_
  obtain ⟨t', ht', rfl⟩ := List.mem_map.1 has
  obtain ⟨op, env, henv, htraced⟩ := hts t' ht'
  exact htraced.leads henv

/-- The arguments are valid, and the seats of the events have their cells. -/
def StoreOp.Ready (es : List Entry) : StoreOp → Prop
  | .call c => c.Valid ∧ Fitting es
  | .emsShowStdout fuel event_id => ∀ e, findId es event_id = some e →
    NoWrap e.ev.rows e.ev.cols ∧ ¬ e.Endless ∧ e.ev.rows.toNat < fuel ∧ e.ev.cols.toNat < fuel

/-- Then the call returns. -/
theorem StoreOp.returns {w : World} {l : Ptr} {es : List Entry} (h : Rep w.mem l es) {op : StoreOp}
    (hop : op.Ready es) (env : Env) : ∃ code w', (op.op env).run w = .ok (code, w') := by
  have hwp : wp (op.op env) (fun _ _ => True) (fun _ => False) w := by
    cases op with
    | call c =>
      obtain ⟨hvalid, hes⟩ := hop
      cases c with
      | emsCreate id rows cols =>
        exact wp_mono (wp_emsCreate h rows cols) (fun _ _ _ => trivial) fun _ he => he
      | emsReserve id args =>
        exact wp_mono (wp_emsReserve h (SeatArgs.Within.length_le hvalid) fun e hfind hwrap _ =>
          hwrap (hes e (findId_eq_some hfind).1)) (fun _ _ _ => trivial) fun _ he => he
      | emsShow id => exact wp_mono (wp_emsShow h id) (fun _ _ _ => trivial) fun _ he => he
      | emsListEvents => exact wp_mono (wp_emsListEvents h) (fun _ _ _ => trivial) fun _ he => he
    | emsShowStdout fuel id =>
      refine wp_mono (wp_emsShowStdout_mem h fun e hfind => ?_) (fun _ _ _ => trivial)
        fun _ he => he
      obtain ⟨hfit, hend, hrows, hcols⟩ := hop e hfind
      exact h.stops_none (findId_eq_some hfind).1 hfit hend hrows hcols
  obtain ⟨code, w', hrun, -⟩ := run_of_wp hwp
  exact ⟨code, w', hrun⟩

/-- **Lock discipline.** Every call that returns has given back every lock it took, each once, and
    no other; it has touched an event's seats and counter only under the event's mutex, and asked
    for a lock only while it held none. So of any threads that make calls, one that cannot go on
    waits for a lock that a thread that can go on holds or gets. On a well-formed store whose
    events fit the calls do return. -/
theorem lock_discipline :
    (∀ (op : StoreOp) (env : Env) (w w' : World) (code : Int32), env.Unlocks →
      (op.op env).run w = .ok (code, w') →
        ∃ t, w'.trace = w.trace ++ t ∧ Disciplined (t.map Access.action)) ∧
    (∀ (ι : Type) [DecidableEq ι] (grants : Crew.Policy ι Lock) (work : ι → List Access)
      (is : List ι) (s : Crew ι Lock), grants.Gives → (∀ i, CallsInTurn (work i)) →
      exec (Crew.step grants) (Crew.start fun i => (work i).map Access.action) is = some s →
        ∀ i, s.todo i ≠ [] → (Crew.step grants s i).isSome ∨
          ∃ l j, s.Waits i l ∧ (s.Holds j l ∨ s.Waits j l) ∧ (Crew.step grants s j).isSome) ∧
    ∀ (op : StoreOp) (env : Env) (w : World) (l : Ptr) (es : List Entry), Rep w.mem l es →
      op.Ready es → ∃ code w', (op.op env).run w = .ok (code, w') := by
  refine ⟨fun op env w w' code henv hrun => ?_,
    fun ι _ grants work is s hgrants hwork hs i hi => ?_, fun op env w l es h hop => ?_⟩
  · obtain ⟨t, ht, htraced⟩ := wp_run_ok (op.traced_of_run henv w) hrun
    exact ⟨t, ht, disciplined_of_exec (htraced.leads henv)⟩
  · exact Crew.never_stuck hgrants (fun i => (hwork i).disciplined) hs hi
  · exact StoreOp.returns h hop env

/-- A SHOW whose client has gone before the second seat is sent; two LIST calls, one of which has the
    lock; and a call for an event that does not exist. -/
theorem lock_discipline_sample :
    (∃ m w', runOp (emsCreate {} 7 1 2) freshMem = some ((0, []), m) ∧
      (emsShow {} 7).run { mem := m, fd := { turns := [.go 3, .go 7, .go 7, .go 3, .fail] } } =
        .ok (1, w') ∧
      ∃ t, w'.trace = [] ++ t ∧ Disciplined (t.map Access.action)) ∧
    (∃ s, exec (Crew.step .exclusive)
        (Crew.start fun _ : Bool => [Access.acquire .list, .release .list].map Access.action) [true] =
          some s ∧
      ∀ i, s.todo i ≠ [] → (Crew.step .exclusive s i).isSome ∨
        ∃ l j, s.Waits i l ∧ (s.Holds j l ∨ s.Waits j l) ∧ (Crew.step .exclusive s j).isSome) ∧
    ∃ code w', (emsShowStdout {} 3 7).run { mem := freshMem } = .ok (code, w') := by
  have hwork : CallsInTurn [Access.acquire .list, .release .list] :=
    ⟨[_], (List.flatten_singleton).symm, List.forall_mem_singleton.2
      ⟨.call .emsListEvents, {}, ⟨rfl, rfl⟩, 1, { mem := freshMem }, _, rfl, rfl⟩⟩
  have hshow : ∃ m w', runOp (emsCreate {} 7 1 2) freshMem = some ((0, []), m) ∧
      (emsShow {} 7).run { mem := m, fd := { turns := [.go 3, .go 7, .go 7, .go 3, .fail] } } =
        .ok (1, w') := ⟨_, _, rfl, rfl⟩
  obtain ⟨m, w', hm, hrun⟩ := hshow
  refine ⟨⟨m, w', hm, hrun, ?_⟩, ⟨_, rfl, ?_⟩, ?_⟩
  · exact lock_discipline.1 (.call (.emsShow 7)) {} _ w' 1 ⟨rfl, rfl⟩ hrun
  · exact lock_discipline.2.1 Bool .exclusive _ [true] _ Crew.Policy.exclusive_gives
      (fun _ => hwork) rfl
  · exact lock_discipline.2.2 (.emsShowStdout 3 7) {} { mem := freshMem } 0 [] rep_freshMem
      fun e hfind => by cases hfind

end EventServer
