import EventServer.Server.Requests
import EventServer.Server.Session

/-
  The queue of `server/main.c` between the main thread and the workers.

  The main thread passes each request to a thread that runs `insert_request` and waits for it; so
  there is one inserting thread at a time (`Producer`). A worker tests `count` in one critical
  section of `worker_function` and takes the request in another one, of `retrieve_request`, and
  then runs `handle_client`. An `Action` is a critical section, a wake-up, or a round of
  `handle_client`; `queueStep` is what it does. The store that `handle_client` works on can change
  at any time.
-/

namespace EventServer

open Lib

abbrev MAX_SESSION_COUNT : Nat := 2

/-! ## The shared buffer -/

/-- The shared variables: the buffer, the index to insert a request, the index to remove one, the
    number of requests in the buffer and the number of active sessions. -/
structure Queue where
  buffer : List Request
  in_ : Nat := 0
  out : Nat := 0
  count : Int := 0
  session_counter : Int32 := 0
  deriving DecidableEq, Repr

namespace Queue

/-- The body of `insert_request` once the buffer is not full: the request as it is stored, and
    the queue. -/
def insert (q : Queue) (request : Request) : Request × Queue :=
  let request := { request with session_id := q.session_counter }
  (request, { q with
    buffer := q.buffer.set q.in_ request
    in_ := (q.in_ + 1) % MAX_SESSION_COUNT
    count := q.count + 1
    session_counter := q.session_counter + 1 })

/-- `retrieve_request`; `none` is a read outside the buffer. -/
def retrieve (q : Queue) : Option (Request × Queue) :=
  q.buffer[q.out]?.map fun request =>
    (request, { q with out := (q.out + 1) % MAX_SESSION_COUNT, count := q.count - 1 })

/-- `remove_session`; without a session of that id it writes behind the buffer. -/
def removeSession (q : Queue) (session_id : Int32) : Option Queue :=
  (q.buffer.findIdx? fun request => request.session_id = session_id).map fun i =>
    { q with
      buffer := q.buffer.set i ⟨-1, [], [], []⟩
      session_counter := q.session_counter - 1
      count := q.count - 1 }

end Queue

/-! ## The threads -/

/-- The thread that inserts requests. -/
inductive Producer where
  /-- There is none: the main thread is reading from the server pipe. -/
  | extracting
  /-- It is about to lock the mutex and test `count`. -/
  | entering (request : Request)
  /-- It waits on `not_full_cond`. -/
  | parked (request : Request)
  deriving DecidableEq, Repr

/-- A worker thread. -/
inductive Worker where
  /-- It is about to lock the mutex and test `count`. -/
  | testing
  /-- It waits on `not_empty_cond`. -/
  | parked
  /-- It has found `count` not to be 0 and is about to call `retrieve_request`. -/
  | retrieving
  /-- It is about to call `handle_client` with this request. -/
  | handling (request : Request)
  /-- It is in the loop of `handle_client`. -/
  | serving (session : Session)
  /-- It has these calls of `remove_session` to make before `handle_client` ends. -/
  | removing (session_ids : List Int32) (ending : Ending)
  /-- It has exited. -/
  | gone
  deriving DecidableEq, Repr

abbrev WorkerId := Fin MAX_SESSION_COUNT

/-- The queue and its threads, with what has happened: the requests as they were stored, and the
    requests as they were handed to workers. -/
structure Server where
  queue : Queue
  producer : Producer := .extracting
  workers : WorkerId → Worker := fun _ => .testing
  inserted : List Request := []
  retrieved : List Request := []

inductive Action where
  /-- `extract_requests` has a request to insert. -/
  | extract (request : Request)
  /-- The critical section of `insert_request` up to its end or to the wait; the signal wakes the
      worker `woken`, if any waits. -/
  | insert (woken : Option WorkerId)
  /-- The inserting thread wakes up without a signal. -/
  | wakeProducer
  /-- The critical section of `worker_function`, up to its end or to the wait. -/
  | test (i : WorkerId)
  /-- A worker wakes up without a signal. -/
  | wake (i : WorkerId)
  | retrieve (i : WorkerId)
  /-- `handle_client` begins with this state, whatever the client sends. -/
  | start (i : WorkerId) (opens : Opens) (session : Session)
  /-- A round of the loop of `handle_client`, with what the store has become. -/
  | next (i : WorkerId) (service : Service)
  /-- The critical section of a call of `remove_session`. -/
  | remove (i : WorkerId)
  /-- `handle_client` ends. -/
  | leave (i : WorkerId)

/-- Worker `i` goes on in another place. -/
def Server.goOn (s : Server) (i : WorkerId) (w : Worker) : Server :=
  { s with workers := Function.update s.workers i w }

/-- Where a worker stands after a part of `handle_client`. -/
def afterPart : Except Stop (Option Ending × Session) → Option Worker
  | .ok (none, session) => some (.serving session)
  | .ok (some ending, session) => some (.removing session.removed ending)
  | .error _ => none

/-- `pthread_cond_signal(&not_empty_cond)`, which wakes a worker if one waits. -/
def Server.signalNotEmpty (s : Server) : Option WorkerId → Option Server
  | none => if ∀ i, s.workers i ≠ .parked then some s else none
  | some i => if s.workers i = .parked then some (s.goOn i .testing) else none

/-- `pthread_cond_signal(&not_full_cond)`. -/
def Server.signalNotFull (s : Server) : Server :=
  match s.producer with
  | .parked request => { s with producer := .entering request }
  | _ => s

def queueStep (s : Server) : Action → Option Server
  | .extract request =>
    if s.producer = .extracting then some { s with producer := .entering request } else none
  | .insert woken =>
    match s.producer with
    | .entering request =>
      if s.queue.count = MAX_SESSION_COUNT then some { s with producer := .parked request }
      else
        let (stored, queue) := s.queue.insert request
        { s with queue, producer := .extracting,
                 inserted := s.inserted ++ [stored] }.signalNotEmpty woken
    | _ => none
  | .wakeProducer =>
    match s.producer with
    | .parked request => some { s with producer := .entering request }
    | _ => none
  | .test i =>
    if s.workers i = .testing then
      some (s.goOn i (if s.queue.count = 0 then .parked else .retrieving))
    else none
  | .wake i => if s.workers i = .parked then some (s.goOn i .testing) else none
  | .retrieve i =>
    if s.workers i = .retrieving then
      s.queue.retrieve.map fun (request, queue) =>
        { s with queue, retrieved := s.retrieved ++ [request] }.goOn i (.handling request)
    else none
  | .start i opens session =>
    match s.workers i with
    | .handling request =>
      if session.locals.session_id.bytes = intBytes request.session_id ∧ session.removed = [] ∧
          session.descriptors = [] then
        (afterPart ((openSession opens).run session)).map (s.goOn i)
      else none
    | _ => none
  | .next i service =>
    match s.workers i with
    | .serving session => (afterPart (handleNext.run { session with service })).map (s.goOn i)
    | _ => none
  | .remove i =>
    match s.workers i with
    | .removing (session_id :: session_ids) ending =>
      (s.queue.removeSession session_id).map fun queue =>
        ({ s with queue }.signalNotFull).goOn i (.removing session_ids ending)
    | _ => none
  | .leave i =>
    match s.workers i with
    | .removing [] .returned => some (s.goOn i .testing)
    | .removing [] .exited => some (s.goOn i .gone)
    | _ => none

/-- The server after it has created its workers; the buffer is zero. -/
def startServer : Server where
  queue := { buffer := List.replicate MAX_SESSION_COUNT ⟨0, [], [], []⟩ }

/-! ## `remove_session` is not reached -/

/-- The program makes no call of `remove_session`. -/
def RemovesNone {α : Type} (x : Handler α) : Prop :=
  ∀ s : Session, wp x (fun _ s' => s'.removed = s.removed) (fun _ => True) s

/-- The program leaves alone what `g` says of the calls of `remove_session` and of `free`, and of
    the pipes that are open. -/
def Leaves {α β : Type} (g : List Int32 → Nat → List Pipe → β) (x : Handler α) : Prop :=
  ∀ s : Session, wp x (fun _ s' => g s'.removed s'.frees s'.descriptors =
    g s.removed s.frees s.descriptors) (fun _ => True) s

section Leaves

variable {α β γ : Type} {g : List Int32 → Nat → List Pipe → γ}

theorem Leaves.bind {x : Handler α} {f : α → Handler β} (hx : Leaves g x)
    (hf : ∀ a, Leaves g (f a)) : Leaves g (x >>= f) := fun s => by
  rw [wp_bind]
  refine wp_mono (hx s) (fun a s' hs' => ?_) fun _ he => he
  exact wp_mono (hf a s') (fun _ s'' hs'' => hs''.trans hs') fun _ he => he

theorem leaves_onService (x : Serve α) : Leaves g (Handler.onService x) := fun _ =>
  wp_onService.2 (wp_mono (wp_trivial x) (fun _ _ _ => rfl) fun _ he => he)

theorem leaves_readInto {n : Nat} (var : Locals → Buffer n) (put : Locals → Buffer n → Locals)
    (size : UInt64) : Leaves g (Handler.readInto var put size) := fun s => by
  simp only [Handler.readInto, wp_bind, wp_get]
  split
  · trivial
  · simp only [wp_bind, wp_set]
    split
    · trivial
    · rfl

theorem Leaves.readOr {msg : String} {read : Handler Int} {next : Handler Unit}
    (hread : Leaves g read) (hnext : Leaves g next) : Leaves g (Handler.readOr msg read next) :=
  hread.bind fun ret => by
    split
    · exact (leaves_onService _).bind fun _ => leaves_onService _
    · exact hnext

theorem leaves_serve (op_code : UInt8) : Leaves g (serve op_code) :=
  Leaves.bind (fun _ => rfl) fun _ => leaves_onService _

theorem leaves_handleOp (op_code : UInt8) : Leaves g (handleOp op_code) := by
  have hxs : Leaves g Handler.readXs := Leaves.bind (fun _ => rfl) fun _ => leaves_readInto _ _ _
  have hys : Leaves g Handler.readYs := Leaves.bind (fun _ => rfl) fun _ => leaves_readInto _ _ _
  have hread {n : Nat} {var : Locals → Buffer n} {put : Locals → Buffer n → Locals} {size : UInt64}
      {msg : String} {next : Handler Unit} (hnext : Leaves g next) :
      Leaves g (Handler.readOr msg (Handler.readInto var put size) next) :=
    (leaves_readInto var put size).readOr hnext
  unfold handleOp
  split
  · exact hread (hread (hread (hread (leaves_serve 3))))
  · exact hread (hread (hread (hxs.readOr (hys.readOr (leaves_serve 4)))))
  · exact hread (hread (leaves_serve 5))
  · exact hread (leaves_serve 6)
  · exact leaves_serve _

/-- The loop goes on only with an op code other than that of `ems_quit`. -/
theorem wp_nextOpCode (s : Session) :
    wp nextOpCode (fun op_code s' => g s'.removed s'.frees s'.descriptors =
      g s.removed s.frees s.descriptors ∧ op_code ≠ some 2) (fun _ => True) s := by
  simp only [nextOpCode, wp_bind, wp_get, wp_set]
  split
  · trivial
  · rw [wp_pure]
    refine ⟨rfl, ?_⟩
    split
    · next h => exact fun heq => h.2 (Option.some.inj heq)
    · simp

/-- So a round never comes to the case of `ems_quit`. -/
theorem wp_handleNext_leaves (s : Session) :
    wp handleNext (fun ending s' => g s'.removed s'.frees s'.descriptors =
      g s.removed s.frees s.descriptors ∧ ending ≠ some .exited) (fun _ => True) s := by
  rw [handleNext, wp_bind]
  refine wp_mono (wp_nextOpCode (g := g) s) (fun op_code s' hs' => ?_) fun _ he => he
  obtain ⟨hs', hop⟩ := hs'
  cases op_code with
  | none => exact ⟨hs', by simp⟩
  | some op_code =>
    have hne : op_code ≠ 2 := fun h => hop (h ▸ rfl)
    simp only [if_neg hne]
    rw [wp_bind]
    exact wp_mono (leaves_handleOp op_code s') (fun _ s'' hs'' => ⟨hs''.trans hs', by simp⟩)
      fun _ he => he

theorem removesNone_handleNext : RemovesNone handleNext := fun s =>
  wp_mono (wp_handleNext_leaves (g := fun removed _ _ => removed) s) (fun _ _ h => h.1)
    fun _ he => he

theorem removesNone_freeAndExit (msg : String) : RemovesNone (freeAndExit msg) :=
  Leaves.bind (g := fun removed _ _ => removed) (leaves_onService _) fun _ =>
    Leaves.bind (fun _ => rfl) fun _ _ => rfl

theorem removesNone_openSession (opens : Opens) : RemovesNone (openSession opens) := by
  have hexit (msg : String) : Leaves (fun removed _ _ => removed)
      (do return some (← freeAndExit msg)) :=
    Leaves.bind (removesNone_freeAndExit msg) fun _ _ => rfl
  have hpipe (pipe : Pipe) (succeeds : Bool) : Leaves (fun removed _ _ => removed)
      (Handler.openPipe pipe succeeds) := fun _ => wp_openPipe.2 rfl
  have hopen : Leaves (fun removed _ _ => removed) (openSession opens) := by
    unfold openSession
    refine (hpipe _ _).bind fun server => ?_
    split
    · exact hexit _
    refine (hpipe _ _).bind fun request => ?_
    split
    · exact hexit _
    refine (hpipe _ _).bind fun response => ?_
    split
    · exact hexit _
    refine Leaves.bind (fun _ => rfl) fun s => (leaves_onService _).bind fun sent => ?_
    split
    · exact hexit _
    · exact fun _ => rfl
  exact hopen

end Leaves

/-! ## What an action does -/

/-- What an action makes of the threads, with what it found. -/
inductive Moves (s : Server) : Action → Server → Prop where
  | extract {request : Request} (h : s.producer = .extracting) :
      Moves s (.extract request) { s with producer := .entering request }
  | park {woken : Option WorkerId} {request : Request} (h : s.producer = .entering request)
      (hfull : s.queue.count = MAX_SESSION_COUNT) :
      Moves s (.insert woken) { s with producer := .parked request }
  | insert {woken : Option WorkerId} {request : Request} {workers : WorkerId → Worker}
      (h : s.producer = .entering request) (hroom : s.queue.count ≠ MAX_SESSION_COUNT)
      (hworkers : workers = s.workers ∨
        ∃ i, s.workers i = .parked ∧ workers = Function.update s.workers i .testing) :
      Moves s (.insert woken)
        { queue := (s.queue.insert request).2
          producer := .extracting
          workers := workers
          inserted := s.inserted ++ [(s.queue.insert request).1]
          retrieved := s.retrieved }
  | wakeProducer {request : Request} (h : s.producer = .parked request) :
      Moves s .wakeProducer { s with producer := .entering request }
  | test {i : WorkerId} (hw : s.workers i = .testing) :
      Moves s (.test i) (s.goOn i (if s.queue.count = 0 then .parked else .retrieving))
  | wake {i : WorkerId} (hw : s.workers i = .parked) : Moves s (.wake i) (s.goOn i .testing)
  | retrieve {i : WorkerId} {request : Request} {queue : Queue} (hw : s.workers i = .retrieving)
      (h : s.queue.retrieve = some (request, queue)) :
      Moves s (.retrieve i)
        ({ s with queue, retrieved := s.retrieved ++ [request] }.goOn i (.handling request))
  | start {i : WorkerId} {opens : Opens} {session : Session} {request : Request} {w : Worker}
      (hw : s.workers i = .handling request) (hsession : session.removed = [])
      (hclosed : session.descriptors = [])
      (hpart : afterPart ((openSession opens).run session) = some w) :
      Moves s (.start i opens session) (s.goOn i w)
  | next {i : WorkerId} {service : Service} {session : Session} {w : Worker}
      (hw : s.workers i = .serving session)
      (hpart : afterPart (handleNext.run { session with service }) = some w) :
      Moves s (.next i service) (s.goOn i w)
  | remove {i : WorkerId} {session_id : Int32} {session_ids : List Int32} {ending : Ending}
      {queue : Queue} (hw : s.workers i = .removing (session_id :: session_ids) ending) :
      Moves s (.remove i) (({ s with queue }.signalNotFull).goOn i (.removing session_ids ending))
  | back {i : WorkerId} (hw : s.workers i = .removing [] .returned) :
      Moves s (.leave i) (s.goOn i .testing)
  | exit {i : WorkerId} (hw : s.workers i = .removing [] .exited) :
      Moves s (.leave i) (s.goOn i .gone)

section Moves

variable {s s' : Server} {a : Action}

theorem signalNotEmpty_workers {woken : Option WorkerId} (h : s.signalNotEmpty woken = some s') :
    ∃ workers, s' = { s with workers := workers } ∧ (workers = s.workers ∨
      ∃ i, s.workers i = .parked ∧ workers = Function.update s.workers i .testing) := by
  cases woken with
  | none =>
    simp only [Server.signalNotEmpty] at h
    split at h
    · exact ⟨s.workers, (Option.some.inj h).symm, Or.inl rfl⟩
    · cases h
  | some i =>
    simp only [Server.signalNotEmpty] at h
    split at h
    · next hw => exact ⟨_, (Option.some.inj h).symm, Or.inr ⟨i, hw, rfl⟩⟩
    · cases h

/-- **The case of an action.** -/
theorem queueStep_moves (h : queueStep s a = some s') : Moves s a s' := by
  cases a with
  | extract request =>
    simp only [queueStep] at h
    split at h
    · next hp =>
      obtain rfl := Option.some.inj h
      exact .extract hp
    · cases h
  | insert woken =>
    simp only [queueStep] at h
    split at h
    · next request hp =>
      split at h
      · next hfull =>
        obtain rfl := Option.some.inj h
        exact .park hp hfull
      · next hroom =>
        obtain ⟨workers, rfl, hworkers⟩ := signalNotEmpty_workers h
        exact .insert hp hroom hworkers
    · cases h
  | wakeProducer =>
    simp only [queueStep] at h
    split at h
    · next request hp =>
      obtain rfl := Option.some.inj h
      exact .wakeProducer hp
    · cases h
  | test i =>
    simp only [queueStep] at h
    split at h
    · next hw =>
      obtain rfl := Option.some.inj h
      exact .test hw
    · cases h
  | wake i =>
    simp only [queueStep] at h
    split at h
    · next hw =>
      obtain rfl := Option.some.inj h
      exact .wake hw
    · cases h
  | retrieve i =>
    simp only [queueStep] at h
    split at h
    · next hw =>
      obtain ⟨⟨request, queue⟩, hq, rfl⟩ := Option.map_eq_some_iff.1 h
      exact .retrieve hw hq
    · cases h
  | start i opens session =>
    simp only [queueStep] at h
    split at h
    · next request hw =>
      split at h
      · next hsession =>
        obtain ⟨w, hpart, rfl⟩ := Option.map_eq_some_iff.1 h
        exact .start hw hsession.2.1 hsession.2.2 hpart
      · cases h
    · cases h
  | next i service =>
    simp only [queueStep] at h
    split at h
    · next session hw =>
      obtain ⟨w, hpart, rfl⟩ := Option.map_eq_some_iff.1 h
      exact .next hw hpart
    · cases h
  | remove i =>
    simp only [queueStep] at h
    split at h
    · next session_id session_ids ending hw =>
      obtain ⟨queue, -, rfl⟩ := Option.map_eq_some_iff.1 h
      exact .remove hw
    · cases h
  | leave i =>
    simp only [queueStep] at h
    split at h
    · next hw =>
      obtain rfl := Option.some.inj h
      exact .back hw
    · next hw =>
      obtain rfl := Option.some.inj h
      exact .exit hw
    · cases h

end Moves

/-! ### While there is nothing to remove -/

/-- The worker has no call of `remove_session` to make. -/
def Worker.Clean : Worker → Prop
  | .serving session => session.removed = []
  | .removing session_ids _ => session_ids = []
  | _ => True

/-- What an action does to the queue and the inserting thread, when no worker has a call of
    `remove_session` to make. -/
inductive Acts (s : Server) : Action → Server → Prop where
  | extract {request : Request} (h : s.producer = .extracting) :
      Acts s (.extract request) { s with producer := .entering request }
  | park {woken : Option WorkerId} {request : Request} (h : s.producer = .entering request)
      (hfull : s.queue.count = MAX_SESSION_COUNT) :
      Acts s (.insert woken) { s with producer := .parked request }
  | insert {woken : Option WorkerId} {request : Request} {workers : WorkerId → Worker}
      (h : s.producer = .entering request) (hroom : s.queue.count ≠ MAX_SESSION_COUNT) :
      Acts s (.insert woken)
        { queue := (s.queue.insert request).2
          producer := .extracting
          workers := workers
          inserted := s.inserted ++ [(s.queue.insert request).1]
          retrieved := s.retrieved }
  | wakeProducer {request : Request} (h : s.producer = .parked request) :
      Acts s .wakeProducer { s with producer := .entering request }
  | retrieve {i : WorkerId} {request : Request} {queue : Queue} {workers : WorkerId → Worker}
      (h : s.queue.retrieve = some (request, queue)) :
      Acts s (.retrieve i)
        { s with queue := queue, workers := workers, retrieved := s.retrieved ++ [request] }
  | work {a : Action} {workers : WorkerId → Worker} (ha : ∀ i, a ≠ .retrieve i) :
      Acts s a { s with workers := workers }

section Acts

variable {s s' : Server} {a : Action}

theorem clean_goOn (hs : ∀ i, (s.workers i).Clean) {i : WorkerId} {w : Worker} (hw : w.Clean) :
    ∀ j, ((s.goOn i w).workers j).Clean := by
  intro j
  by_cases hj : j = i
  · subst hj
    simpa [Server.goOn] using hw
  · simpa [Server.goOn, hj] using hs j

/-- A part of `handle_client` leaves nothing to remove. -/
theorem afterPart_clean {x : Handler (Option Ending)} (hx : RemovesNone x) {session : Session}
    (hs : session.removed = []) {w : Worker} (h : afterPart (x.run session) = some w) :
    w.Clean := by
  cases hrun : x.run session with
  | error e => simp [hrun, afterPart] at h
  | ok r =>
    obtain ⟨ending, session'⟩ := r
    have hremoved : session'.removed = [] := (wp_run_ok (hx session) hrun).trans hs
    rw [hrun] at h
    cases ending with
    | none =>
      obtain rfl := Option.some.inj h
      exact hremoved
    | some ending =>
      obtain rfl := Option.some.inj h
      exact hremoved

/-- **What an action does while no worker has a call of `remove_session` to make**: none ever
    has. -/
theorem queueStep_acts (hs : ∀ i, (s.workers i).Clean) (h : queueStep s a = some s') :
    Acts s a s' ∧ ∀ i, (s'.workers i).Clean := by
  cases queueStep_moves h with
  | extract hp => exact ⟨.extract hp, hs⟩
  | park hp hfull => exact ⟨.park hp hfull, hs⟩
  | insert hp hroom hworkers =>
    refine ⟨.insert hp hroom, ?_⟩
    obtain rfl | ⟨i, -, rfl⟩ := hworkers
    · exact hs
    · exact clean_goOn hs trivial
  | wakeProducer hp => exact ⟨.wakeProducer hp, hs⟩
  | test hw =>
    refine ⟨.work (by simp), clean_goOn hs ?_⟩
    split <;> trivial
  | wake hw => exact ⟨.work (by simp), clean_goOn hs trivial⟩
  | retrieve hw hq => exact ⟨.retrieve hq, clean_goOn hs trivial⟩
  | start hw hsession _ hpart =>
    exact ⟨.work (by simp), clean_goOn hs
      (afterPart_clean (removesNone_openSession _) hsession hpart)⟩
  | @next i _ session _ hw hpart =>
    have hclean := hs i
    rw [hw] at hclean
    exact ⟨.work (by simp), clean_goOn hs
      (afterPart_clean removesNone_handleNext (by exact hclean) hpart)⟩
  | @remove i _ _ _ _ hw =>
    have hclean := hs i
    rw [hw] at hclean
    cases hclean
  | back hw => exact ⟨.work (by simp), clean_goOn hs trivial⟩
  | exit hw => exact ⟨.work (by simp), clean_goOn hs trivial⟩

end Acts

end EventServer
