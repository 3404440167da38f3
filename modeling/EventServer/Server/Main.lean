import EventServer.Server.Delay
import EventServer.Server.Ledger
import EventServer.Server.LifeCycle
import EventServer.Server.Queue

/-
  `main` of `server/main.c`.

  A `Host` is the server's process with the files there are. What the environment does is given by a
  `HostEnv`: which calls succeed, what `extract_requests` reads and what the workers do to the store in
  the meantime, and whether they end. The process ends by a return from `main`, or `main` does not
  return (`Fate`).
-/

namespace EventServer

open Lib

def STATE_ACCESS_DELAY_US : UInt32 := 500000

/-- Why `main` does not return: a read or a join waits for ever, or the process is stopped. -/
inductive Fate where
  | waits
  | stopped (e : Stop)
  deriving DecidableEq, Repr

structure Host where
  /-- The paths of the files there are. -/
  files : List Bytes
  mem : Mem := {}
  state_access_delay_us : UInt32 := 0
  /-- Is the descriptor `server_fd` open? -/
  server_fd : Bool := false
  /-- The number of workers that have been created. -/
  workers : Nat := 0
  inserted : List Request := []
  stderr : Bytes := []
  deriving DecidableEq, Repr

/-- What the environment does in `main`. -/
structure HostEnv where
  files : List Bytes := []
  init : Env := {}
  mkfifo : Bool := true
  openServer : Bool := true
  /-- Can the worker be created? -/
  createWorker : WorkerId → Bool := fun _ => true
  /-- The server pipe as `extract_requests` finds it, and its rounds. -/
  extractor : Extractor
  rounds : List Round
  /-- What the workers do to the store. -/
  moves : List (Move WorkerId Task) := []
  /-- Do all workers exit? -/
  joinWorkers : Bool := true
  closeServer : Bool := true
  unlink : Bool := true
  /-- Does somebody make a file of the name of the pipe after it has been removed? -/
  recreate : Bool := false
  unlinkAgain : Bool := true
  terminate : Env := {}

def HostEnv.start (e : HostEnv) : Host := { files := e.files }

/-- A run that does not return leaves behind what it has done. -/
abbrev Boot := StateT Host (Except (Fate × Host))

namespace Boot

def halt {α : Type} (f : Fate) : Boot α := do throw (f, ← get)

def printError (msg : String) : Boot Unit := modify fun s => { s with stderr := s.stderr ++ ascii msg }

/-- `print_error(msg); return 1;` -/
def fail (msg : String) : Boot Int32 := do
  printError msg
  return 1

/-- A function of the store. -/
def onStore {α : Type} (x : Op α) : Boot α := do
  let s ← get
  match x.run { mem := s.mem } with
  | .error e => halt (.stopped e)
  | .ok (a, w) =>
    set { s with mem := w.mem, stderr := s.stderr ++ (w.stderr.map ascii).flatten }
    return a

/-- `print_error(msg); ems_terminate(); return 1;` -/
def failTerminated (e : HostEnv) (msg : String) : Boot Int32 := do
  printError msg
  let _ ← onStore (emsTerminate e.terminate)
  return 1

/-- `mkfifo`; `true` if it succeeds. There must be no file of that name. -/
def mkfifo (ok : Bool) (path : Bytes) : Boot Bool := do
  let s ← get
  if ok ∧ path ≠ [] ∧ !s.files.contains path then
    set { s with files := path :: s.files }
    return true
  else return false

/-- `unlink`; `true` if it succeeds. There must be a file of that name. -/
def unlink (ok : Bool) (path : Bytes) : Boot Bool := do
  let s ← get
  if ok ∧ s.files.contains path then
    set { s with files := s.files.filter (· ≠ path) }
    return true
  else return false

end Boot

open Boot

section

variable (e : HostEnv)

/-- `extract_requests`, as far as its rounds are given. -/
def extractRequests (server_pipe_path : Bytes) : List Round → Extractor → Extractor
  | [], x => x
  | ρ :: ρs, x =>
    match extractStep server_pipe_path x ρ with
    | none => x
    | some x' => extractRequests server_pipe_path ρs x'

/-- The store after what the workers have done to it. -/
def HostEnv.served (m : Mem) : Mem :=
  match exec server.move (Conc.init m) e.moves with
  | none => m
  | some c => c.shared

/-- What others can do between the two calls of `unlink`. -/
def recreatePipe (path : Bytes) : Boot Unit :=
  if e.recreate then modify fun s => { s with files := path :: s.files } else return ()

/-- The second call of `unlink`, and what comes after it. -/
def unlinkAgain (path : Bytes) : Boot Int32 := do
  if !(← unlink e.unlinkAgain path) then failTerminated e "Error unlinking server pipe.\n"
  else
    let _ ← onStore (emsTerminate e.terminate)
    return 0

/-- The end of `main`, after the threads. -/
def shutDown (path : Bytes) : Boot Int32 := do
  if !e.closeServer then failTerminated e "Error closing server pipe.\n"
  else
    modify fun s => { s with server_fd := false }
    if !(← unlink e.unlink path) then failTerminated e "Error unlinking server pipe.\n"
    else
      recreatePipe e path
      unlinkAgain e path

/-- `extract_requests` and the joins. -/
def serveClients (path : Bytes) : Boot Int32 := do
  -- `main_args.server_pipe_path` has room for 39 bytes of the path
  let x := extractRequests (path.take (MAX_PATH - 1)) e.rounds e.extractor
  modify fun s => { s with
    inserted := x.inserted
    stderr := s.stderr ++ (x.errors.map ascii).flatten
    mem := e.served s.mem }
  match x.stopped with
  | some .broke => if e.joinWorkers then shutDown e path else halt .waits
  | some .outOfBounds => halt (.stopped .outOfBounds)
  | _ => halt .waits

/-- The loop that creates the workers, then `next`. -/
def createWorkers (next : Boot Int32) : List WorkerId → Boot Int32
  | [] => next
  | i :: is => do
    if !e.createWorker i then fail "Error creating thread.\n"
    else
      modify fun s => { s with workers := s.workers + 1 }
      createWorkers next is

/-- `main` with its arguments read. -/
def host (path : Bytes) (delay : UInt32) : Boot Int32 := do
  let failed ← onStore (emsInit e.init)
  modify fun s => { s with state_access_delay_us := delay }
  if failed ≠ 0 then fail "Failed to initialize EMS.\n"
  else if !(← mkfifo e.mkfifo path) then failTerminated e "Error creating named pipe.\n"
  else if !e.openServer then failTerminated e "Error opening server pipe.\n"
  else
    modify fun s => { s with server_fd := true }
    createWorkers e (serveClients e path) (List.finRange MAX_SESSION_COUNT)

/-- The main function of the server. -/
def serverMain (argv : List CString) : Boot Int32 :=
  match argv with
  | [_, path] => host e path.bytes STATE_ACCESS_DELAY_US
  | [_, path, delay] =>
    match delayOf delay with
    | none => fail "Invalid delay value or value too large.\n"
    | some delay => host e path.bytes delay
  | _ => do
    let name := (argv.head?.map CString.bytes).getD (ascii "(null)")
    modify fun s => { s with
      stderr := s.stderr ++ ascii "Usage: " ++ name ++ ascii "\n <pipe_path> [delay].\n" }
    return 1

end

/-! ## How the server ends -/

/-- The arguments of `main`: the path of the pipe and the delay. -/
def arguments : List CString → Option (Bytes × UInt32)
  | [_, path] => some (path.bytes, STATE_ACCESS_DELAY_US)
  | [_, path, delay] => (delayOf delay).map fun delay => (path.bytes, delay)
  | _ => none

/-- How a run has ended, and what it has left behind. -/
def ending : Except (Fate × Host) (Int32 × Host) → Except Fate Int32 × Host
  | .ok (code, s) => (.ok code, s)
  | .error (f, s) => (.error f, s)

namespace HostEnv

variable (e : HostEnv) (path : Bytes)

/-- `ems_init` succeeds. -/
def Starts : Prop := e.init.mallocList = true ∧ e.init.rwlockInit = true

/-- The pipe can be made. -/
def Makes : Prop := e.mkfifo = true ∧ path ≠ [] ∧ path ∉ e.files

/-- All workers can be created. -/
def Staffed : Prop := ∀ i, e.createWorker i = true

/-- `extract_requests` comes to an end, and so do the workers. -/
def Stops : Prop :=
  (extractRequests (path.take (MAX_PATH - 1)) e.rounds e.extractor).stopped = some .broke ∧
    e.joinWorkers = true

/-- The pipe is gone after `main` has closed and unlinked it. -/
def Clears : Prop :=
  e.closeServer = true ∧ e.unlink = true ∧ (e.recreate = true → e.unlinkAgain = true)

/-- `main` returns before it comes to `ems_terminate`. -/
def Returns : Prop := ¬ e.Starts ∨ e.Makes path ∧ e.openServer = true ∧ ¬ e.Staffed

/-- `main` comes to `ems_terminate`. -/
def Terminates : Prop :=
  e.Starts ∧ (e.Makes path → e.openServer = true → e.Staffed ∧ e.Stops path)

end HostEnv

/-- The pipe is left behind exactly if `main` has made it and does not get to its end. -/
def LeavesPipe (e : HostEnv) (path : Bytes) (s : Host) : Prop :=
  path ∈ s.files ↔ path ∈ e.files ∨ e.Starts ∧ e.Makes path ∧
    ¬ (e.openServer = true ∧ e.Staffed ∧ e.Stops path ∧ e.Clears)

/-- The end of a run of `main` for a pipe of this path. -/
structure Exits (e : HostEnv) (path : Bytes) (r : Except Fate Int32) (s : Host) : Prop where
  pipe : LeavesPipe e path s
  /-- If `ems_terminate` gets the lock of the list, only the early returns are left. -/
  returned : e.terminate.lockList = true → ∀ code, r = .ok code ↔ code = 1 ∧ e.Returns path
  terminated : e.terminate.lockList = true →
    (r = .error (.stopped .dangling) ↔ e.Terminates path)
  /-- Without a second file of the name of the pipe `main` does not return 0. -/
  zero : r = .ok 0 → e.recreate = true

section Rules

variable {e : HostEnv} {s : Host} {Q : Int32 → Host → Prop} {E : Fate × Host → Prop} {l : Ptr}
  {es : List Entry} {path : Bytes}

theorem Boot.wp_onStore {α : Type} {Q : α → Host → Prop} {x : Op α} :
    wp (onStore x) Q E s ↔ wp x (fun a w => Q a { s with
      mem := w.mem, stderr := s.stderr ++ (w.stderr.map ascii).flatten })
      (fun err => E (.stopped err, s)) { mem := s.mem } := by
  unfold onStore
  rw [wp_bind, wp_get]
  cases hrun : x.run { mem := s.mem } with
  | error err =>
    rw [wp_of_run_error hrun]
    rfl
  | ok r =>
    obtain ⟨a, w⟩ := r
    rw [wp_of_run_ok hrun]
    rfl

/-- `ems_terminate` works on a list that has been freed, unless it does not get the lock. -/
theorem wp_terminate {Q : Int32 → Host → Prop} (h : Rep s.mem l es)
    (hlocked : e.terminate.lockList = true → E (.stopped .dangling, s))
    (hnot : e.terminate.lockList = false → ∀ s' : Host, s'.files = s.files → Q 1 s') :
    wp (onStore (emsTerminate e.terminate)) Q E s := by
  rw [Boot.wp_onStore]
  cases hlock : e.terminate.lockList with
  | true =>
    rw [wp_of_run_error (run_emsTerminate (w := { mem := s.mem }) h hlock)]
    exact hlocked hlock
  | false =>
    have hroot : s.mem.eventList ≠ none := by
      rw [h.root]
      exact Option.some_ne_none l
    simp only [emsTerminate, wp_bind, wp_get, wp_ite, hroot, false_imp_iff, true_and,
      not_false_iff, true_imp_iff, wp_lockList (w := { mem := s.mem }) h.root h.list, hlock,
      Bool.not_false, Op.wp_printError, wp_pure, not_true, and_true]
    exact hnot hlock _ rfl

theorem wp_failTerminated {msg : String} (h : Rep s.mem l es)
    (hlocked : e.terminate.lockList = true → ∀ s' : Host, s'.files = s.files →
      E (.stopped .dangling, s'))
    (hnot : e.terminate.lockList = false → ∀ s' : Host, s'.files = s.files → Q 1 s') :
    wp (failTerminated e msg) Q E s := by
  simp only [failTerminated, Boot.printError, wp_bind, wp_modify, wp_pure]
  exact wp_terminate h (fun hlock => hlocked hlock _ rfl) hnot

theorem Boot.wp_mkfifo {Q : Bool → Host → Prop} {ok : Bool} :
    wp (Boot.mkfifo ok path) Q E s ↔
      (ok = true ∧ path ≠ [] ∧ path ∉ s.files → Q true { s with files := path :: s.files }) ∧
      (¬ (ok = true ∧ path ≠ [] ∧ path ∉ s.files) → Q false s) := by
  simp only [Boot.mkfifo, wp_bind, wp_get, wp_ite, wp_set, wp_pure, List.contains_eq_mem,
    Bool.not_eq_true', decide_eq_false_iff_not]

theorem Boot.wp_unlink {Q : Bool → Host → Prop} {ok : Bool} :
    wp (Boot.unlink ok path) Q E s ↔
      (ok = true ∧ path ∈ s.files → Q true { s with files := s.files.filter (· ≠ path) }) ∧
      (¬ (ok = true ∧ path ∈ s.files) → Q false s) := by
  simp only [Boot.unlink, wp_bind, wp_get, wp_ite, wp_set, wp_pure, List.contains_eq_mem,
    decide_eq_true_eq]

/-- The loop that creates the workers. -/
theorem wp_createWorkers {next : Boot Int32} : ∀ {is : List WorkerId} {s : Host},
    (∀ i ∈ is, e.createWorker i = false → ∀ s' : Host, s'.files = s.files → Q 1 s') →
    ((∀ i ∈ is, e.createWorker i = true) → ∀ s' : Host, s'.files = s.files → s'.mem = s.mem →
      wp next Q E s') →
    wp (createWorkers e next is) Q E s
  | [], s, _, hnext => hnext (List.forall_mem_nil _) s rfl rfl
  | i :: is, s, hfail, hnext => by
      unfold createWorkers
      cases hi : e.createWorker i with
      | false => exact hfail i (List.mem_cons_self ..) hi _ rfl
      | true =>
        refine wp_createWorkers (fun j hj hno s' hs' => ?_) fun hall s' hs' hm => ?_
        · exact hfail j (List.mem_cons_of_mem _ hj) hno s' hs'
        · exact hnext (List.forall_mem_cons.2 ⟨hi, hall⟩) s' hs' hm

/-- `ems_init` on a server that has no store. -/
theorem wp_emsInit_start (env : Env) {Q : Int32 → World → Prop} {E : Stop → Prop}
    (hok : env.mallocList = true ∧ env.rwlockInit = true → ∀ l w, Rep w.mem l [] → Q 0 w)
    (hfail : ¬ (env.mallocList = true ∧ env.rwlockInit = true) → ∀ w, Q 1 w) :
    wp (emsInit env) Q E { mem := {} } := by
  have hempty : (Heap.alloc {} ⟨none, none⟩ : Heap EventList).load 0 = some ⟨none, none⟩ := rfl
  simp only [emsInit, createList, wp_bind, wp_get, wp_ite, Op.wp_allocate, Op.wp_setMem, wp_pure,
    Op.wp_release, Op.putLists]
  refine ⟨fun h => absurd rfl h, fun _ => ⟨fun hmalloc => ⟨fun hinit => ?_, fun hinit => ?_⟩, ?_⟩⟩
  · refine hok ⟨hmalloc, hinit⟩ 0 _ ⟨rfl, hempty, rfl, ?_, ?_, ?_, ?_, List.nodup_nil,
      List.nodup_nil⟩ <;> exact List.forall_mem_nil _
  · exact hfail (fun h => hinit h.2) _
  · intro hmalloc
    exact hfail (fun h => Bool.false_ne_true (hmalloc.symm.trans h.1)) _

/-- The workers leave a list behind. -/
theorem served_rep (h : Rep s.mem l []) : ∃ es, Rep (e.served s.mem) l es := by
  unfold HostEnv.served
  cases hrun : exec server.move (Conc.init s.mem) e.moves with
  | none => exact ⟨[], h⟩
  | some c =>
    obtain ⟨-, es, hrep, -⟩ := booked_of_run h hrun
    exact ⟨es, hrep⟩

end Rules

/-! ## Every end -/

section Ends

variable {e : HostEnv} {path : Bytes} {s : Host} {l : Ptr} {es : List Entry}

/-- A run of the rest of `main` from here ends as `Exits` says. -/
def EndsFrom (e : HostEnv) (path : Bytes) (x : Boot Int32) (s : Host) : Prop :=
  wp x (fun code s' => Exits e path (.ok code) s') (fun p => Exits e path (.error p.1) p.2) s

theorem EndsFrom.exits {x : Boot Int32} (h : EndsFrom e path x s) :
    Exits e path (ending (x.run s)).1 (ending (x.run s)).2 := by
  unfold EndsFrom wp at h
  split at h
  · next hrun => rwa [hrun]
  · next hrun => rwa [hrun]

theorem HostEnv.Returns.not_terminates (h : e.Returns path) : ¬ e.Terminates path := by
  rintro ⟨hstarts, hrest⟩
  obtain hno | ⟨hmakes, hopen, hno⟩ := h
  · exact hno hstarts
  · exact hno (hrest hmakes hopen).1

/-- An early return. -/
theorem exits_returns (hret : e.Returns path) (hpipe : LeavesPipe e path s) :
    Exits e path (.ok 1) s where
  pipe := hpipe
  returned _ code := by
    constructor
    · intro heq
      exact ⟨(Except.ok.inj heq).symm, hret⟩
    · rintro ⟨rfl, -⟩
      rfl
  terminated _ := iff_of_false (fun heq => nomatch heq) hret.not_terminates
  zero heq := absurd (Except.ok.inj heq) (by decide)

/-- `main` does not come to its end. -/
theorem exits_stuck {f : Fate} (hf : f ≠ .stopped .dangling) (hret : ¬ e.Returns path)
    (hterm : ¬ e.Terminates path) (hpipe : LeavesPipe e path s) : Exits e path (.error f) s where
  pipe := hpipe
  returned _ _ := iff_of_false (fun heq => nomatch heq) fun h => hret h.2
  terminated _ := iff_of_false (fun heq => hf (Except.error.inj heq)) hterm
  zero heq := nomatch heq

theorem exits_dangling (hterm : e.Terminates path) (hpipe : LeavesPipe e path s) :
    Exits e path (.error (.stopped .dangling)) s where
  pipe := hpipe
  returned _ _ := iff_of_false (fun heq => nomatch heq) fun h => h.2.not_terminates hterm
  terminated _ := iff_of_true rfl hterm
  zero heq := nomatch heq

/-- `ems_terminate` has not got its lock. -/
theorem exits_unlocked {code : Int32} (hlock : e.terminate.lockList = false)
    (hpipe : LeavesPipe e path s) (hzero : code = 0 → e.recreate = true) :
    Exits e path (.ok code) s where
  pipe := hpipe
  returned htrue := absurd (hlock.symm.trans htrue) Bool.false_ne_true
  terminated htrue := absurd (hlock.symm.trans htrue) Bool.false_ne_true
  zero heq := hzero (Except.ok.inj heq)

theorem ends_failTerminated {msg : String} (h : Rep s.mem l es) (hterm : e.Terminates path)
    (hpipe : ∀ s' : Host, s'.files = s.files → LeavesPipe e path s') :
    EndsFrom e path (failTerminated e msg) s :=
  wp_failTerminated h (fun _ s' hs' => exits_dangling hterm (hpipe s' hs'))
    fun hlock s' hs' => exits_unlocked hlock (hpipe s' hs') fun hcode => absurd hcode (by decide)

/-- The pipe is there, although `main` has made it. -/
theorem leaves_made (hs : path ∈ s.files) (hstarts : e.Starts) (hmakes : e.Makes path)
    (hnot : ¬ (e.openServer = true ∧ e.Staffed ∧ e.Stops path ∧ e.Clears)) : LeavesPipe e path s :=
  iff_of_true hs (Or.inr ⟨hstarts, hmakes, hnot⟩)

/-- The pipe is gone, and it was not there before. -/
theorem leaves_none (hs : path ∉ s.files) (hmakes : e.Makes path) (hopen : e.openServer = true)
    (hstaffed : e.Staffed) (hstops : e.Stops path) (hclears : e.Clears) : LeavesPipe e path s := by
  refine iff_of_false hs ?_
  rintro (hfile | ⟨-, -, hnot⟩)
  · exact hmakes.2.2 hfile
  · exact hnot ⟨hopen, hstaffed, hstops, hclears⟩

/-- The second `unlink` finds a pipe only if somebody has made another one. -/
theorem ends_unlinkAgain (h : Rep s.mem l es) (hs : path ∈ s.files ↔ e.recreate = true)
    (hstarts : e.Starts) (hmakes : e.Makes path) (hopen : e.openServer = true)
    (hstaffed : e.Staffed) (hstops : e.Stops path) (hclose : e.closeServer = true)
    (hunlink : e.unlink = true) : EndsFrom e path (unlinkAgain e path) s := by
  have hterm : e.Terminates path := ⟨hstarts, fun _ _ => ⟨hstaffed, hstops⟩⟩
  unfold EndsFrom unlinkAgain
  rw [wp_bind, Boot.wp_unlink]
  refine ⟨fun hagain => ?_, fun hno => ?_⟩
  · -- somebody has
    have hrecreate := hs.1 hagain.2
    have hgone : path ∉ s.files.filter (· ≠ path) := by simp
    have hclears : e.Clears := ⟨hclose, hunlink, fun _ => hagain.1⟩
    rw [wp_ite]
    refine ⟨fun hfalse => absurd hfalse (by decide), fun _ => ?_⟩
    rw [wp_bind]
    refine wp_terminate h (fun _ => ?_) fun hlock s' hs' => ?_
    · exact exits_dangling hterm (leaves_none hgone hmakes hopen hstaffed hstops hclears)
    · refine exits_unlocked hlock ?_ fun _ => hrecreate
      exact leaves_none (by rw [hs']; exact hgone) hmakes hopen hstaffed hstops hclears
  · rw [wp_ite]
    refine ⟨fun _ => ends_failTerminated h hterm fun s' hs' => ?_, fun hfalse => absurd rfl hfalse⟩
    cases hrecreate : e.recreate with
    | false =>
      have hgone : path ∉ s'.files := by
        rw [hs', hs, hrecreate]
        exact Bool.false_ne_true
      refine leaves_none hgone hmakes hopen hstaffed hstops ⟨hclose, hunlink, fun htrue => ?_⟩
      exact absurd (hrecreate.symm.trans htrue) Bool.false_ne_true
    | true =>
      have hmem := hs.2 hrecreate
      refine leaves_made (hs' ▸ hmem) hstarts hmakes fun hall => ?_
      exact hno ⟨hall.2.2.2.2.2 hrecreate, hmem⟩

/-- From the end of the threads on. -/
theorem ends_shutDown (h : Rep s.mem l es) (hs : s.files = path :: e.files) (hstarts : e.Starts)
    (hmakes : e.Makes path) (hopen : e.openServer = true) (hstaffed : e.Staffed)
    (hstops : e.Stops path) : EndsFrom e path (shutDown e path) s := by
  have hterm : e.Terminates path := ⟨hstarts, fun _ _ => ⟨hstaffed, hstops⟩⟩
  have hmem : path ∈ s.files := by
    rw [hs]
    exact List.mem_cons_self ..
  have hleft (hnot : ¬ e.Clears) (s' : Host) (hs' : s'.files = s.files) : LeavesPipe e path s' :=
    leaves_made (hs' ▸ hmem) hstarts hmakes fun hall => hnot hall.2.2.2
  unfold EndsFrom shutDown
  rw [wp_ite]
  refine ⟨fun hclose => ?_, fun hclose => ?_⟩
  · exact ends_failTerminated h hterm (hleft fun hclears => by simp [hclears.1] at hclose)
  simp only [Bool.not_eq_true', Bool.not_eq_false] at hclose
  rw [wp_bind, wp_modify, wp_bind, Boot.wp_unlink]
  refine ⟨fun hfirst => ?_, fun hfirst => ?_⟩
  · rw [wp_ite]
    refine ⟨fun hfalse => absurd hfalse (by decide), fun _ => ?_⟩
    have hgone : path ∉ s.files.filter (· ≠ path) := by simp
    unfold recreatePipe
    rw [wp_bind, wp_ite]
    refine ⟨fun hrecreate => ?_, fun hrecreate => ?_⟩
    · exact ends_unlinkAgain h (iff_of_true (List.mem_cons_self ..) hrecreate) hstarts hmakes hopen
        hstaffed hstops hclose hfirst.1
    · exact ends_unlinkAgain h (iff_of_false hgone hrecreate) hstarts hmakes hopen hstaffed hstops
        hclose hfirst.1
  · rw [wp_ite]
    refine ⟨fun _ => ?_, fun hno => absurd rfl hno⟩
    exact ends_failTerminated h hterm (hleft fun hclears => hfirst ⟨hclears.2.1, hmem⟩)

/-- From the beginning of `extract_requests` on. -/
theorem ends_serveClients (h : Rep s.mem l []) (hs : s.files = path :: e.files)
    (hstarts : e.Starts) (hmakes : e.Makes path) (hopen : e.openServer = true)
    (hstaffed : e.Staffed) : EndsFrom e path (serveClients e path) s := by
  obtain ⟨es, hrep⟩ := served_rep (e := e) h
  have hret : ¬ e.Returns path := by
    rintro (hno | ⟨-, -, hno⟩)
    · exact hno hstarts
    · exact hno hstaffed
  have hstuck {f : Fate} {s' : Host} (hf : f ≠ .stopped .dangling) (hs' : s'.files = s.files)
      (hnot : ¬ e.Stops path) : Exits e path (.error f) s' := by
    have hmem : path ∈ s'.files := by
      rw [hs', hs]
      exact List.mem_cons_self ..
    exact exits_stuck hf hret (fun hterm => hnot (hterm.2 hmakes hopen).2)
      (leaves_made hmem hstarts hmakes fun hall => hnot hall.2.2.1)
  have hwaits : Fate.waits ≠ .stopped .dangling := by decide
  have houtside : Fate.stopped .outOfBounds ≠ .stopped .dangling := by decide
  unfold EndsFrom serveClients
  rw [wp_bind, wp_modify]
  cases hstopped : (extractRequests (path.take (MAX_PATH - 1)) e.rounds e.extractor).stopped with
  | none => exact hstuck hwaits rfl fun hstops => nomatch hstopped.symm.trans hstops.1
  | some stopped =>
    cases stopped with
    | waiting => exact hstuck hwaits rfl fun hstops => nomatch hstopped.symm.trans hstops.1
    | outOfBounds => exact hstuck houtside rfl fun hstops => nomatch hstopped.symm.trans hstops.1
    | broke =>
      dsimp only
      rw [wp_ite]
      refine ⟨fun hjoin => ?_, fun hjoin => ?_⟩
      · exact ends_shutDown hrep hs hstarts hmakes hopen hstaffed ⟨hstopped, hjoin⟩
      · exact hstuck hwaits rfl fun hstops => hjoin hstops.2

/-- Every run of `main` with these arguments. -/
theorem ends_host (e : HostEnv) (path : Bytes) (delay : UInt32) :
    EndsFrom e path (host e path delay) e.start := by
  have hbefore {s : Host} (hs : s.files = e.files) (hnot : ¬ (e.Starts ∧ e.Makes path)) :
      LeavesPipe e path s := by
    unfold LeavesPipe
    rw [hs]
    exact ⟨Or.inl, fun hor => hor.resolve_right fun h => hnot ⟨h.1, h.2.1⟩⟩
  unfold EndsFrom host
  rw [wp_bind, Boot.wp_onStore]
  refine wp_emsInit_start e.init (fun hstarts l w hrep => ?_) fun hno w => ?_
  · rw [wp_bind, wp_modify, wp_ite]
    refine ⟨fun hcode => absurd rfl hcode, fun _ => ?_⟩
    rw [wp_bind, Boot.wp_mkfifo]
    refine ⟨fun hmakes => ?_, fun hmakes => ?_⟩
    · rw [wp_ite]
      refine ⟨fun hno => absurd hno (by decide), fun _ => ?_⟩
      have hmem : path ∈ path :: e.files := List.mem_cons_self ..
      rw [wp_ite]
      refine ⟨fun hopen => ?_, fun hopen => ?_⟩
      · -- the pipe cannot be opened
        simp only [Bool.not_eq_true'] at hopen
        have hclosed : e.openServer ≠ true := fun htrue =>
          Bool.false_ne_true (hopen.symm.trans htrue)
        exact ends_failTerminated hrep ⟨hstarts, fun _ htrue => absurd htrue hclosed⟩
          fun s' hs' => leaves_made (hs' ▸ hmem) hstarts hmakes fun hall => hclosed hall.1
      · simp only [Bool.not_eq_true', Bool.not_eq_false] at hopen
        rw [wp_bind, wp_modify]
        refine wp_createWorkers (fun i _ hno s' hs' => ?_) fun hall s' hs' hm => ?_
        · have hfew : ¬ e.Staffed := fun hall => Bool.false_ne_true (hno.symm.trans (hall i))
          exact exits_returns (Or.inr ⟨hmakes, hopen, hfew⟩)
            (leaves_made (hs' ▸ hmem) hstarts hmakes fun hall => hfew hall.2.1)
        · exact ends_serveClients (by rw [hm]; exact hrep) hs' hstarts hmakes hopen
            fun i => hall i (List.mem_finRange i)
    · rw [wp_ite]
      refine ⟨fun _ => ?_, fun hno => absurd rfl hno⟩
      exact ends_failTerminated hrep ⟨hstarts, fun htrue => absurd htrue hmakes⟩
        fun s' hs' => hbefore hs' fun h => hmakes h.2
  · rw [wp_bind, wp_modify, wp_ite]
    refine ⟨fun _ => ?_, fun hcode => absurd (by decide) hcode⟩
    exact exits_returns (Or.inl hno) (hbefore rfl fun h => hno h.1)

end Ends

/-- **How the server ends**, for all arguments and whatever fails: with arguments that `main` does not
    accept it returns 1 and has done nothing. Otherwise the pipe is left behind unless the server has
    come to its end, which removes it; and there `ems_terminate` works on the list that it has freed, so
    that `main` returns only, with 1, when the store cannot be set up or a worker not created. -/
theorem server_exits (e : HostEnv) (argv : List CString) :
    match arguments argv with
    | none => (ending ((serverMain e argv).run e.start)).1 = .ok 1 ∧
        (ending ((serverMain e argv).run e.start)).2.files = e.files
    | some (path, _) => Exits e path (ending ((serverMain e argv).run e.start)).1
        (ending ((serverMain e argv).run e.start)).2 := by
  match argv with
  | [] => exact ⟨rfl, rfl⟩
  | [_] => exact ⟨rfl, rfl⟩
  | [_, path] => exact (ends_host e path.bytes STATE_ACCESS_DELAY_US).exits
  | [_, path, delay] =>
    cases hdelay : delayOf delay with
    | none =>
      simp only [arguments, serverMain, hdelay]
      exact ⟨rfl, rfl⟩
    | some delay =>
      simp only [arguments, serverMain, hdelay]
      exact (ends_host e path.bytes delay).exits
  | _ :: _ :: _ :: _ :: _ => exact ⟨rfl, rfl⟩

end EventServer
