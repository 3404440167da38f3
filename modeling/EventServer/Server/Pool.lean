import EventServer.Lib.Runs
import EventServer.Server.Handover
import EventServer.Server.Truncation
import Mathlib.Data.Fintype.Card

/-
  The pool of workers.

  `Pool` is the server process: the threads of `Queue.lean`, what each worker has still to write
  to its response pipe, and whether anybody has that pipe open for reading. The process stops when
  `handle_client` frees the address of its caller's local variable, which is undefined behaviour,
  and at a write that finds no reader: the server does not handle SIGPIPE.
  Every exit of the opening phase frees that address, and no other part of `handle_client` does. So
  the pool keeps its workers exactly as long as every session opens its pipes and sends its session
  id, and every write finds a reader (`pool_survives_iff`).
-/

namespace EventServer

open Lib

/-! ## Workers -/

/-- The worker is in `handle_client`. -/
def Worker.InSession : Worker → Prop
  | .serving _ => True
  | .removing _ _ => True
  | _ => False

instance : DecidablePred Worker.InSession
  | .serving _ => isTrue trivial
  | .removing _ _ => isTrue trivial
  | .testing => isFalse id
  | .parked => isFalse id
  | .retrieving => isFalse id
  | .handling _ => isFalse id
  | .gone => isFalse id

@[simp] theorem signalNotFull_workers (s : Server) : s.signalNotFull.workers = s.workers := by
  unfold Server.signalNotFull
  split <;> rfl

/-- What a worker does after a part of `handle_client` that has a result. -/
theorem afterPart_eq_some {r : Except Stop (Option Ending × Session)} {w : Worker}
    (h : afterPart r = some w) : ∃ ending session, r = .ok (ending, session) ∧
      w = match ending with
        | none => .serving session
        | some ending => .removing session.removed ending := by
  match r with
  | .error e => cases h
  | .ok (none, session) => exact ⟨none, session, rfl, (Option.some.inj h).symm⟩
  | .ok (some ending, session) => exact ⟨some ending, session, rfl, (Option.some.inj h).symm⟩

theorem inSession_of_afterPart {r : Except Stop (Option Ending × Session)} {w : Worker}
    (h : afterPart r = some w) : w.InSession := by
  obtain ⟨ending, session, -, rfl⟩ := afterPart_eq_some h
  cases ending <;> trivial

/-- A property of all workers survives the move of one that keeps it. -/
theorem forall_update {P : Worker → Prop} {workers : WorkerId → Worker} (h : ∀ i, P (workers i))
    (i : WorkerId) {w : Worker} (hw : P w) : ∀ j, P (Function.update workers i w j) := by
  intro j
  by_cases hj : j = i
  · subst hj
    rwa [Function.update_self]
  · rw [Function.update_of_ne hj]
    exact h j

/-! ## The opening phase -/

/-- The opening phase goes through: the three pipes are opened and the session id is written. -/
def Opened (opens : Opens) (session : Session) : Prop :=
  (opens.server = true ∧ opens.request = true ∧ opens.response = true) ∧ session.starts

instance (opens : Opens) (session : Session) : Decidable (Opened opens session) :=
  inferInstanceAs (Decidable (_ ∧ _))

/-- The pipes that are opened: the opening phase ends at the first that it cannot open. -/
def Opens.pipes (opens : Opens) : List Pipe :=
  if !opens.server then []
  else if !opens.request then [.server]
  else if !opens.response then [.server, .request]
  else [.server, .request, .response]

/-- The exit of the opening phase frees the thread's argument and closes nothing. -/
theorem wp_exit (msg : String) (s : Session) : wp (do return some (← freeAndExit msg))
    (fun ending s' => ending = some .exited ∧ s'.frees = s.frees + 1 ∧
      s'.descriptors = s.descriptors) (fun _ => False) s := by
  simp only [freeAndExit, Handler.freeArgs, Handler.printError, wp_bind, wp_onService, wp_lift,
    Op.wp_printError, wp_modify, wp_pure]
  exact ⟨trivial, trivial, trivial⟩

/-- The opening phase goes through, or frees the thread's argument and ends the thread. It closes
    none of the pipes that it has opened. -/
theorem wp_openSession (opens : Opens) (s : Session) : wp (openSession opens) (fun ending s' =>
    s'.descriptors = s.descriptors ++ opens.pipes ∧
      (Opened opens s ∧ ending = none ∧ s'.frees = s.frees ∨
        ¬ Opened opens s ∧ ending = some .exited ∧ s'.frees = s.frees + 1)) (fun _ => False) s := by
  obtain ⟨server, request, response⟩ := opens
  have hexit : ∀ {msg : String} {s₁ : Session} {pipes : List Pipe} {P : Prop},
      s₁.frees = s.frees → s₁.descriptors = pipes → ¬ P →
      wp (do return some (← freeAndExit msg)) (fun ending s' => s'.descriptors = pipes ∧
        (P ∧ ending = none ∧ s'.frees = s.frees ∨
          ¬ P ∧ ending = some .exited ∧ s'.frees = s.frees + 1)) (fun _ => False) s₁ := by
    intro msg s₁ pipes P hfrees hpipes hno
    refine wp_mono (wp_exit msg s₁) (fun ending s' hs' => ?_) fun _ he => he
    obtain ⟨hending, hfreed, hsame⟩ := hs'
    exact ⟨hsame.trans hpipes, Or.inr ⟨hno, hending, hfreed.trans (congrArg (· + 1) hfrees)⟩⟩
  unfold openSession
  rw [wp_bind, wp_openPipe]
  cases server with
  | false => exact hexit rfl (List.append_nil _).symm fun ho => nomatch ho.1.1
  | true =>
    simp only [Bool.not_true, Bool.false_eq_true, if_false, if_true]
    rw [wp_bind, wp_openPipe]
    cases request with
    | false => exact hexit rfl rfl fun ho => nomatch ho.1.2.1
    | true =>
      simp only [Bool.not_true, Bool.false_eq_true, if_false, if_true]
      rw [wp_bind, wp_openPipe]
      cases response with
      | false => exact hexit rfl (List.append_assoc _ _ _) fun ho => nomatch ho.1.2.2
      | true =>
        have hpipes : s.descriptors ++ [.server] ++ [.request] ++ [.response] =
            s.descriptors ++ Opens.pipes {} := by
          rw [List.append_assoc, List.append_assoc]
          rfl
        have hwrite : (write s.locals.session_id.bytes).run s.service.world =
            .ok (decide ((myWrite s.service.world.fd s.locals.session_id.bytes).1 ≠ -1),
              { s.service.world with
                fd := (myWrite s.service.world.fd s.locals.session_id.bytes).2 }) := rfl
        simp only [Bool.not_true, Bool.false_eq_true, if_false, if_true]
        rw [wp_bind, wp_get, wp_bind, wp_onService, wp_lift, wp_of_run_ok hwrite, wp_ite]
        refine ⟨fun h => hexit rfl hpipes fun ho => ?_, fun hsent => ?_⟩
        · exact absurd (by simpa using h) ho.2
        · exact ⟨hpipes, Or.inl ⟨⟨⟨rfl, rfl, rfl⟩, fun h => hsent (by simpa using h)⟩, rfl, rfl⟩⟩

/-! ## The process -/

/-- The server process: its threads, whether a write of a worker to its response pipe finds a
    reader, what the worker has still to write to it, and what has stopped the process. -/
structure Pool where
  server : Server := startServer
  readers : WorkerId → Bool := fun _ => true
  unsent : WorkerId → Bytes := fun _ => []
  stopped : Option Stop := none

inductive PoolAct where
  /-- An action of the threads. A part of `handle_client` is done up to its writes. -/
  | act (a : Action)
  /-- Worker `i` writes the next `n + 1` bytes to its response pipe. -/
  | write (i : WorkerId) (n : Nat)
  /-- The response pipe of worker `i` gets a reader, or its last reader closes it. -/
  | reader (i : WorkerId) (present : Bool)

/-- The worker that an action is of. -/
def Action.worker : Action → Option WorkerId
  | .extract _ => none
  | .insert _ => none
  | .wakeProducer => none
  | .test i => some i
  | .wake i => some i
  | .retrieve i => some i
  | .start i _ _ => some i
  | .next i _ => some i
  | .remove i => some i
  | .leave i => some i

/-- The part of `handle_client` that an action runs: its worker and the state before it. -/
def Server.part (s : Server) : Action → Option (WorkerId × Session × Handler (Option Ending))
  | .start i opens session => some (i, session, openSession opens)
  | .next i service =>
    match s.workers i with
    | .serving session => some (i, { session with service }, handleNext)
    | _ => none
  | _ => none

/-- What has been written to the response pipe since the state `before`. -/
def Session.sentSince (after before : Session) : Bytes :=
  after.service.world.fd.written.drop before.service.world.fd.written.length

/-- A worker goes on when it has written everything. -/
def Pool.act (p : Pool) (a : Action) : Option Pool :=
  if a.worker.any fun i => p.unsent i ≠ [] then none
  else (queueStep p.server a).map fun server =>
    match p.server.part a with
    | none => { p with server }
    | some (i, before, part) =>
      match (Handler.checked part).run before with
      | .ok (_, after) =>
        { p with server, unsent := Function.update p.unsent i (after.sentSince before) }
      | .error stop => { p with stopped := some stop }

/-- SIGPIPE ends the process. -/
def Pool.write (p : Pool) (i : WorkerId) (n : Nat) : Option Pool :=
  if p.unsent i = [] then none
  else if p.readers i then
    some { p with unsent := Function.update p.unsent i ((p.unsent i).drop (n + 1)) }
  else some { p with stopped := some .sigpipe }

def poolStep (p : Pool) (a : PoolAct) : Option Pool :=
  if p.stopped ≠ none then none
  else match a with
  | .act a => p.act a
  | .write i n => p.write i n
  | .reader i present => some { p with readers := Function.update p.readers i present }

/-! ### What it takes to go on -/

/-- The number of workers that have not exited. -/
def Server.live (s : Server) : Nat := (Finset.univ.filter fun i => s.workers i ≠ .gone).card

/-- A process that has stopped has no threads. -/
def Pool.live (p : Pool) : Nat := if p.stopped = none then p.server.live else 0

/-- All workers are alive, and nothing has been freed that was not allocated. -/
structure Pool.Survives (p : Pool) : Prop where
  live : p.live = MAX_SESSION_COUNT
  frees : p.stopped ≠ some .invalidFree

/-- If the action begins a session, its opening phase goes through; if it is a write, it finds a
    reader. -/
def StaysUp (p : Pool) : PoolAct → Prop
  | .act (.start _ opens session) => Opened opens session
  | .write i _ => p.readers i = true
  | _ => True

/-- The worker will be back in the loop of `worker_function`. -/
def Worker.Lasts : Worker → Prop
  | .removing _ ending => ending = .returned
  | .gone => False
  | _ => True

structure Pool.Lasts (p : Pool) : Prop where
  workers : ∀ i, (p.server.workers i).Lasts
  running : p.stopped = none

/-- A process that has stopped has lost its workers. -/
theorem not_survives_of_stopped {p : Pool} (h : p.stopped ≠ none) : ¬ p.Survives := by
  intro hs
  have hlive := hs.live
  rw [Pool.live, if_neg h] at hlive
  exact absurd hlive (by decide)

section Steps

variable {p p' : Pool} {s s' : Server} {a : Action}

/-- The part of `handle_client` that an action runs has a result. -/
theorem part_of_queueStep (h : queueStep s a = some s') {i : WorkerId} {before : Session}
    {part : Handler (Option Ending)} (hpart : s.part a = some (i, before, part)) :
    ∃ ending after, part.run before = .ok (ending, after) := by
  cases queueStep_moves h with
  | start hw _ _ hafter =>
    obtain ⟨-, rfl, rfl⟩ : _ ∧ _ ∧ _ := by simpa [Server.part] using hpart
    obtain ⟨ending, after, hrun, -⟩ := afterPart_eq_some hafter
    exact ⟨ending, after, hrun⟩
  | next hw hafter =>
    simp only [Server.part, hw] at hpart
    obtain ⟨-, rfl, rfl⟩ : _ ∧ _ ∧ _ := by simpa using hpart
    obtain ⟨ending, after, hrun, -⟩ := afterPart_eq_some hafter
    exact ⟨ending, after, hrun⟩
  | _ => cases hpart

/-- An action whose part of `handle_client` goes on, or frees what was not allocated. -/
theorem act_eq_some (h : p.act a = some p') : ∃ server, queueStep p.server a = some server ∧
    (p.server.part a = none ∧ p' = { p with server } ∨
      ∃ i before part ending after, p.server.part a = some (i, before, part) ∧
        part.run before = .ok (ending, after) ∧
        (after.frees = before.frees ∧ p'.server = server ∧ p'.stopped = p.stopped ∨
          after.frees ≠ before.frees ∧ p'.stopped = some .invalidFree)) := by
  unfold Pool.act at h
  split at h
  · cases h
  obtain ⟨server, hserver, rfl⟩ := Option.map_eq_some_iff.1 h
  refine ⟨server, hserver, ?_⟩
  cases hpart : p.server.part a with
  | none => exact Or.inl ⟨rfl, rfl⟩
  | some x =>
    obtain ⟨i, before, part⟩ := x
    obtain ⟨ending, after, hrun⟩ := part_of_queueStep hserver hpart
    have hchecked : (Handler.checked part).run before =
        if after.frees = before.frees then .ok (ending, after) else .error .invalidFree := by
      show Handler.checked part before = _
      unfold Handler.checked
      rw [hrun]
    refine Or.inr ⟨i, before, part, ending, after, rfl, hrun, ?_⟩
    by_cases hfrees : after.frees = before.frees
    · rw [if_pos hfrees] at hchecked
      simp only [hchecked]
      exact Or.inl ⟨hfrees, trivial, trivial⟩
    · rw [if_neg hfrees] at hchecked
      simp only [hchecked]
      exact Or.inr ⟨hfrees, trivial⟩

/-- No part frees anything, but for an opening phase that fails. -/
theorem frees_of_part {i : WorkerId} {before after : Session} {part : Handler (Option Ending)}
    {ending : Option Ending} (hpart : s.part a = some (i, before, part))
    (hrun : part.run before = .ok (ending, after))
    (hopens : ∀ i opens session, a = .start i opens session → Opened opens session) :
    after.frees = before.frees := by
  cases a with
  | start j opens session =>
    obtain ⟨-, rfl, rfl⟩ : _ ∧ _ ∧ _ := by simpa [Server.part] using hpart
    obtain ⟨-, ⟨-, -, hsame⟩ | ⟨hno, -⟩⟩ := wp_run_ok (wp_openSession opens session) hrun
    · exact hsame
    · exact absurd (hopens j opens session rfl) hno
  | next j service =>
    simp only [Server.part] at hpart
    split at hpart
    · obtain ⟨-, rfl, rfl⟩ : _ ∧ _ ∧ _ := by simpa using hpart
      exact (wp_run_ok (wp_handleNext_leaves (g := fun _ frees _ => frees) _) hrun).1
    · cases hpart
  | _ => cases hpart

/-- The workers last, as long as every session opens. -/
theorem lasts_of_moves (h : ∀ i, (s.workers i).Lasts) (hmoves : Moves s a s')
    (hopens : ∀ i opens session, a = .start i opens session → Opened opens session) :
    ∀ i, (s'.workers i).Lasts := by
  cases hmoves with
  | extract => exact h
  | park => exact h
  | insert _ _ hworkers =>
    obtain rfl | ⟨i, -, rfl⟩ := hworkers
    · exact h
    · exact forall_update h i trivial
  | wakeProducer => exact h
  | test hw =>
    refine forall_update h _ ?_
    split <;> trivial
  | wake hw => exact forall_update h _ trivial
  | retrieve hw => exact forall_update h _ trivial
  | @start i opens session request w hw _ _ hpart =>
    obtain ⟨ending, session', hrun, rfl⟩ := afterPart_eq_some hpart
    obtain ⟨-, ⟨-, rfl, -⟩ | ⟨hno, -⟩⟩ := wp_run_ok (wp_openSession opens session) hrun
    · exact forall_update h _ trivial
    · exact absurd (hopens i opens session rfl) hno
  | @next i service session w hw hpart =>
    obtain ⟨ending, session', hrun, rfl⟩ := afterPart_eq_some hpart
    obtain ⟨-, hending⟩ := wp_run_ok (wp_handleNext_leaves (g := fun _ _ _ => ()) _) hrun
    refine forall_update h _ ?_
    cases ending with
    | none => trivial
    | some ending =>
      cases ending with
      | returned => rfl
      | exited => exact absurd rfl hending
  | @remove i session_id session_ids ending queue hw =>
    have hlasts := h i
    rw [hw] at hlasts
    rw [Server.goOn, signalNotFull_workers]
    exact forall_update h _ hlasts
  | back hw => exact forall_update h _ trivial
  | @exit i hw =>
    have hlasts := h i
    rw [hw] at hlasts
    cases hlasts

theorem Pool.Lasts.keep {l : PoolAct} (h : p.Lasts) (hstep : poolStep p l = some p')
    (hup : StaysUp p l) : p'.Lasts := by
  unfold poolStep at hstep
  rw [if_neg (not_not.2 h.running)] at hstep
  cases l with
  | act a =>
    have hopens : ∀ i opens session, a = .start i opens session → Opened opens session := by
      rintro i opens session rfl
      exact hup
    obtain ⟨server, hserver, ⟨-, rfl⟩ | ⟨i, before, part, ending, after, hpart, hrun, hcase⟩⟩ :=
      act_eq_some hstep
    · exact ⟨lasts_of_moves h.workers (queueStep_moves hserver) hopens, h.running⟩
    · have hsame := frees_of_part hpart hrun hopens
      obtain ⟨-, hserver', hrunning⟩ | ⟨hfreed, -⟩ := hcase
      · refine ⟨?_, hrunning.trans h.running⟩
        rw [hserver']
        exact lasts_of_moves h.workers (queueStep_moves hserver) hopens
      · exact absurd hsame hfreed
  | write i n =>
    have hreader : p.readers i = true := hup
    simp only [Pool.write, if_pos hreader] at hstep
    split at hstep
    · cases hstep
    · obtain rfl := Option.some.inj hstep
      exact ⟨h.workers, h.running⟩
  | reader i present =>
    obtain rfl := Option.some.inj hstep
    exact ⟨h.workers, h.running⟩

/-- An opening phase that fails frees the address of a local variable, and SIGPIPE is not
    handled. -/
theorem Pool.Lasts.lose {l : PoolAct} (h : p.Lasts) (hstep : poolStep p l = some p')
    (hdown : ¬ StaysUp p l) : ¬ p'.Survives := by
  unfold poolStep at hstep
  rw [if_neg (not_not.2 h.running)] at hstep
  refine not_survives_of_stopped ?_
  cases l with
  | act a =>
    cases a with
    | start i opens session =>
      obtain ⟨server, -, ⟨hnone, -⟩ | ⟨j, before, part, ending, after, hpart, hrun, hcase⟩⟩ :=
        act_eq_some hstep
      · cases hnone
      · obtain ⟨-, rfl, rfl⟩ : _ ∧ _ ∧ _ := by simpa [Server.part] using hpart
        obtain ⟨-, ⟨ho, -⟩ | ⟨-, -, hfreed⟩⟩ := wp_run_ok (wp_openSession opens session) hrun
        · exact absurd ho hdown
        · obtain ⟨hsame, -⟩ | ⟨-, hstopped⟩ := hcase
          · omega
          · rw [hstopped]
            exact nofun
    | _ => exact absurd trivial hdown
  | write i n =>
    have hreader : ¬ p.readers i = true := hdown
    simp only [Pool.write, if_neg hreader] at hstep
    split at hstep
    · cases hstep
    · obtain rfl := Option.some.inj hstep
      exact nofun
  | reader i present => exact absurd trivial hdown

end Steps

/-- A session on these bytes, before its opening phase. -/
def pipeSession (bytes : Bytes) : Session where
  service := { world := { mem := freshMem } }
  request_pipe := { bytes }
  locals := zeroLocals

/-- The worker that takes the first request in the runs below. -/
def firstWorker : WorkerId := ⟨0, Nat.zero_lt_two⟩

/-- A client that asks for a session and goes before the worker has written the session id. -/
def hastyClient : List PoolAct :=
  [.act (.extract sampleRequest), .act (.insert none), .act (.test firstWorker),
    .act (.retrieve firstWorker), .act (.start firstWorker {} (pipeSession [])),
    .write firstWorker 1, .reader firstWorker false, .write firstWorker 1]

example : (exec poolStep {} hastyClient).any (fun p => p.stopped = some .sigpipe) = true := by
  decide +kernel

end EventServer
