import EventServer.Client.Issued
import EventServer.Client.Turns
import EventServer.Office.Runs
import EventServer.Sessions.Echo

/-
  Any number of sessions on one store.

  Each session is a client at its job file and the worker that serves it, with a pipe in each
  direction between them; the workers run the operations of the store at the granularity of its
  locks. A move is a turn of one client, the reading of one request by its worker, one
  step of a worker in an operation, the sending of its response, or the reading of a response
  by the client. `Sessions.move` makes them of the parts of the two programs (`Client.Main.turn` and
  `Client.Main.hear` on the client's side, `Locals.receive` and the threads on the server's).
-/

namespace EventServer

open Lib Op

/-- Where a session is. -/
inductive Standing where
  /-- The client reads its job file. -/
  | running
  /-- A request is in the pipe. -/
  | asked (c : Call)
  /-- The worker has taken the request. -/
  | served (c : Call)
  /-- The response is in the pipe. -/
  | answered (c : Call)
  /-- The client has come to the end of its job file. -/
  | atEnd
  deriving DecidableEq

/-- The call that the client waits for. -/
def Standing.call : Standing → List Call
  | .running => []
  | .asked c => [c]
  | .served c => [c]
  | .answered c => [c]
  | .atEnd => []

/-- A session: the client, and the variables of the worker. -/
structure Party where
  program : Client.Program Unit
  standing : Standing := .running
  locals : Locals

namespace Party

/-- The client goes on with its job file until it has asked for something. -/
def turn (e : Client.MainEnv Unit) (p : Party) : Option Party :=
  match p.standing with
  | .running =>
    match (Client.Main.turn e).run p.program with
    | .error _ => none
    | .ok (.next, program) => some { p with program }
    | .ok (.asked c, program) => some { p with program, standing := .asked c }
    | .ok (.atEnd, program) => some { p with program, standing := .atEnd }
  | _ => none

/-- The bytes that are in the pipe to the worker. -/
def setRequest (p : Party) (bytes : Bytes) : Party :=
  { p with program := { p.program with process := { p.program.process with
    request_pipe := { p.program.process.request_pipe with written := bytes } } } }

/-- The bytes that are in the pipe to the client. -/
def setResponse (p : Party) (bytes : Bytes) : Party :=
  { p with program := { p.program with process := { p.program.process with
    response_pipe := { p.program.process.response_pipe with bytes } } } }

/-- The worker takes a request from its pipe. -/
def take (p : Party) : Option (Call × Party) :=
  match p.standing, p.program.process.request_pipe.written with
  | .asked c, op_code :: bs =>
    let locals := p.locals.receive op_code bs
    (locals.call op_code).map fun call =>
      (call, { p.setRequest (bs.drop (locals.operandSize op_code)) with locals, standing := .served c })
  | _, _ => none

/-- The worker sends its response. -/
def answer (p : Party) (response : Bytes) : Option Party :=
  match p.standing with
  | .served c =>
    some { p.setResponse (p.program.process.response_pipe.bytes ++ response) with
      standing := .answered c }
  | _ => none

/-- The client reads the response. -/
def hear (e : Client.MainEnv Unit) (p : Party) : Option Party :=
  match p.standing with
  | .answered c =>
    match (Client.Main.hear e c).run p.program with
    | .error _ => none
    | .ok (_, program) => some { p with program, standing := .running }
  | _ => none

end Party

/-- The store with the workers' operations on it, the sessions, and the operations in the order of
    their last steps, with the sessions they are of. -/
structure Sessions (T : Type) where
  threads : Threads T
  party : T → Party
  log : List (T × Completed) := []

/-- One move of one session. -/
inductive Motion (T : Type) where
  | turn (t : T)
  | take (t : T) (env : Env)
  | step (t : T)
  | answer (t : T)
  | hear (t : T)

instance (c : Call) : Decidable c.Valid :=
  match c with
  | .emsReserve _ _ => inferInstanceAs (Decidable (_ ∧ _))
  | .emsCreate .. | .emsShow _ | .emsListEvents => inferInstanceAs (Decidable True)

instance (c : Call) : Decidable c.Fits :=
  match c with
  | .emsCreate _ num_rows num_cols => inferInstanceAs (Decidable (NoWrap num_rows num_cols))
  | .emsReserve .. | .emsShow _ | .emsListEvents => inferInstanceAs (Decidable True)

namespace Sessions

variable {T : Type} [DecidableEq T]

/-- The sessions have begun, nothing has happened. -/
def init (m : Mem) (start : T → Party) : Sessions T := { threads := Conc.init m, party := start }

def setParty (s : Sessions T) (t : T) (p : Party) : Sessions T :=
  { s with party := Function.update s.party t p }

theorem setParty_self (s : Sessions T) (t : T) (p : Party) : (s.setParty t p).party t = p := by
  simp [setParty]

theorem setParty_other (s : Sessions T) {t u : T} (hu : u ≠ t) (p : Party) :
    (s.setParty t p).party u = s.party u := by
  simp [setParty, hu]

/-- One move; `none` when the session cannot make it. -/
def move (e : T → Client.MainEnv Unit) (s : Sessions T) : Motion T → Option (Sessions T)
  | .turn t => ((s.party t).turn (e t)).map (s.setParty t)
  | .take t env =>
    (s.party t).take.bind fun (call, p) =>
      if h : call.Valid ∧ call.Fits then
        (server.move s.threads (.call t ⟨call, env, h.1, h.2⟩)).map fun threads =>
          { s.setParty t p with threads }
      else none
  | .step t =>
    (server.move s.threads (.step t)).map fun threads =>
      { s with threads, log := s.log ++ (threads.log.drop s.threads.log.length).map (t, ·) }
  | .answer t =>
    match s.threads.phase t with
    | .finished _ task ret =>
      ((s.party t).answer (task.call.response ret)).bind fun p =>
        (server.move s.threads (.ret t)).map fun threads => { s.setParty t p with threads }
    | _ => none
  | .hear t => ((s.party t).hear (e t)).map (s.setParty t)

end Sessions

end EventServer
