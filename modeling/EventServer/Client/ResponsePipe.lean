import EventServer.Lib.Runs
import EventServer.Client.Lockstep
import EventServer.Client.Responses

/-
  The read ends of a response pipe.

  `ems_setup` and every call of `client/api.c` open the response pipe when they have sent their
  request, and close it when they have read the response; a call that returns early leaves it
  open. `Conversation` is a client and the worker that serves it, with the two pipes between them
  and the read ends that the client holds, and an `Act` is what one of the two does next. The
  worker makes its writes in pieces; a write that finds no read end raises SIGPIPE, which the
  server does not handle.
  A client that has no read end left from an earlier call is in step with the worker
  (`Conversation.InStep`), so that nothing is written between its calls or after it has closed the
  pipe. What is left is the time between the request and the opening of the response pipe: every
  write finds a reader exactly when no response begins then (`responses_have_reader_iff`).
-/

namespace EventServer.Client

open Lib Op Api

/-! ## The client and its worker -/

/-- A call as the client makes it. -/
structure Asked where
  call : Call
  valid : call.Valid
  small : call.Small

/-- Where the client is. -/
inductive Place where
  /-- In `ems_setup`: both pipes are open, and it is about to read the session id. -/
  | settingUp
  /-- In `ems_setup`, about to close the response pipe. -/
  | setUp
  /-- Between two calls. -/
  | idle
  /-- It has sent a request and is about to open the response pipe. -/
  | sent (asked : Asked)
  | receiving (asked : Asked)
  /-- It has read the response and is about to close the pipes. -/
  | closing
  /-- In `ems_quit`, about to open the response pipe. -/
  | quitting
  /-- In `ems_quit`, about to close the response pipe. -/
  | quit
  /-- The process has ended. -/
  | gone

/-- The read ends that the client holds for what it is doing. -/
def Place.ends : Place → Nat
  | .settingUp => 1
  | .setUp => 1
  | .idle => 0
  | .sent _ => 0
  | .receiving _ => 1
  | .closing => 1
  | .quitting => 0
  | .quit => 1
  | .gone => 0

/-- It has sent a request and has not opened the response pipe since. -/
def Place.Unopened : Place → Prop
  | .sent _ => True
  | .quitting => True
  | _ => False

/-- A client and its worker, the two pipes between them, what the worker has still to write of its
    response and whether it has begun with it; the read ends of the response pipe that are open,
    and how many of them calls have left behind that returned early. `server` is `none` when
    `handle_client` has ended. -/
structure Conversation where
  client : Place := .settingUp
  session_id : Int32 := 0
  server : Option Session
  request_pipe : Bytes := []
  response_pipe : Bytes := []
  unsent : Bytes := []
  begun : Bool := false
  readers : Nat := 1
  left : Nat := 0
  sigpipe : Bool := false

/-- The turns of system calls on a FIFO. SIGUSR1 is blocked in the workers and ends a client, so
    none is interrupted. -/
structure FifoTurns where
  turns : List Turn := []
  unsignalled : Unsignalled turns := by simp [Unsignalled]

/-- The store as a request finds it, whatever other sessions have made of it, and what becomes of
    the server's locks and allocations. -/
structure Found where
  mem : Mem
  root : Ptr
  events : List Entry
  rep : Rep mem root events
  env : Env := {}

inductive Act where
  /-- `ems_setup` reads the session id. -/
  | readSessionId (turns : FifoTurns)
  /-- A call opens the request pipe and sends its request. -/
  | send (asked : Asked) (opens : Bool) (turns : FifoTurns)
  | openResponse (succeeds : Bool)
  /-- A call reads the response, with anything in its variables, and prints it. -/
  | receive (turns : FifoTurns) (out : List Turn) (locals : Locals)
  /-- The pipes are closed; the call before the one of the response pipe can fail. -/
  | close (succeeds : Bool)
  | sendQuit
  /-- The client's process ends. -/
  | exit
  /-- A round of `handle_client`, up to its first write. -/
  | serve (found : Found) (turns : FifoTurns)
  /-- The next `n + 1` bytes of the response are written. -/
  | write (n : Nat)

namespace Conversation

variable (s : Conversation)

/-- The client as its functions see it. -/
def process : Process Unit where
  session_id := s.session_id
  response_pipe := { bytes := s.response_pipe, eof := false }
  locals := ⟨.zero _, .zero _, .zero _, .zero _, .zero _, .zero _⟩
  server := ()

/-- The end of a process closes all its descriptors. -/
def exit : Conversation := { s with client := .gone, readers := 0, left := 0 }

def readSessionId (turns : FifoTurns) : Option Conversation :=
  let done := myRead { bytes := s.response_pipe, eof := false, turns := turns.turns } 4
  done.ret.map fun ret =>
    if ret = -1 then s.exit
    else { s with
      client := .setUp, session_id := toInt done.stored, response_pipe := done.reader.bytes }

def send (asked : Asked) (opens : Bool) (turns : FifoTurns) : Option Conversation :=
  match (sendRequest { openRequest := opens } asked.call (return 0)).run
    { s.process with request_pipe := { turns := turns.turns } } with
  | .ok (code, p) => some { s with
      client := if code = 0 then .sent asked else .idle
      request_pipe := s.request_pipe ++ p.request_pipe.written }
  | .error _ => none

/-- Reading the response; it waits when there is not enough of it. Every return before the closing
    of the pipes returns 1, and 1 is not the result of a call that comes to it. -/
def receive (asked : Asked) (turns : FifoTurns) (out : List Turn) (locals : Locals) :
    Option Conversation :=
  match (receiveResponse {} (return ()) asked.call).run { s.process with
    response_pipe := { bytes := s.response_pipe, eof := false, turns := turns.turns }
    out := { turns := out }, locals } with
  | .ok (code, p) => some <|
    if code = 1 then
      { s with client := .idle, response_pipe := p.response_pipe.bytes, left := s.left + 1 }
    else { s with client := .closing, response_pipe := p.response_pipe.bytes }
  | .error _ => none

/-- What the worker finds at the beginning of a round; its writes are collected. -/
def arrived (found : Found) (turns : FifoTurns) (session : Session) : Session :=
  { session with
    service := { session.service with
      world := { session.service.world with mem := found.mem, fd := {} }
      envs := [found.env] }
    request_pipe :=
      { bytes := s.request_pipe
        eof := match s.client with
          | .gone => true
          | _ => false
        turns := turns.turns } }

def serve (found : Found) (turns : FifoTurns) : Option Conversation :=
  match s.server, s.unsent with
  | some session, [] =>
    match handleNext.run (s.arrived found turns session) with
    | .ok (none, session) => some { s with
        server := some session
        request_pipe := session.request_pipe.bytes
        unsent := session.service.world.fd.written
        begun := false }
    | .ok (some _, _) => some { s with server := none }
    | .error _ => none
  | _, _ => none

/-- A write to the response pipe. SIGPIPE ends the server. -/
def write (n : Nat) : Option Conversation :=
  if s.unsent = [] then none
  else if s.readers = 0 then some { s with server := none, unsent := [], sigpipe := true }
  else some { s with
    response_pipe := s.response_pipe ++ s.unsent.take (n + 1)
    unsent := s.unsent.drop (n + 1)
    begun := true }

end Conversation

def converse (s : Conversation) : Act → Option Conversation
  | .readSessionId turns =>
    match s.client with
    | .settingUp => s.readSessionId turns
    | _ => none
  | .send asked opens turns =>
    match s.client with
    | .idle => s.send asked opens turns
    | _ => none
  | .openResponse succeeds =>
    match s.client with
    | .sent asked => some <|
      if succeeds then { s with client := .receiving asked, readers := s.readers + 1 }
      else { s with client := .idle }
    | .quitting => some <|
      if succeeds then { s with client := .quit, readers := s.readers + 1 } else s.exit
    | _ => none
  | .receive turns out locals =>
    match s.client with
    | .receiving asked => s.receive asked turns out locals
    | _ => none
  | .close succeeds =>
    match s.client with
    | .setUp => some <|
      if succeeds then { s with client := .idle, readers := s.readers - 1 } else s.exit
    | .closing => some <|
      if succeeds then { s with client := .idle, readers := s.readers - 1 }
      else { s with client := .idle, left := s.left + 1 }
    | .quit => some s.exit
    | _ => none
  | .sendQuit =>
    match s.client with
    | .idle => some { s with
        client := .quitting, request_pipe := s.request_pipe ++ 2 :: intBytes s.session_id }
    | _ => none
  | .exit =>
    match s.client with
    | .idle => some s.exit
    | .quitting => some s.exit
    | _ => none
  | .serve found turns => s.serve found turns
  | .write n => s.write n

/-- The beginning of a session: both pipes are open on both sides, since `open` of a FIFO waits for
    the other side, and the worker is about to write the session id. -/
def start (session : Session) : Conversation :=
  match (openSession {}).run { session with
    service := { session.service with world := { session.service.world with fd := {} } } } with
  | .ok (none, session) => { server := some session, unsent := session.service.world.fd.written }
  | _ => { server := none }

/-! ## Client and worker in step -/

/-- What is on its way for a call: its request, or a response that it reads to the end, or the
    result 1, which ends the call, with anything after it. -/
inductive Underway (c : Call) (session_id : Int32) (request response : Bytes) : Prop where
  | asked (request_eq : request = c.request session_id) (response_eq : response = [])
  | answered (request_eq : request = []) (ends : Ends c response)
  | refused (rest : Bytes) (response_eq : response = intBytes 1 ++ rest)

namespace Conversation

/-- The response that is on its way: what has been written and not been read, and what has not
    been written. -/
def response (s : Conversation) : Bytes := s.response_pipe ++ s.unsent

/-- Nothing is on its way between the two. -/
structure Quiet (s : Conversation) : Prop where
  request_pipe : s.request_pipe = []
  response : s.response = []

/-- A quit request is on its way, which has no response. -/
structure Leaving (s : Conversation) : Prop where
  response : s.response = []
  server : s.server = none ∨ ∃ bs, s.request_pipe = 2 :: bs

/-- What there is between the two when all calls so far have come to their end. -/
def InStep (s : Conversation) : Prop :=
  match s.client with
  | .settingUp => s.request_pipe = [] ∧ s.response.length = 4
  | .setUp => s.Quiet
  | .idle => s.Quiet
  | .sent asked =>
    Underway asked.call s.session_id s.request_pipe s.response ∧
      (s.unsent ≠ [] → s.begun = false)
  | .receiving asked => Underway asked.call s.session_id s.request_pipe s.response
  | .closing => s.Quiet
  | .quitting => s.Leaving
  | .quit => s.Leaving
  | .gone => True

/-- Every write has found a reader; the read ends are accounted for; and unless a call has left
    one behind, client and worker are in step. -/
structure Sound (s : Conversation) : Prop where
  alive : s.sigpipe = false
  readers : s.readers = s.left + s.client.ends
  gone : s.client = .gone → s.left = 0
  inStep : 0 < s.left ∨ s.InStep

/-- The server has not been killed: every write has found a reader. -/
def Alive (s : Conversation) : Prop := s.sigpipe = false

/-- If the action is a write, the client has not gone; and if it begins a response, the client has
    opened the response pipe since its request, or a call has left a read end behind. -/
def InTime (s : Conversation) (a : Act) : Prop :=
  ∀ n, a = .write n →
    s.client ≠ .gone ∧ (s.begun = false → s.client.Unopened → 0 < s.left)

end Conversation

/-- The client's calls of `write` and its `open` of the response pipe do not fail. -/
def Act.Completes : Act → Prop
  | .send _ opens turns => opens = true → Calm turns.turns
  | .openResponse succeeds => succeeds = true
  | _ => True

namespace Conversation

variable {s s' : Conversation}

theorem Quiet.unsent (h : s.Quiet) : s.unsent = [] := (List.append_eq_nil_iff.1 h.response).2

theorem Leaving.unsent (h : s.Leaving) : s.unsent = [] := (List.append_eq_nil_iff.1 h.response).2

/-! ### Steps of the client -/

theorem Sound.exit (h : s.Sound) : s.exit.Sound := ⟨h.alive, rfl, fun _ => rfl, Or.inr trivial⟩

/-- The client opens the response pipe. -/
theorem Sound.opened {client : Place} (h : s.Sound) (hends : client.ends = s.client.ends + 1)
    (hin : s.InStep → ({ s with client, readers := s.readers + 1 } : Conversation).InStep) :
    ({ s with client, readers := s.readers + 1 } : Conversation).Sound := by
  refine ⟨h.alive, by rw [hends, ← Nat.add_assoc, ← h.readers], ?_, h.inStep.imp_right hin⟩
  rintro rfl
  cases hends

/-- The client closes the response pipe. -/
theorem Sound.closed (h : s.Sound) (hends : s.client.ends = 1) (hin : s.InStep → s.Quiet) :
    ({ s with client := .idle, readers := s.readers - 1 } : Conversation).Sound :=
  ⟨h.alive, by rw [h.readers, hends]; rfl, nofun,
    h.inStep.imp_right fun hs => ⟨(hin hs).request_pipe, (hin hs).response⟩⟩

/-- A call returns and leaves its read end behind. -/
theorem Sound.returned {response_pipe : Bytes} (h : s.Sound) (hends : s.client.ends = 1) :
    ({ s with client := .idle, response_pipe, left := s.left + 1 } : Conversation).Sound :=
  ⟨h.alive, by rw [h.readers, hends]; rfl, nofun, Or.inl (Nat.succ_pos _)⟩

theorem Sound.readSessionId {turns : FifoTurns} (h : s.Sound) (hc : s.client = .settingUp)
    (hstep : s.readSessionId turns = some s') : s'.Sound := by
  obtain ⟨ret, hret, rfl⟩ := Option.map_eq_some_iff.1 hstep
  have h4 : (ssize (4 : UInt64)).toNat = 4 := by decide
  have hreaders := h.readers
  rw [hc] at hreaders
  by_cases hfail : ret = -1
  · rw [if_pos hfail]
    exact h.exit
  · rw [if_neg hfail]
    refine ⟨h.alive, hreaders, nofun, h.inStep.imp_right fun hin => ?_⟩
    simp only [InStep, hc] at hin
    obtain ⟨ts, -, hread | ⟨-, k, -, hread⟩⟩ :=
      myRead_unsignalled (r := { bytes := s.response_pipe, eof := false, turns := turns.turns })
        turns.unsignalled 4
    · rw [h4] at hread
      rw [hread] at hret ⊢
      have hle : 4 ≤ s.response_pipe.length := by
        by_contra hlt
        simp [hlt] at hret
      have hlen := hin.2
      rw [Conversation.response, List.length_append] at hlen
      have hrest : s.response_pipe.drop 4 = [] := List.drop_eq_nil_of_le (by omega)
      have hunsent : s.unsent = [] := List.eq_nil_of_length_eq_zero (by omega)
      exact ⟨hin.1, List.append_eq_nil_iff.2 ⟨hrest, hunsent⟩⟩
    · rw [hread] at hret
      exact absurd (Option.some.inj hret).symm hfail

/-- A call that cannot open the request pipe sends nothing. -/
theorem wp_sendRequest_unopened {c : Call} {next : Api Unit Int32} {p : Process Unit} :
    wp (sendRequest { openRequest := false } c next)
      (fun code p' => code = 1 ∧ p'.request_pipe = p.request_pipe) (fun _ => False) p := by
  cases c <;> exact ⟨rfl, rfl⟩

theorem wp_sendRequest_opened {asked : Asked} {p : Process Unit} (hp : p.Reliable) :
    wp (sendRequest {} asked.call (return 0)) (fun code p' => code = 0 ∧
      p'.request_pipe.written = p.request_pipe.written ++ asked.call.request p.session_id)
      (fun _ => False) p :=
  wp_sendRequest asked.valid asked.small hp fun _ hp' => ⟨rfl, hp'.sent⟩

theorem Sound.send {asked : Asked} {opens : Bool} {turns : FifoTurns} (h : s.Sound)
    (hc : s.client = .idle) (hok : opens = true → Calm turns.turns)
    (hstep : s.send asked opens turns = some s') : s'.Sound := by
  have hreaders := h.readers
  rw [hc] at hreaders
  unfold Conversation.send at hstep
  split at hstep
  · next code p hrun =>
    cases hstep
    refine ⟨h.alive, ?_, ?_, h.inStep.imp_right fun hin => ?_⟩
    · dsimp only
      split <;> exact hreaders
    · dsimp only
      split <;> nofun
    simp only [InStep, hc] at hin
    cases opens with
    | false =>
      obtain ⟨rfl, hpipe⟩ := wp_run_ok wp_sendRequest_unopened hrun
      rw [hpipe, List.append_nil]
      exact ⟨hin.request_pipe, hin.response⟩
    | true =>
      obtain ⟨rfl, hwritten⟩ :=
        wp_run_ok (wp_sendRequest_opened ⟨hok rfl, calm_nil, calm_nil⟩) hrun
      rw [hwritten, hin.request_pipe]
      exact ⟨.asked rfl hin.response, fun hne => absurd hin.unsent hne⟩
  · cases hstep

theorem Sound.receive {asked : Asked} {turns : FifoTurns} {out : List Turn} {locals : Locals}
    (h : s.Sound) (hc : s.client = .receiving asked)
    (hstep : s.receive asked turns out locals = some s') : s'.Sound := by
  have hends : s.client.ends = 1 := by rw [hc]; rfl
  unfold Conversation.receive at hstep
  split at hstep
  · next code p hrun =>
    cases hstep
    by_cases h1 : code = 1
    · rw [if_pos h1]
      exact h.returned hends
    rw [if_neg h1]
    refine ⟨h.alive, by rw [h.readers, hends]; rfl, nofun, h.inStep.imp_right fun hin => ?_⟩
    simp only [InStep, hc] at hin
    obtain ⟨got, hgot, hreads⟩ :=
      wp_run_ok (wp_receiveResponse asked.call ⟨rfl, rfl, turns.unsignalled⟩) hrun h1
    have hresponse : s.response = got ++ (p.response_pipe.bytes ++ s.unsent) := by
      rw [Conversation.response, ← List.append_assoc]
      exact congrArg (· ++ s.unsent) hgot.got
    have hpre : got <+: s.response := ⟨_, hresponse.symm⟩
    cases hin with
    | asked _ heq =>
      obtain ⟨result, rest, rfl, hlen, -⟩ := hreads
      rw [heq] at hresponse
      have := congrArg List.length hresponse
      simp only [List.length_append, List.length_nil] at this
      omega
    | answered heq hall =>
      refine ⟨heq, ?_⟩
      have hself := hall got hpre hreads
      rw [hself] at hresponse
      exact List.self_eq_append_right.1 hresponse
    | refused rest heq => exact absurd hreads (not_reads_one (heq ▸ hpre))
  · cases hstep

/-! ### Steps of the worker -/

/-- With no request but to quit, a round can only end `handle_client`. -/
theorem wp_handleNext_over (session : Session) (hc : Unsignalled session.request_pipe.turns)
    (hbytes : session.request_pipe.bytes = [] ∨ ∃ bs, session.request_pipe.bytes = 2 :: bs) :
    wp handleNext (fun ending _ => ending ≠ none) (fun _ => True) session := by
  have h1 : (ssize (1 : UInt64)).toNat = 1 := by decide
  obtain ⟨ts, -, hread | ⟨-, k, -, hread⟩⟩ := myRead_unsignalled hc 1
  · obtain hnil | ⟨bs, hquit⟩ := hbytes
    · simp only [handleNext, nextOpCode, wp_bind, wp_get, hread, wp_set, hnil]
      cases session.request_pipe.eof <;> simp [h1]
    · simp only [handleNext, nextOpCode, wp_bind, wp_get, hread, wp_set, hquit, h1]
      simp
  · simp only [handleNext, nextOpCode, wp_bind, wp_get, hread, wp_set]
    simp

/-- A round of the worker, in which the session ends or something is to be written. -/
theorem serve_eq_some {found : Found} {turns : FifoTurns} (h : s.serve found turns = some s') :
    s.unsent = [] ∧ ∃ session, s.server = some session ∧
      ((∃ session', handleNext.run (s.arrived found turns session) = .ok (none, session') ∧
          s' = { s with
            server := some session', request_pipe := session'.request_pipe.bytes,
            unsent := session'.service.world.fd.written, begun := false }) ∨
        s' = { s with server := none }) := by
  unfold serve at h
  split at h
  · next session hserver hunsent =>
    refine ⟨hunsent, session, hserver, ?_⟩
    split at h
    · next session' hrun =>
      cases h
      exact Or.inl ⟨session', hrun, rfl⟩
    · cases h
      exact Or.inr rfl
    · cases h
  · cases h

/-- The worker takes the request of a call. -/
theorem underway_serve {asked : Asked} {found : Found} {turns : FifoTurns}
    {session session' : Session}
    (h : Underway asked.call s.session_id s.request_pipe s.response) (hunsent : s.unsent = [])
    (hrun : handleNext.run (s.arrived found turns session) = .ok (none, session')) :
    Underway asked.call s.session_id session'.request_pipe.bytes
      (s.response_pipe ++ session'.service.world.fd.written) := by
  have hturns : Unsignalled (s.arrived found turns session).request_pipe.turns := turns.unsignalled
  rw [Conversation.response, hunsent, List.append_nil] at h
  cases h with
  | asked hrequest hresponse =>
    rw [hresponse, List.nil_append]
    have hanswer : wp handleNext _ (fun _ => True) (s.arrived found turns session) :=
      wp_handleNext_any found.rep (fun _ => trivial) asked.valid asked.small hrequest hturns
        calm_nil
    obtain ⟨-, hrest, -, ret, hret, hp⟩ | ⟨-, hending | ⟨-, hwritten⟩⟩ := wp_run_ok hanswer hrun
    · refine .answered hrest ?_
      rw [hp.written]
      exact ends_of_answers found.rep hret
    · cases hending
    · refine .refused [] ?_
      rw [hwritten, List.append_nil]
      rfl
  | answered hrequest _ =>
    exact absurd rfl (wp_run_ok (wp_handleNext_over _ hturns (Or.inl hrequest)) hrun)
  | refused rest hresponse =>
    exact .refused (rest ++ session'.service.world.fd.written)
      (by rw [hresponse, List.append_assoc])

theorem Sound.serve {found : Found} {turns : FifoTurns} (h : s.Sound)
    (hstep : s.serve found turns = some s') : s'.Sound := by
  obtain ⟨hunsent, session, hserver, ⟨session', hrun, rfl⟩ | rfl⟩ := serve_eq_some hstep
  · refine ⟨h.alive, h.readers, h.gone, h.inStep.imp_right fun hin => ?_⟩
    have hover : ¬ (s.request_pipe = [] ∨ ∃ bs, s.request_pipe = 2 :: bs) := fun hbytes =>
      wp_run_ok (wp_handleNext_over (s.arrived found turns session) turns.unsignalled hbytes) hrun
        rfl
    have hleaving : ¬ s.Leaving := fun hl =>
      hover (Or.inr (hl.server.resolve_left (by rw [hserver]; exact Option.some_ne_none _)))
    have hquiet : ¬ s.Quiet := fun hq => hover (Or.inl hq.request_pipe)
    cases hc : s.client with
    | settingUp =>
      simp only [InStep, hc] at hin
      exact absurd (Or.inl hin.1) hover
    | sent asked =>
      simp only [InStep, hc] at hin ⊢
      exact ⟨underway_serve hin.1 hunsent hrun, fun _ => trivial⟩
    | receiving asked =>
      simp only [InStep, hc] at hin ⊢
      exact underway_serve hin hunsent hrun
    | gone => exact trivial
    | quitting => exact absurd (by simpa only [InStep, hc] using hin) hleaving
    | quit => exact absurd (by simpa only [InStep, hc] using hin) hleaving
    | setUp => exact absurd (by simpa only [InStep, hc] using hin) hquiet
    | idle => exact absurd (by simpa only [InStep, hc] using hin) hquiet
    | closing => exact absurd (by simpa only [InStep, hc] using hin) hquiet
  · refine ⟨h.alive, h.readers, h.gone, h.inStep.imp_right fun hin => ?_⟩
    cases hc : s.client <;> simp only [InStep, hc] at hin ⊢
    all_goals first
      | exact hin
      | exact ⟨hin.request_pipe, hin.response⟩
      | exact ⟨hin.response, Or.inl rfl⟩

/-- When a write is in time, a call has left a read end behind, or the client is reading. -/
theorem Sound.reading {n : Nat} (h : s.Sound) (hin : s.InTime (.write n))
    (hunsent : s.unsent ≠ []) :
    0 < s.left ∨ s.client = .settingUp ∨ ∃ asked, s.client = .receiving asked := by
  obtain ⟨hgone, hbegun⟩ := hin n rfl
  obtain hleft | hstep := h.inStep
  · exact Or.inl hleft
  have hquiet : ¬ s.Quiet := fun hq => hunsent hq.unsent
  have hleaving : ¬ s.Leaving := fun hl => hunsent hl.unsent
  cases hc : s.client with
  | settingUp => exact Or.inr (Or.inl rfl)
  | receiving asked => exact Or.inr (Or.inr ⟨asked, rfl⟩)
  | sent asked =>
    simp only [InStep, hc] at hstep
    rw [hc] at hbegun
    exact Or.inl (hbegun (hstep.2 hunsent) trivial)
  | gone => exact absurd hc hgone
  | quitting => exact absurd (by simpa only [InStep, hc] using hstep) hleaving
  | quit => exact absurd (by simpa only [InStep, hc] using hstep) hleaving
  | setUp => exact absurd (by simpa only [InStep, hc] using hstep) hquiet
  | idle => exact absurd (by simpa only [InStep, hc] using hstep) hquiet
  | closing => exact absurd (by simpa only [InStep, hc] using hstep) hquiet

/-- **A write in time finds a reader**, and leaves the two in step. -/
theorem Sound.write {n : Nat} (h : s.Sound) (hin : s.InTime (.write n))
    (hstep : s.write n = some s') : s'.Sound := by
  have hreaders := h.readers
  unfold Conversation.write at hstep
  split at hstep
  · cases hstep
  next hunsent =>
  have hsame : s.response_pipe ++ s.unsent.take (n + 1) ++ s.unsent.drop (n + 1) =
      s.response := by
    rw [List.append_assoc, List.take_append_drop]
    rfl
  obtain hleft | hc | ⟨asked, hc⟩ := h.reading hin hunsent
  · rw [if_neg (by omega)] at hstep
    cases hstep
    exact ⟨h.alive, hreaders, h.gone, Or.inl hleft⟩
  · rw [hc, Place.ends] at hreaders
    rw [if_neg (by omega)] at hstep
    cases hstep
    refine ⟨h.alive, h.readers, h.gone, h.inStep.imp_right fun hin => ?_⟩
    simp only [InStep, hc, Conversation.response, hsame] at hin ⊢
    exact hin
  · rw [hc, Place.ends] at hreaders
    rw [if_neg (by omega)] at hstep
    cases hstep
    refine ⟨h.alive, h.readers, h.gone, h.inStep.imp_right fun hin => ?_⟩
    simp only [InStep, hc, Conversation.response, hsame] at hin ⊢
    exact hin

/-- A write that is not in time finds no reader. -/
theorem Sound.late {n : Nat} (h : s.Sound) (hlate : ¬ s.InTime (.write n)) : s.readers = 0 := by
  rw [h.readers]
  by_contra hreaders
  refine hlate fun _ _ => ⟨fun hc => ?_, fun _ hopen => ?_⟩
  · rw [h.gone hc, hc] at hreaders
    exact hreaders rfl
  · have hends : s.client.ends = 0 := by
      revert hopen
      cases s.client <;> simp [Place.Unopened, Place.ends]
    omega

theorem Sound.kill {n : Nat} (h : s.Sound) (hlate : ¬ s.InTime (.write n))
    (hstep : s.write n = some s') : ¬ s'.Alive := by
  unfold Conversation.write at hstep
  split at hstep
  · cases hstep
  split at hstep
  · cases hstep
    exact Bool.noConfusion
  · next hreaders => exact absurd (h.late hlate) hreaders

/-! ### Runs -/

theorem Sound.keep {a : Act} (h : s.Sound) (ha : a.Completes) (hin : s.InTime a)
    (hstep : converse s a = some s') : s'.Sound := by
  cases a with
  | readSessionId turns =>
    simp only [converse] at hstep
    split at hstep
    · next hc => exact h.readSessionId hc hstep
    · cases hstep
  | send asked opens turns =>
    simp only [converse] at hstep
    split at hstep
    · next hc => exact h.send hc ha hstep
    · cases hstep
  | openResponse succeeds =>
    obtain rfl : succeeds = true := ha
    simp only [converse, if_true] at hstep
    split at hstep
    · next asked hc =>
      cases hstep
      refine h.opened (by rw [hc]; rfl) fun hin => ?_
      simp only [InStep, hc] at hin
      exact hin.1
    · next hc =>
      cases hstep
      refine h.opened (by rw [hc]; rfl) fun hin => ?_
      simp only [InStep, hc] at hin
      exact ⟨hin.response, hin.server⟩
    · cases hstep
  | receive turns out locals =>
    simp only [converse] at hstep
    split at hstep
    · next asked hc => exact h.receive hc hstep
    · cases hstep
  | close succeeds =>
    simp only [converse] at hstep
    split at hstep
    · next hc =>
      cases hstep
      cases succeeds with
      | true => exact h.closed (by rw [hc]; rfl) fun hin => by simpa only [InStep, hc] using hin
      | false => exact h.exit
    · next hc =>
      cases hstep
      cases succeeds with
      | true => exact h.closed (by rw [hc]; rfl) fun hin => by simpa only [InStep, hc] using hin
      | false => exact h.returned (by rw [hc]; rfl)
    · cases hstep
      exact h.exit
    · cases hstep
  | sendQuit =>
    simp only [converse] at hstep
    split at hstep
    · next hc =>
      cases hstep
      refine ⟨h.alive, ?_, nofun, h.inStep.imp_right fun hin => ?_⟩
      · have hreaders := h.readers
        rw [hc] at hreaders
        exact hreaders
      · simp only [InStep, hc] at hin
        exact ⟨hin.response, Or.inr ⟨_, by rw [hin.request_pipe]; rfl⟩⟩
    · cases hstep
  | exit =>
    simp only [converse] at hstep
    split at hstep
    · cases hstep
      exact h.exit
    · cases hstep
      exact h.exit
    · cases hstep
  | serve found turns => exact h.serve hstep
  | write n => exact h.write hin hstep

theorem Sound.lose {a : Act} (h : s.Sound) (hlate : ¬ s.InTime a)
    (hstep : converse s a = some s') : ¬ s'.Alive := by
  cases a with
  | write n => exact h.kill hlate hstep
  | _ => exact absurd (fun _ hn => nomatch hn) hlate

theorem sound_start (session : Session) : (start session).Sound := by
  have hopen : wp (openSession {}) (fun ending session' => ending = none ∧
      session'.service.world.fd.written.length = 4) (fun _ => False) { session with
        service := { session.service with
          world := { session.service.world with fd := {} } } } := by
    simp only [openSession, Bool.not_true, Bool.false_eq_true, if_false, wp_bind, wp_openPipe,
      wp_get, wp_onService, wp_lift]
    refine wp_mono (wp_write _) (fun ok w hw => ?_) fun _ he => he
    obtain ⟨rfl, hwritten, -⟩ := hw.2 calm_nil
    refine ⟨rfl, ?_⟩
    rw [hwritten, List.nil_append]
    exact session.locals.session_id.length_eq
  obtain ⟨_, session', hrun, rfl, hlen⟩ := run_of_wp hopen
  rw [start, hrun]
  refine ⟨rfl, rfl, fun hgone => ?_, Or.inr ⟨rfl, hlen⟩⟩
  cases hgone

end Conversation

/-- **Every write of the server finds a reader if and only if no response begins between a request
    and the opening of the response pipe**, unless a call has left a read end behind, **and nothing
    is written when the client has gone**, in every interleaving in which the client's own writes
    and its `open` succeed. -/
theorem responses_have_reader_iff (session : Session) {acts : List Act}
    (h : ∀ a ∈ acts, a.Completes) :
    Along converse Conversation.Alive (start session) acts ↔
      Guarded converse Conversation.InTime (start session) acts :=
  along_iff_guarded_of (J := Conversation.Sound) (fun _ hs => hs.alive)
    (fun _ _ _ ha hs hstep hin => hs.keep ha hin hstep)
    (fun _ _ _ _ hs hstep hlate => hs.lose hlate hstep) h (Conversation.sound_start session)

/-- The beginning of a session up to its first request, for the list of events. -/
def listRequest : List Act :=
  [.write 3, .readSessionId {}, .close true, .send ⟨.emsListEvents, trivial, trivial⟩ true {}]

/-- The response to it, when there are no events. -/
def listResponse : List Act := [.serve ⟨freshMem, 0, [], rep_freshMem, {}⟩ {}, .write 3]

theorem responses_have_reader_iff_sample :
    Along converse Conversation.Alive (start startedClient.server)
        (listRequest ++ .openResponse true :: listResponse) ↔
      Guarded converse Conversation.InTime (start startedClient.server)
        (listRequest ++ .openResponse true :: listResponse) := by
  refine responses_have_reader_iff startedClient.server fun a ha => ?_
  simp only [listRequest, listResponse, List.cons_append, List.nil_append, List.mem_cons,
    List.not_mem_nil, or_false] at ha
  rcases ha with rfl | rfl | rfl | rfl | rfl | rfl | rfl
  all_goals first
    | trivial
    | exact rfl
    | exact fun _ => calm_nil

/-- The worker answers before the client has opened the response pipe. -/
theorem list_unread : ∃ s,
    exec converse (start startedClient.server) (listRequest ++ listResponse) = some s ∧
      ¬ s.Alive := by
  have hrun : (exec converse (start startedClient.server) (listRequest ++ listResponse)).any
      (fun s => s.sigpipe) = true := by decide +kernel
  obtain ⟨s, hs, hkilled⟩ := (Option.any_eq_true _ _).1 hrun
  exact ⟨s, hs, fun halive => by rw [Conversation.Alive, hkilled] at halive; cases halive⟩

end EventServer.Client
