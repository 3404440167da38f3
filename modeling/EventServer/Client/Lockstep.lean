import EventServer.Client.Calls

/-
  Whole sessions: the two programs on the two ends of the same pipes.

  `serverTurn` is one round of `handle_client` on what the client has written, and `exchange` one
  call of the client with that turn in it. An `Exchange` finds the store in any state that
  represents events, so nothing is assumed about what other sessions do between the calls.
  Both pipes are empty between calls (`Linked`); from there a call keeps the two in step
  (`wp_exchange`), and so does every sequence of calls (`session_lockstep`).
-/

namespace EventServer.Client

open Lib Op

/-! ## A call on a shared pair of pipes -/

/-- The server when what the client has written has arrived. -/
def Process.arrived (s : Process Session) : Session :=
  { s.server with request_pipe := { s.server.request_pipe with
    bytes := s.server.request_pipe.bytes ++ s.request_pipe.written } }

/-- A round of `handle_client`, and the arrival of what it has written. When the session has ended
    no response will come. -/
def serverTurn : Api Session Unit := do
  let s ← get
  match handleNext.run s.arrived with
  | .error e => throw e
  | .ok (some _, _) => throw .blocked
  | .ok (none, server) =>
    let fd := server.service.world.fd
    set { s with
      request_pipe := { s.request_pipe with written := [] }
      response_pipe := { s.response_pipe with bytes := s.response_pipe.bytes ++ fd.written }
      server := { server with service := { server.service with
        world := { server.service.world with fd := { fd with written := [] } } } } }

/-- A call of a client, and the store at the time of the call: whatever other sessions have made
    of it, it represents events whose sizes fit. -/
structure Exchange where
  call : Call
  /-- What becomes of the server's locks and allocations. -/
  env : Env := {}
  mem : Mem
  root : Ptr
  events : List Entry
  rep : Rep mem root events
  fitting : Fitting events
  valid : call.Valid
  small : call.Small

/-- What comes of a call. -/
structure Outcome where
  /-- The client's return code. -/
  code : Int32
  /-- The calls that the server has made, and what they have returned. -/
  served : List Call
  results : List Int32
  /-- What the client has printed. -/
  printed : Bytes
  /-- The bytes that are left in the pipes. -/
  request_pipe : Bytes
  response_pipe : Bytes
  deriving DecidableEq, Repr

/-- The difference that a call has made. -/
def Outcome.between (s : Process Session) (code : Int32) (s' : Process Session) : Outcome where
  code := code
  served := s'.server.service.calls.drop s.server.service.calls.length
  results := s'.server.service.results.drop s.server.service.results.length
  printed := s'.out.written.drop s.out.written.length
  request_pipe := s'.server.request_pipe.bytes ++ s'.request_pipe.written
  response_pipe := s'.response_pipe.bytes ++ s'.server.service.world.fd.written

/-- The server finds the store as the exchange has it. -/
def Exchange.meets (x : Exchange) (s : Process Session) : Process Session :=
  { s with server := { s.server with service := { s.server.service with
    world := { s.server.service.world with mem := x.mem }
    envs := [x.env] } } }

def exchange (x : Exchange) : Api Session Outcome := do
  modify x.meets
  let s ← get
  let code ← x.call.issue {} serverTurn
  return .between s code (← get)

/-- The calls of a session. -/
def exchanges : List Exchange → Api Session (List Outcome)
  | [] => return []
  | x :: xs => do
    let o ← exchange x
    return o :: (← exchanges xs)

/-! ## Lockstep -/

/-- A call that went as it should: the server made the call that the client asked for, the client
    returned what that call returned, has printed the event or the list as the store had it,
    and has left nothing in the pipes. -/
structure InLockstep (x : Exchange) (o : Outcome) : Prop where
  served : o.served = [x.call.cut]
  returned : o.results = [o.code]
  printed : o.printed = x.call.shown x.events x.env
  request_pipe : o.request_pipe = []
  response_pipe : o.response_pipe = []

/-- Between calls: the pipes are empty and nothing fails. -/
structure Linked (s : Process Session) : Prop where
  sent : s.request_pipe.written = []
  arriving : s.server.request_pipe.bytes = []
  answered : s.server.service.world.fd.written = []
  response : s.response_pipe.bytes = []
  reliable : s.Reliable
  server : Calm s.server.request_pipe.turns
  fd : Calm s.server.service.world.fd.turns

section Lockstep

variable {s : Process Session} {E : Stop → Prop}

/-- The server has answered the call of `s₁`, which found it as in `s`, with `ret`. -/
structure Responded (x : Exchange) (s s₁ : Process Session) (ret : Int32 × Bytes)
    (s₂ : Process Session) : Prop where
  answers : Answers x.events x.env x.call ret
  response : s₂.response_pipe.bytes = ret.2
  out : s₂.out.written = s₁.out.written
  sent : s₂.request_pipe.written = []
  arriving : s₂.server.request_pipe.bytes = []
  answered : s₂.server.service.world.fd.written = []
  reliable : s₂.Reliable
  server : Calm s₂.server.request_pipe.turns
  fd : Calm s₂.server.service.world.fd.turns
  calls : s₂.server.service.calls = s.server.service.calls ++ [x.call.cut]
  results : s₂.server.service.results = s.server.service.results ++ [ret.1]

/-- A round of the server answers the client's request. -/
theorem wp_serverTurn {x : Exchange} {s₁ : Process Session} (h : Linked s)
    (hs₁ : Progress (x.meets s) (x.call.request s.session_id) [] [] s₁) :
    wp serverTurn (fun _ s₂ => ∃ ret, Responded x s s₁ ret s₂) E s₁ := by
  have hserver : s₁.server = (x.meets s).server := hs₁.server
  have hservice : s₁.arrived.service = (x.meets s).server.service := by
    rw [Process.arrived, hserver]
  have hbytes : s₁.arrived.request_pipe.bytes = x.call.request s.session_id := by
    simp only [Process.arrived, hserver, hs₁.sent, Exchange.meets, h.arriving, h.sent,
      List.nil_append]
  have hempty : s₁.response_pipe.bytes = [] := by
    have := hs₁.got
    simpa [Exchange.meets, h.response] using this.symm
  have hturn : wp handleNext _ (fun _ => False) s₁.arrived :=
    wp_handleNext_request (by rw [hservice]; exact x.rep) x.fitting x.valid x.small hbytes
      (by rw [Process.arrived, hserver]; exact h.server) (by rw [hservice]; exact h.fd)
  obtain ⟨_, server, hrun, rfl, hrest, hturns, ret, hret, hp⟩ := run_of_wp hturn
  rw [hservice] at hret hp
  have hwritten : server.service.world.fd.written = ret.2 := by
    rw [hp.written]
    simp only [Exchange.meets, h.answered, List.nil_append]
  simp only [serverTurn, wp_bind, wp_get, hrun, wp_set, hempty, hwritten, List.nil_append]
  exact ⟨ret, { answers := hret, response := rfl, out := rfl, sent := rfl, arriving := hrest
                answered := rfl, reliable := { hs₁.reliable with }, server := hturns, fd := hp.calm
                calls := hp.calls, results := hp.results }⟩

/-- **One call** is in lockstep, and leaves the pipes as it found them. -/
theorem wp_exchange (h : Linked s) (x : Exchange) :
    wp (exchange x) (fun o s' => InLockstep x o ∧ Linked s') E s := by
  have hstart : (x.meets s).Reliable := { h.reliable with }
  simp only [exchange, wp_bind, wp_modify, wp_get]
  refine wp_issue x.env x.rep x.fitting x.valid x.small hstart fun s₁ hs₁ => ?_
  refine wp_mono (wp_serverTurn h hs₁) (fun _ s₂ hs₂ => ?_) fun _ he => he
  obtain ⟨ret, hs₂⟩ := hs₂
  refine ⟨hs₂.reliable, ret, hs₂.answers, hs₂.response, fun s₃ hs₃ => ?_⟩
  have hwritten : s₃.out.written = s.out.written ++ x.call.shown x.events x.env := by
    rw [hs₃.printed, hs₂.out, hs₁.printed, List.append_nil]
    rfl
  have hresponse : s₃.response_pipe.bytes = [] := by
    have := hs₃.got
    rw [hs₂.response] at this
    simpa using this.symm
  have hrequest : s₃.request_pipe.written = [] := by rw [hs₃.sent, hs₂.sent, List.append_nil]
  constructor
  · refine ⟨?_, ?_, ?_, ?_, ?_⟩
    · simp [Outcome.between, hs₃.server, hs₂.calls, Exchange.meets]
    · simp [Outcome.between, hs₃.server, hs₂.results, Exchange.meets]
    · simp [Outcome.between, hwritten, Exchange.meets]
    · simp [Outcome.between, hs₃.server, hs₂.arriving, hrequest]
    · simp [Outcome.between, hs₃.server, hs₂.answered, hresponse]
  · exact ⟨hrequest, hs₃.server ▸ hs₂.arriving, hs₃.server ▸ hs₂.answered, hresponse,
      hs₃.reliable, hs₃.server ▸ hs₂.server, hs₃.server ▸ hs₂.fd⟩

/-- So is every call of a session. -/
theorem wp_exchanges : ∀ (xs : List Exchange) {s : Process Session}, Linked s →
    wp (exchanges xs) (fun os s' => List.Forall₂ InLockstep xs os ∧ Linked s') E s
  | [], _, h => ⟨.nil, h⟩
  | x :: xs, _, h => by
      simp only [exchanges, wp_bind, wp_pure]
      refine wp_mono (wp_exchange h x) (fun o s' ho => ?_) fun _ he => he
      refine wp_mono (wp_exchanges xs ho.2) (fun os s'' hos => ?_) fun _ he => he
      exact ⟨.cons ho.1 hos.1, hos.2⟩

/-- **Client and server stay in step** over every sequence of calls, whatever other sessions make
    of the store between them. -/
theorem session_lockstep (h : Linked s) (xs : List Exchange) :
    ∃ os s', (exchanges xs).run s = .ok (os, s') ∧ List.Forall₂ InLockstep xs os ∧ Linked s' :=
  run_of_wp (wp_exchanges xs h)

end Lockstep

/-- A client whose session has just started. -/
def startedClient : Process Session where
  session_id := 1
  response_pipe := { bytes := [], eof := false }
  locals := ⟨.zero _, .zero _, .zero _, .zero _, .zero _, .zero _⟩
  server :=
    { service := { world := { mem := freshMem } }
      request_pipe := { bytes := [], eof := false }
      locals := zeroLocals }

/-- A client creates an event and shows it. -/
theorem session_lockstep_sample : ∃ x y : Exchange, x.call = .emsCreate 1 2 3 ∧ x.events = [] ∧
    y.call = .emsShow 1 ∧ y.events ≠ [] ∧
    ∃ os s, (exchanges [x, y]).run startedClient = .ok (os, s) ∧
      List.Forall₂ InLockstep [x, y] os ∧ Linked s := by
  obtain ⟨m, -, hrep⟩ := runOp_emsCreate_first rep_freshMem 1 2 3
  have hfit : Fitting [newEntry freshMem 1 2 3] := by
    simp only [Fitting, List.mem_singleton, forall_eq]
    show NoWrap 2 3
    decide
  exact ⟨⟨.emsCreate 1 2 3, {}, freshMem, 0, [], rep_freshMem, by simp [Fitting], trivial, trivial⟩,
    ⟨.emsShow 1, {}, m, 0, _, hrep, hfit, trivial, trivial⟩, rfl, rfl, rfl, by simp,
    session_lockstep ⟨rfl, rfl, rfl, rfl, ⟨calm_nil, calm_nil, calm_nil⟩, calm_nil, calm_nil⟩ _⟩

end EventServer.Client
