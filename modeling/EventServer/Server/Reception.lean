import EventServer.Server.Handover
import EventServer.Server.Signals

/-
  From the server pipe to the workers.

  The main thread reads setup messages and has each request inserted by a thread that it waits for,
  so its next round begins only when the request is in the buffer (`receptionStep`). As long as no
  signal disturbs a round and no worker takes a request that is not there, every client that has
  written its message is in one place: with a worker, in the buffer, with the inserting thread or in
  the pipe; and the workers get the clients in the order of their messages, under their own paths
  and session ids (`clients_in_order`). But since the call of `remove_session`, the only
  one that signals `not_full_cond`, is not reached, the first client that finds the buffer full is
  the last one that the server hears of (`asleep_for_good`).
-/

namespace EventServer

open Lib Client

/-- The main thread and the threads that it hands the requests to. -/
structure Reception where
  host : Extractor
  server : Server

inductive Advance where
  /-- A round of `extract_requests`, up to the creation of the inserting thread. -/
  | round (ρ : Round)
  /-- An action of one of the other threads. -/
  | thread (a : Action)

/-- The main thread goes on when the inserting thread has been joined. -/
def receptionStep (server_pipe_path : Bytes) (c : Reception) : Advance → Option Reception
  | .round ρ =>
    if c.server.producer = .extracting then
      (extractStep server_pipe_path c.host ρ).bind fun host =>
        match host.inserted.drop c.host.inserted.length with
        | [] => some { c with host }
        | request :: _ => (queueStep c.server (.extract request)).map fun server => ⟨host, server⟩
    else none
  | .thread (.extract _) => none
  | .thread a => (queueStep c.server a).map fun server => { c with server }

/-- The request that the inserting thread has and has not yet inserted. -/
def Producer.pending : Producer → List Request
  | .extracting => []
  | .entering request => [request]
  | .parked request => [request]

/-- The requests as they are stored when they are inserted in this order. -/
def numbered (requests : List Request) : List Request :=
  requests.mapIdx fun k request => { request with session_id := .ofNat k }

/-- The same when `n` requests have been inserted before. -/
def numberedFrom (n : ℕ) (requests : List Request) : List Request :=
  requests.mapIdx fun k request => { request with session_id := .ofNat (k + n) }

/-- The requests in the buffer: `count` of them from the index `out` on. -/
def Queue.contents (q : Queue) : List Request := ringContents q.buffer q.out q.count.toNat

/-- No signal disturbs the round; a `retrieve_request` finds a request. -/
def Connects (c : Reception) : Advance → Prop
  | .round ρ => Undisturbed c.host ρ
  | .thread a => FindsRequest c.server a

/-- Nothing but a signal can go wrong in a round. -/
def Advance.Reliable : Advance → Prop
  | .round ρ => ρ.Reliable
  | .thread _ => True

/-! ## Numbers -/

theorem numbered_concat (requests : List Request) (request : Request) :
    numbered (requests ++ [request]) =
      numbered requests ++ [{ request with session_id := .ofNat requests.length }] :=
  List.mapIdx_concat

@[simp] theorem length_numbered (requests : List Request) :
    (numbered requests).length = requests.length := List.length_mapIdx

theorem numbered_append (requests requests' : List Request) : numbered (requests ++ requests') =
    numbered requests ++ numberedFrom requests.length requests' :=
  List.mapIdx_append

/-- Numbers of an `int` are different as long as it does not overflow. -/
theorem ofNat_inj_of_lt {n k : ℕ} (hn : n < 2 ^ 31) (hk : k < 2 ^ 31)
    (h : Int32.ofNat n = Int32.ofNat k) : n = k := by
  have hnat := congrArg UInt32.toNat (congrArg Int32.toUInt32 h)
  simp at hnat
  omega

/-- No two of the requests have one session id. -/
theorem session_ids_nodup {requests : List Request} (h : requests.length < 2 ^ 31) :
    ((numbered requests).map Request.session_id).Nodup := by
  rw [List.nodup_iff_getElem?_ne_getElem?]
  intro i j hij hj heq
  rw [List.length_map, length_numbered] at hj
  unfold numbered at heq
  rw [List.getElem?_map, List.getElem?_map, List.getElem?_mapIdx, List.getElem?_mapIdx,
    List.getElem?_eq_getElem (by omega), List.getElem?_eq_getElem hj] at heq
  exact absurd (ofNat_inj_of_lt (by omega) (by omega) (Option.some.inj heq)) (by omega)

/-! ## One advance -/

/-- A round inserts one request at most. -/
theorem Does.inserted {server_pipe_path : Bytes} {ρ : Round} {x x' : Extractor}
    (h : Does server_pipe_path ρ x x') :
    ∃ new, x'.inserted = x.inserted ++ new ∧ new.length ≤ 1 := by
  cases h with
  | waits _ _ h => exact ⟨[], h.inserted, Nat.zero_le _⟩
  | interrupted _ h => exact ⟨[], h.inserted, Nat.zero_le _⟩
  | prints _ _ h => exact ⟨[], h.inserted, Nat.zero_le _⟩
  | skips _ _ _ h => exact ⟨[], h.inserted, Nat.zero_le _⟩
  | short _ _ h => exact ⟨[], h.inserted, Nat.zero_le _⟩
  | reads _ _ _ _ _ _ _ h =>
    refine ⟨_, h.inserted, ?_⟩
    unfold copied
    split
    · exact Nat.le_refl 1
    · exact Nat.zero_le _

/-- What has been inserted is what the main thread has read, but for the request that the inserting
    thread has. -/
structure Passed (c : Reception) (done : List Request) : Prop where
  read : c.host.inserted = done ++ c.server.producer.pending
  inserted : c.server.inserted = numbered done
  counter : c.server.queue.session_counter = .ofNat done.length

/-- The main thread is in step with the messages, and the buffer is a ring of what it has read. -/
structure Receives (server_pipe_path : Bytes) (ms : List Setup) (c : Reception) : Prop where
  inStep : ∃ front rest, InStep server_pipe_path ms front rest c.host
  ordered : Ordered c.server
  passed : ∃ done, Passed c done

section Advance

variable {server_pipe_path : Bytes} {ms : List Setup} {c c' : Reception} {ρ : Round} {a : Action}

/-- An action of the other threads inserts the request that the inserting thread has, or leaves
    it there. -/
theorem Passed.thread {done : List Request} {server : Server} (h : Passed c done)
    (hclean : ∀ i, (c.server.workers i).Clean) (hstep : queueStep c.server a = some server)
    (ha : ∀ request, a ≠ .extract request) : ∃ done', Passed { c with server } done' := by
  obtain ⟨hacts, -⟩ := queueStep_acts hclean hstep
  have hread := h.read
  cases hacts with
  | extract hp => exact absurd rfl (ha _)
  | park hp hfull =>
    rw [hp] at hread
    exact ⟨done, hread, h.inserted, h.counter⟩
  | @insert _ request _ hp hroom =>
    rw [hp] at hread
    refine ⟨done ++ [request], ?_, ?_, ?_⟩
    · rw [hread]
      exact (List.append_nil _).symm
    · show c.server.inserted ++ [_] = _
      rw [numbered_concat, h.inserted, ← h.counter]
      rfl
    · show c.server.queue.session_counter + 1 = _
      rw [h.counter, List.length_append, List.length_singleton, Int32.ofNat_add]
      rfl
  | wakeProducer hp =>
    rw [hp] at hread
    exact ⟨done, hread, h.inserted, h.counter⟩
  | retrieve hq =>
    obtain ⟨r, -, heq⟩ := Option.map_eq_some_iff.1 hq
    obtain ⟨-, rfl⟩ := Prod.mk.inj heq
    exact ⟨done, hread, h.inserted, h.counter⟩
  | work _ => exact ⟨done, hread, h.inserted, h.counter⟩

/-- What the main thread does in a round is handed to the inserting thread. -/
theorem receptionStep_round (h : receptionStep server_pipe_path c (.round ρ) = some c') :
    c.server.producer = .extracting ∧ extractStep server_pipe_path c.host ρ = some c'.host ∧
      (c'.host.inserted.drop c.host.inserted.length = [] ∧ c'.server = c.server ∨
        ∃ request rest, c'.host.inserted.drop c.host.inserted.length = request :: rest ∧
          queueStep c.server (.extract request) = some c'.server) := by
  simp only [receptionStep] at h
  split at h
  · next hproducer =>
    obtain ⟨host, hhost, hnext⟩ := Option.bind_eq_some_iff.1 h
    split at hnext
    · next hnone =>
      obtain rfl := Option.some.inj hnext
      exact ⟨hproducer, hhost, Or.inl ⟨hnone, rfl⟩⟩
    · next request rest hsome =>
      obtain ⟨server, hserver, rfl⟩ := Option.map_eq_some_iff.1 hnext
      exact ⟨hproducer, hhost, Or.inr ⟨request, rest, hsome, hserver⟩⟩
  · cases h

theorem receptionStep_thread (h : receptionStep server_pipe_path c (.thread a) = some c') :
    (∀ request, a ≠ .extract request) ∧
      ∃ server, queueStep c.server a = some server ∧ c' = { c with server } := by
  cases a with
  | extract request => cases h
  | _ =>
    obtain ⟨server, hserver, rfl⟩ := Option.map_eq_some_iff.1 h
    exact ⟨fun _ heq => (nomatch heq), server, hserver, rfl⟩

/-- A round of the main thread. -/
theorem Receives.round (h : Receives server_pipe_path ms c) (hρ : ρ.Reliable)
    (hstep : receptionStep server_pipe_path c (.round ρ) = some c') (hquiet : Undisturbed c.host ρ) :
    Receives server_pipe_path ms c' := by
  obtain ⟨hproducer, hhost, hnew⟩ := receptionStep_round hstep
  obtain ⟨front, rest, hinStep⟩ := h.inStep
  obtain ⟨done, hpassed⟩ := h.passed
  obtain ⟨hs, hround⟩ := extractStep_eq_some hhost
  have hdoes := extractRound_does server_pipe_path hinStep.eof hs hρ
  rw [← hround] at hdoes
  have hread := hpassed.read
  rw [hproducer, Producer.pending, List.append_nil] at hread
  obtain ⟨new, hinserted, hone⟩ := hdoes.inserted
  have hdrop : c'.host.inserted.drop c.host.inserted.length = new := by
    rw [hinserted, List.drop_left]
  rw [hdrop] at hnew
  rw [hread] at hinserted
  obtain ⟨rfl, hsame⟩ | ⟨request, more, rfl, hextract⟩ := hnew
  · refine ⟨hinStep.keep hdoes hquiet, hsame ▸ h.ordered, done, ?_, ?_, ?_⟩
    · rw [hinserted, hsame, hproducer]
      rfl
    · rw [hsame, hpassed.inserted]
    · rw [hsame, hpassed.counter]
  · obtain rfl : more = [] := List.eq_nil_of_length_eq_zero (by simpa using hone)
    refine ⟨hinStep.keep hdoes hquiet,
      h.ordered.keep hextract fun _ heq => (nomatch heq), done, ?_⟩
    have hserver : { c.server with producer := .entering request } = c'.server :=
      Option.some.inj ((if_pos hproducer).symm.trans hextract)
    constructor
    · rw [hinserted, ← hserver]
      rfl
    · rw [← hserver, ← hpassed.inserted]
    · rw [← hserver, ← hpassed.counter]

/-- **Every advance keeps the reception in order**, as long as it is guarded. -/
theorem Receives.keep {l : Advance} (h : Receives server_pipe_path ms c) (hl : l.Reliable)
    (hstep : receptionStep server_pipe_path c l = some c') (hg : Connects c l) :
    Receives server_pipe_path ms c' := by
  cases l with
  | round ρ => exact h.round hl hstep hg
  | thread a =>
    obtain ⟨ha, server, hserver, rfl⟩ := receptionStep_thread hstep
    obtain ⟨done, hpassed⟩ := h.passed
    exact ⟨h.inStep, h.ordered.keep hserver hg, hpassed.thread h.ordered.clean hserver ha⟩

theorem receives_start {x₀ : Extractor} (h : Awaits (messages ms) x₀) :
    Receives server_pipe_path ms ⟨x₀, startServer⟩ where
  inStep := ⟨[], ms, rfl, h.eof, h.bytes, h.inserted, by simp [h.opCodes],
    fun hs => absurd h.stopped hs⟩
  ordered := ordered_start
  passed := ⟨[], h.inserted, rfl, rfl⟩

end Advance

/-! ## Every client in its place -/

/-- Every client is in one place: the workers have got the first ones, in the order of their
    messages, the next ones are in the buffer, the one after them is with the inserting thread, and
    the messages of the others are in the pipe. -/
def Accounted (server_pipe_path : Bytes) (ms : List Setup) (c : Reception) : Prop :=
  ∃ waiting : List Setup, c.host.server_fd.bytes = messages waiting ∧
    numbered (ms.map (Setup.request server_pipe_path)) =
      c.server.retrieved ++ c.server.queue.contents ++
        numberedFrom c.server.inserted.length
          (c.server.producer.pending ++ waiting.map (Setup.request server_pipe_path))

/-- The buffer holds what has been inserted and not been retrieved. -/
theorem Ordered.contents {s : Server} (h : Ordered s) :
    s.inserted = s.retrieved ++ s.queue.contents := by
  have hcount := h.count_eq
  have hlength := h.handed.length_le
  have hcontents := h.holds.contents (n := s.queue.count.toNat) (by omega)
  rw [h.size, ← h.out_eq] at hcontents
  rw [Queue.contents, hcontents]
  obtain ⟨rest, hrest⟩ := h.handed
  rw [← hrest, List.drop_left]

theorem Receives.accounted {server_pipe_path : Bytes} {ms : List Setup} {c : Reception}
    (h : Receives server_pipe_path ms c) : Accounted server_pipe_path ms c := by
  obtain ⟨front, rest, hinStep⟩ := h.inStep
  obtain ⟨done, hpassed⟩ := h.passed
  have hsplit : ms.map (Setup.request server_pipe_path) =
      done ++ (c.server.producer.pending ++ rest.map (Setup.request server_pipe_path)) := by
    rw [hinStep.split, List.map_append, ← hinStep.inserted, hpassed.read, List.append_assoc]
  have hdone : c.server.inserted.length = done.length := by
    rw [hpassed.inserted, length_numbered]
  refine ⟨rest, hinStep.bytes, ?_⟩
  rw [← h.ordered.contents, hdone, hpassed.inserted, hsplit, numbered_append]

/-- **Clients are served in the order of their messages**, each once and with its own paths, under
    session ids that differ, and none of them is lost on the way: in every run of the threads in
    which no round is disturbed by a signal, no call of the main thread fails and every
    `retrieve_request` finds a request. -/
theorem clients_in_order {server_pipe_path : Bytes} {ms : List Setup} {x₀ : Extractor}
    {advances : List Advance} {c : Reception} (hstart : Awaits (messages ms) x₀)
    (hfew : ms.length < 2 ^ 31) (hreliable : ∀ l ∈ advances, l.Reliable)
    (hguarded : Guarded (receptionStep server_pipe_path) Connects ⟨x₀, startServer⟩ advances)
    (hrun : exec (receptionStep server_pipe_path) ⟨x₀, startServer⟩ advances = some c) :
    Accounted server_pipe_path ms c ∧
      ((numbered (ms.map (Setup.request server_pipe_path))).map Request.session_id).Nodup := by
  have hend : Receives server_pipe_path ms c :=
    exec_guarded (fun _ _ _ hl h hstep hg => h.keep hl hstep hg) hreliable (receives_start hstart)
      hguarded hrun
  refine ⟨hend.accounted, session_ids_nodup ?_⟩
  rwa [List.length_map]

/-! ### Two clients -/

/-- Both clients have written their messages; the first one is with a worker when the second one is
    read. -/
def twoArrivals (i : WorkerId) : List Advance :=
  [.thread (.test i), .round {}, .thread (.insert (some i)), .thread (.test i),
    .thread (.retrieve i), .round {}, .thread (.insert none), .round {}]

instance (x : Extractor) (ρ : Round) : Decidable (Undisturbed x ρ) :=
  inferInstanceAs (Decidable (_ → _ ∧ _ ∧ (_ → _ ∧ _)))

instance (c : Reception) : ∀ l : Advance, Decidable (Connects c l)
  | .round ρ => inferInstanceAs (Decidable (Undisturbed c.host ρ))
  | .thread (.retrieve i) =>
    decidable_of_iff (c.server.queue.count ≠ 0)
      ⟨fun h _ _ => h, fun h => h i rfl⟩
  | .thread (.extract _) | .thread (.insert _) | .thread .wakeProducer | .thread (.test _)
  | .thread (.wake _) | .thread (.start ..) | .thread (.next ..) | .thread (.remove _)
  | .thread (.leave _) => isTrue fun _ h => nomatch h

theorem clients_in_order_two : ∃ c, exec (receptionStep [])
      ⟨.reading (messages [setupAB, setupCD]), startServer⟩ (twoArrivals 0) = some c ∧
    c.server.retrieved = [⟨0, [97], [98], []⟩] ∧ c.server.queue.contents = [⟨1, [99], [100], []⟩] ∧
    Accounted [] [setupAB, setupCD] c ∧
    ((numbered ([setupAB, setupCD].map (Setup.request []))).map Request.session_id).Nodup := by
  obtain ⟨c, hc, hend⟩ := (Option.any_eq_true _ _).1 (by decide +kernel :
    (exec (receptionStep []) ⟨.reading (messages [setupAB, setupCD]), startServer⟩
      (twoArrivals 0)).any (fun c => c.server.retrieved = [⟨0, [97], [98], []⟩] ∧
        c.server.queue.contents = [⟨1, [99], [100], []⟩]) = true)
  obtain ⟨hretrieved, hcontents⟩ := of_decide_eq_true hend
  have hreliable : ∀ l ∈ twoArrivals 0, l.Reliable := by
    have hquiet : Round.Reliable {} := ⟨by decide, rfl, rfl⟩
    intro l hl
    cases l with
    | thread a => trivial
    | round ρ =>
      obtain rfl : ρ = {} := by simpa [twoArrivals] using hl
      exact hquiet
  exact ⟨c, hc, hretrieved, hcontents,
    clients_in_order (awaits_reading _) (by decide) hreliable (by decide +kernel) hc⟩

/-! ## A full buffer -/

/-- The inserting thread has gone to sleep in the state `c₀` of the reception. -/
structure Asleep (request : Request) (c₀ c : Reception) : Prop where
  host : c.host = c₀.host
  parked : c.server.producer = .parked request
  inserted : c.server.inserted = c₀.server.inserted
  buffer : c.server.queue.buffer = c₀.server.queue.buffer
  retrieved : ∃ more, c.server.retrieved = c₀.server.retrieved ++ more ∧
    ∀ r ∈ more, r ∈ c₀.server.queue.buffer
  clean : ∀ i, (c.server.workers i).Clean

section Asleep

variable {server_pipe_path : Bytes} {request : Request} {c₀ c c' : Reception}

/-- The main thread waits for the thread that sleeps. -/
theorem Asleep.no_round (h : Asleep request c₀ c) (ρ : Round) :
    receptionStep server_pipe_path c (.round ρ) = none := by
  unfold receptionStep
  rw [h.parked]
  exact if_neg Producer.noConfusion

/-- Nothing but a wake-up without a signal ends the sleep. -/
theorem Asleep.keep {l : Advance} (h : Asleep request c₀ c) (hl : l ≠ .thread .wakeProducer)
    (hstep : receptionStep server_pipe_path c l = some c') : Asleep request c₀ c' := by
  cases l with
  | round ρ =>
    rw [h.no_round] at hstep
    cases hstep
  | thread a =>
    obtain ⟨ha, server, hserver, rfl⟩ := receptionStep_thread hstep
    obtain ⟨hacts, hclean⟩ := queueStep_acts h.clean hserver
    have hparked := h.parked
    cases hacts with
    | extract hp => exact absurd rfl (ha _)
    | park hp _ => exact Producer.noConfusion (hp.symm.trans hparked)
    | insert hp _ => exact Producer.noConfusion (hp.symm.trans hparked)
    | wakeProducer _ => exact absurd rfl hl
    | work _ => exact ⟨h.host, hparked, h.inserted, h.buffer, h.retrieved, hclean⟩
    | retrieve hq =>
      -- what a worker takes has been in the buffer all along
      obtain ⟨r, hslot, heq⟩ := Option.map_eq_some_iff.1 hq
      obtain ⟨rfl, rfl⟩ := Prod.mk.inj heq
      obtain ⟨more, hmore, hbuffer⟩ := h.retrieved
      refine ⟨h.host, hparked, h.inserted, h.buffer, ⟨more ++ [r], ?_, ?_⟩, hclean⟩
      · show c.server.retrieved ++ [r] = _
        rw [hmore, List.append_assoc]
      · intro r' hr'
        obtain hr' | hr' := List.mem_append.1 hr'
        · exact hbuffer r' hr'
        · rw [List.mem_singleton.1 hr', ← h.buffer]
          exact List.mem_of_getElem? hslot

/-- No worker ever has a call of `remove_session` to make. -/
theorem reception_clean {x₀ : Extractor} {advances : List Advance}
    (h : exec (receptionStep server_pipe_path) ⟨x₀, startServer⟩ advances = some c) :
    ∀ i, (c.server.workers i).Clean := by
  have hkeep : ∀ (c : Reception) (l : Advance) (c' : Reception),
      (∀ i, (c.server.workers i).Clean) → receptionStep server_pipe_path c l = some c' →
      ∀ i, (c'.server.workers i).Clean := by
    intro c l c' hclean hstep
    cases l with
    | round ρ =>
      obtain ⟨-, -, ⟨-, hsame⟩ | ⟨request, -, -, hextract⟩⟩ := receptionStep_round hstep
      · rwa [hsame]
      · exact (queueStep_acts hclean hextract).2
    | thread a =>
      obtain ⟨-, server, hserver, rfl⟩ := receptionStep_thread hstep
      exact (queueStep_acts hclean hserver).2
  exact exec_invariant (I := fun c => ∀ i, (c.server.workers i).Clean) hkeep (fun _ => trivial) h

/-- **The first client that finds the buffer full is the last one**: in every run, once the inserting
    thread waits, it waits for good unless it wakes up without a signal. Until then the main thread
    reads nothing, no request is inserted, and workers get only what is in the buffer. -/
theorem asleep_for_good {x₀ : Extractor} {advances advances' : List Advance}
    (hrun : exec (receptionStep server_pipe_path) ⟨x₀, startServer⟩ advances = some c)
    (hparked : c.server.producer = .parked request)
    (hrun' : exec (receptionStep server_pipe_path) c advances' = some c')
    (hsignals : ∀ l ∈ advances', l ≠ .thread .wakeProducer) :
    Asleep request c c' ∧ ∀ ρ, receptionStep server_pipe_path c' (.round ρ) = none := by
  have hstart : Asleep request c c := ⟨rfl, hparked, rfl, rfl, ⟨[], (List.append_nil _).symm,
    List.forall_mem_nil _⟩, reception_clean hrun⟩
  have hend : Asleep request c c' :=
    exec_invariant_of (fun _ _ _ hl h hstep => h.keep hl hstep) hsignals hstart hrun'
  exact ⟨hend, hend.no_round⟩

end Asleep

/-! ### Three clients -/

/-- Three clients have written their messages before a worker looks at the buffer. -/
def threeArrivals : List Advance :=
  [.round {}, .thread (.insert none), .round {}, .thread (.insert none), .round {},
    .thread (.insert none)]

/-- Two workers take a client each. -/
def bothTake (i j : WorkerId) : List Advance :=
  [.thread (.test i), .thread (.test j), .thread (.retrieve i), .thread (.retrieve j)]

/-- The third client is not inserted although the buffer is empty. -/
theorem asleep_for_good_three : ∃ c c', exec (receptionStep [])
      ⟨.reading (messages [setupAB, setupCD, setupAB]), startServer⟩ threeArrivals = some c ∧
    exec (receptionStep []) c (bothTake 0 1) = some c' ∧ c'.server.queue.count = 0 ∧
    Asleep (setupAB.request []) c c' ∧ ∀ ρ, receptionStep [] c' (.round ρ) = none := by
  have hrun : (exec (receptionStep [])
      ⟨.reading (messages [setupAB, setupCD, setupAB]), startServer⟩ threeArrivals).any (fun c =>
        c.server.producer = .parked (setupAB.request []) ∧
        (exec (receptionStep []) c (bothTake 0 1)).any fun c' => c'.server.queue.count = 0) = true := by
    decide +kernel
  obtain ⟨c, hc, hend⟩ := (Option.any_eq_true _ _).1 hrun
  obtain ⟨hparked, hrun'⟩ := of_decide_eq_true hend
  obtain ⟨c', hc', hcount⟩ := (Option.any_eq_true _ _).1 hrun'
  have hsignals : ∀ l ∈ bothTake 0 1, l ≠ .thread .wakeProducer := by
    intro l hl heq
    subst heq
    simp [bothTake] at hl
  exact ⟨c, c', hc, hc', of_decide_eq_true hcount, asleep_for_good hc hparked hc' hsignals⟩

end EventServer
