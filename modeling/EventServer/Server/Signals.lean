import EventServer.Server.Requests

/-
  SIGUSR1 and the setup messages.

  The pipe holds complete messages one after the other. As long as no round is disturbed
  (`Undisturbed`), `extract_requests` stays in step with them (`InStep`); the first disturbed
  round leaves it in the middle of a message or out of the game (`Lost`), from where it reads a
  byte of a path as an op code or inserts too few requests. So it inserts exactly the request of
  each message, reading only op codes as op codes, if and only if SIGUSR1 disturbs no round
  (`served_iff`).
-/

namespace EventServer

open Lib Client

/-- The server has inserted one request per message, in order, with the paths of the message, and
    it has read only first bytes of messages as op codes: the number of bytes still to come was a
    multiple of the message size each time. -/
structure Served (server_pipe_path : Bytes) (ms : List Setup) (x : Extractor) : Prop where
  inserted : x.inserted = ms.map (Setup.request server_pipe_path)
  framed : ∀ n ∈ x.opCodes, messageSize ∣ n

variable {server_pipe_path : Bytes} {ms : List Setup} {x x' : Extractor} {ρ : Round}

/-- The server stands between two messages and has served those before. -/
structure InStep (server_pipe_path : Bytes) (ms front rest : List Setup) (x : Extractor) :
    Prop where
  split : ms = front ++ rest
  eof : x.server_fd.eof = false
  bytes : x.server_fd.bytes = messages rest
  inserted : x.inserted = front.map (Setup.request server_pipe_path)
  framed : ∀ n ∈ x.opCodes, messageSize ∣ n
  stopped : x.stopped ≠ none → rest = []

/-- The server has read a byte of a path as an op code, has stopped too early, or stands in the
    middle of a message. -/
def Lost (ms : List Setup) (x : Extractor) : Prop :=
  x.server_fd.eof = false ∧ ((∃ n ∈ x.opCodes, ¬ messageSize ∣ n) ∨
    (x.stopped ≠ none ∧ x.inserted.length < ms.length) ∨
    (x.stopped = none ∧ ¬ messageSize ∣ x.server_fd.bytes.length))

theorem messages_cons {m : Setup} {rest : List Setup} :
    messages (m :: rest) = 1 :: (m.req_pipe_path.field ++ (m.resp_pipe_path.field ++ messages rest)) := by
  simp [messages, Setup.message]

/-- The paths of a message are copied as they are. -/
theorem copied_message (m : Setup) (rest : Bytes) (b b' : Buffer MAX_PATH) :
    copied server_pipe_path
      (b.overwrite ((m.req_pipe_path.field ++ (m.resp_pipe_path.field ++ rest)).take MAX_PATH)).bytes
      (b'.overwrite (((m.req_pipe_path.field ++ (m.resp_pipe_path.field ++ rest)).drop
        MAX_PATH).take MAX_PATH)).bytes = ([m.request server_pipe_path], none) := by
  have hreq := m.req_pipe_path.length_field
  have hresp := m.resp_pipe_path.length_field
  rw [List.take_left' hreq, List.drop_left' hreq, List.take_left' hresp,
    overwrite_of_length _ hreq, overwrite_of_length _ hresp, copied, snprintf_field, snprintf_field]
  rfl

theorem InStep.rest_eq_nil {front rest : List Setup} (h : InStep server_pipe_path ms front rest x)
    (hbytes : x.server_fd.bytes = []) : rest = [] := by
  have hlen := congrArg List.length (h.bytes.symm.trans hbytes)
  rw [length_messages, List.length_nil, messageSize, Nat.mul_eq_zero] at hlen
  exact List.eq_nil_of_length_eq_zero (hlen.resolve_right (by omega))

/-- What is still to come begins with an op code that is 1, and a whole message is there. -/
theorem InStep.next {front rest : List Setup} (h : InStep server_pipe_path ms front rest x)
    {op_code : UInt8} {bs : Bytes} (hbytes : x.server_fd.bytes = op_code :: bs) :
    op_code = 1 ∧ ∃ m rest', rest = m :: rest' ∧
      bs = m.req_pipe_path.field ++ (m.resp_pipe_path.field ++ messages rest') := by
  rw [h.bytes] at hbytes
  cases rest with
  | nil => simp [messages] at hbytes
  | cons m rest' =>
    rw [messages_cons] at hbytes
    obtain ⟨rfl, rfl⟩ := List.cons.inj hbytes
    exact ⟨rfl, m, rest', rfl, rfl⟩

/-- The op codes after the next message has been begun. -/
theorem InStep.framed_next {front rest : List Setup}
    (h : InStep server_pipe_path ms front rest x) {op_code : UInt8} {bs : Bytes}
    (hbytes : x.server_fd.bytes = op_code :: bs) :
    ∀ n ∈ x.opCodes ++ [bs.length + 1], messageSize ∣ n := by
  have hlen := congrArg List.length (h.bytes.symm.trans hbytes)
  rw [length_messages, List.length_cons] at hlen
  intro n hn
  obtain hn | hn := List.mem_append.1 hn
  · exact h.framed n hn
  · rw [List.mem_singleton.1 hn, ← hlen]
    exact Nat.dvd_mul_left _ _

theorem length_after {rest : List Setup} {m : Setup} {k : Nat} (hk : k ≤ 2 * MAX_PATH) :
    ((m.req_pipe_path.field ++ (m.resp_pipe_path.field ++ messages rest)).drop k).length + k =
      rest.length * messageSize + 2 * MAX_PATH := by
  simp only [List.length_drop, List.length_append, PipePath.length_field, length_messages]
  omega

/-- An undisturbed round serves the next message, or waits for one. -/
theorem InStep.keep {front rest : List Setup} (h : InStep server_pipe_path ms front rest x)
    (hdoes : Does server_pipe_path ρ x x') (hquiet : Undisturbed x ρ) :
    ∃ front' rest', InStep server_pipe_path ms front' rest' x' := by
  cases hdoes with
  | waits hbytes _ h' =>
    obtain rfl := h.rest_eq_nil hbytes
    exact ⟨front, [], h.split, h'.eof, h'.bytes, by simpa [h.inserted] using h'.inserted,
      by simpa [h'.opCodes] using h.framed, fun _ => rfl⟩
  | interrupted _ h' =>
    exact ⟨front, rest, h.split, h'.eof, h'.bytes.trans h.bytes,
      by simpa [h.inserted] using h'.inserted, by simpa [h'.opCodes] using h.framed,
      fun hs => absurd h'.stopped hs⟩
  | prints _ hdisturbed _ => exact absurd hquiet hdisturbed
  | skips hbytes hop _ _ => exact absurd (h.next hbytes).1 hop
  | short hbytes hlen _ =>
    obtain ⟨-, m, rest', rfl, rfl⟩ := h.next hbytes
    simp only [List.length_append, PipePath.length_field] at hlen
    omega
  | reads hbytes k k' _ _ _ hfull h' =>
    obtain ⟨-, m, rest', rfl, hbs⟩ := h.next hbytes
    obtain ⟨rfl, rfl⟩ := hfull.1 hquiet
    have hframed := h.framed_next hbytes
    rw [hbs, copied_message] at h'
    refine ⟨front ++ [m], rest', by simp [h.split], h'.eof, ?_, ?_, ?_, fun hs => absurd h'.stopped hs⟩
    · rw [h'.bytes, ← List.append_assoc, List.drop_left' (by simp)]
    · rw [h'.inserted, h.inserted, List.map_append]
      rfl
    · rw [h'.opCodes, ← hbs]
      exact hframed

/-- Somewhere behind the op code of a message and before its end. -/
theorem not_dvd_of_middle {n q j : Nat} (hj : j < 2 * MAX_PATH)
    (h : n + j = q * messageSize + 2 * MAX_PATH) : ¬ messageSize ∣ n := by
  rintro ⟨d, rfl⟩
  simp only [messageSize, MAX_PATH] at hj h
  omega

/-- A disturbed round leaves the server in the middle of a message, or ends it. -/
theorem InStep.lose {front rest : List Setup} (h : InStep server_pipe_path ms front rest x)
    (hdoes : Does server_pipe_path ρ x x') (hdisturbed : ¬ Undisturbed x ρ) : Lost ms x' := by
  refine ⟨hdoes.eof, ?_⟩
  cases hdoes with
  | waits _ hquiet _ => exact absurd hquiet hdisturbed
  | interrupted hquiet _ => exact absurd hquiet hdisturbed
  | prints hbytes _ h' =>
    obtain ⟨-, m, rest', rfl, rfl⟩ := h.next hbytes
    refine Or.inr (Or.inr ⟨h'.stopped, ?_⟩)
    rw [h'.bytes]
    exact not_dvd_of_middle (j := 0) (by decide) (length_after (m := m) (Nat.zero_le _))
  | skips _ _ hquiet _ => exact absurd hquiet hdisturbed
  | short hbytes hlen _ =>
    obtain ⟨-, m, rest', rfl, rfl⟩ := h.next hbytes
    simp only [List.length_append, PipePath.length_field] at hlen
    omega
  | reads hbytes k k' hk hk' _ hfull h' =>
    obtain ⟨-, m, rest', rfl, rfl⟩ := h.next hbytes
    have hlt : k + k' < 2 * MAX_PATH := by
      by_contra hge
      exact hdisturbed (hfull.2 ⟨by omega, by omega⟩)
    have hfew : front.length < ms.length := by simp [h.split]
    unfold copied at h'
    split at h'
    · refine Or.inr (Or.inr ⟨h'.stopped, ?_⟩)
      rw [h'.bytes]
      exact not_dvd_of_middle hlt (length_after hlt.le)
    · refine Or.inr (Or.inl ⟨by simp [h'.stopped], ?_⟩)
      rw [h'.inserted, h.inserted]
      simpa using hfew

/-- The server does not come back into step. -/
theorem Lost.keep (h : Lost ms x) (hs : x.stopped = none)
    (hdoes : Does server_pipe_path ρ x x') : Lost ms x' := by
  refine ⟨hdoes.eof, ?_⟩
  obtain ⟨-, ⟨n, hn, hdvd⟩ | ⟨hstopped, -⟩ | ⟨-, hdvd⟩⟩ := h
  · exact Or.inl ⟨n, hdoes.opCodes_prefix.mem hn, hdvd⟩
  · exact absurd hs hstopped
  · -- the next byte that is read is not the first of a message
    have hread : ∀ {op_code bs}, x.server_fd.bytes = op_code :: bs →
        x'.opCodes = x.opCodes ++ [bs.length + 1] → ∃ n ∈ x'.opCodes, ¬ messageSize ∣ n :=
      fun hbytes hcodes => ⟨_, by rw [hcodes]; exact List.mem_append_right _ (List.mem_singleton_self _),
        by rwa [hbytes] at hdvd⟩
    cases hdoes with
    | waits hbytes _ _ => exact absurd (by simp [hbytes]) hdvd
    | interrupted _ h' => exact Or.inr (Or.inr ⟨h'.stopped, by rwa [h'.bytes]⟩)
    | prints hbytes _ h' => exact Or.inl (hread hbytes h'.opCodes)
    | skips hbytes _ _ h' => exact Or.inl (hread hbytes h'.opCodes)
    | short hbytes _ h' => exact Or.inl (hread hbytes h'.opCodes)
    | reads hbytes _ _ _ _ _ _ h' => exact Or.inl (hread hbytes h'.opCodes)

theorem Lost.not_served (h : Lost ms x) (hthrough : Through x) : ¬ Served server_pipe_path ms x := by
  intro hserved
  obtain ⟨-, ⟨n, hn, hdvd⟩ | ⟨-, hfew⟩ | ⟨hs, hdvd⟩⟩ := h
  · exact hdvd (hserved.framed n hn)
  · simp [hserved.inserted] at hfew
  · obtain hbytes | hstopped := hthrough
    · simp [hbytes] at hdvd
    · exact hstopped hs

/-- After a run the server is in step if no round was disturbed, and lost otherwise. -/
theorem inStep_or_lost {x₀ : Extractor} {ρs : List Round} (hstart : Awaits (messages ms) x₀)
    (hρs : ∀ ρ ∈ ρs, ρ.Reliable) (hrun : exec (extractStep server_pipe_path) x₀ ρs = some x) :
    Guarded (extractStep server_pipe_path) Undisturbed x₀ ρs ∧
        (∃ front rest, InStep server_pipe_path ms front rest x) ∨
      ¬ Guarded (extractStep server_pipe_path) Undisturbed x₀ ρs ∧ Lost ms x := by
  have hfirst : ∃ front rest, InStep server_pipe_path ms front rest x₀ :=
    ⟨[], ms, rfl, hstart.eof, hstart.bytes, by simp [hstart.inserted], by simp [hstart.opCodes],
      fun hs => absurd hstart.stopped hs⟩
  refine exec_guarded_or (G := Undisturbed)
    (J := fun x => ∃ front rest, InStep server_pipe_path ms front rest x) (L := Lost ms)
    (A := Round.Reliable) ?_ ?_ ?_ hρs hfirst hrun
  · rintro x ρ x' hρ ⟨front, rest, h⟩ hstep hquiet
    obtain ⟨hs, rfl⟩ := extractStep_eq_some hstep
    exact h.keep (extractRound_does server_pipe_path h.eof hs hρ) hquiet
  · rintro x ρ x' hρ ⟨front, rest, h⟩ hstep hdisturbed
    obtain ⟨hs, rfl⟩ := extractStep_eq_some hstep
    exact h.lose (extractRound_does server_pipe_path h.eof hs hρ) hdisturbed
  · intro x ρ x' hρ h hstep
    obtain ⟨hs, rfl⟩ := extractStep_eq_some hstep
    exact h.keep hs (extractRound_does server_pipe_path h.1 hs hρ)

theorem InStep.inserted_of_through {front rest : List Setup}
    (h : InStep server_pipe_path ms front rest x) (hthrough : Through x) :
    x.inserted = ms.map (Setup.request server_pipe_path) := by
  obtain rfl : rest = [] := by
    obtain hbytes | hs := hthrough
    · exact h.rest_eq_nil hbytes
    · exact h.stopped hs
  rw [h.inserted, h.split, List.append_nil]

/-- **SIGUSR1 costs no client its session if and only if it disturbs no round**: no read of a path
    is interrupted, and `print_flag` is clear whenever it is tested after the read of an op
    code. -/
theorem served_iff {x₀ : Extractor} {ρs : List Round} (hstart : Awaits (messages ms) x₀)
    (hρs : ∀ ρ ∈ ρs, ρ.Reliable) (hrun : exec (extractStep server_pipe_path) x₀ ρs = some x)
    (hthrough : Through x) :
    Served server_pipe_path ms x ↔ Guarded (extractStep server_pipe_path) Undisturbed x₀ ρs := by
  obtain ⟨hguarded, front, rest, h⟩ | ⟨hguarded, h⟩ := inStep_or_lost hstart hρs hrun
  · exact iff_of_true ⟨h.inserted_of_through hthrough, h.framed⟩ hguarded
  · exact iff_of_false (h.not_served hthrough) hguarded

/-- The requests of the messages, when no round is disturbed. -/
theorem inserted_of_undisturbed {x₀ : Extractor} {ρs : List Round}
    (hstart : Awaits (messages ms) x₀) (hρs : ∀ ρ ∈ ρs, ρ.Reliable)
    (hquiet : Guarded (extractStep server_pipe_path) Undisturbed x₀ ρs)
    (hrun : exec (extractStep server_pipe_path) x₀ ρs = some x) (hthrough : Through x) :
    x.inserted = ms.map (Setup.request server_pipe_path) := by
  obtain ⟨-, front, rest, h⟩ | ⟨hno, -⟩ := inStep_or_lost hstart hρs hrun
  · exact h.inserted_of_through hthrough
  · exact absurd hquiet hno

/-! ### Two signals -/

def sampleExtractor : Extractor := .reading (messages [setupAB])

def interruptedRounds : List Round := [{ turns := [.eintr] }, {}, {}]

/-- SIGUSR1 interrupts the read of an op code before the message comes. -/
theorem served_iff_interrupted : ∃ x,
    exec (extractStep []) sampleExtractor interruptedRounds = some x ∧
    (Served [] [setupAB] x ↔
      Guarded (extractStep []) Undisturbed sampleExtractor interruptedRounds) := by
  have hrun : (exec (extractStep []) sampleExtractor interruptedRounds).any
      (fun x => x.stopped ≠ none) = true := by decide +kernel
  have hreliable : ∀ ρ ∈ interruptedRounds, ρ.Reliable := by
    rintro ρ (_ | ⟨_, _ | ⟨_, _ | ⟨_, ⟨⟩⟩⟩⟩) <;> exact ⟨by decide, rfl, rfl⟩
  obtain ⟨x, hx, hs⟩ := (Option.any_eq_true _ _).1 hrun
  exact ⟨x, hx, served_iff (awaits_reading _) hreliable hx (Or.inr (of_decide_eq_true hs))⟩

def droppedRounds : List Round := { turns := [.signal] } :: List.replicate 81 {}

/-- SIGUSR1 comes before the server takes the op code of a message that has arrived: the op code
    is dropped, and the bytes of the paths are read as op codes. -/
theorem dropped_setup : ∃ x, Awaits (messages [setupAB]) sampleExtractor ∧
    exec (extractStep []) sampleExtractor droppedRounds = some x ∧ Through x ∧
    x.inserted = [] ∧ 80 ∈ x.opCodes ∧ ¬ Served [] [setupAB] x := by
  have hrun : (exec (extractStep []) sampleExtractor droppedRounds).any
      (fun x => x.stopped ≠ none ∧ x.inserted = [] ∧ 80 ∈ x.opCodes) = true := by decide +kernel
  obtain ⟨x, hx, hend⟩ := (Option.any_eq_true _ _).1 hrun
  obtain ⟨hs, hinserted, hcodes⟩ := of_decide_eq_true hend
  refine ⟨x, awaits_reading _, hx, Or.inr hs, hinserted, hcodes, fun hserved => ?_⟩
  have := hserved.inserted
  simp [hinserted] at this

end EventServer
