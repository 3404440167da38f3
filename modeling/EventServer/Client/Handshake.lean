import EventServer.Client.Cleanup
import EventServer.Server.Signals

/-
  The paths that the client is given.

  `ems_setup` copies three of them to arrays of `MAX_PATH` bytes before it looks at anything, and
  `main` copies the fourth to an array of `MAX_JOB_FILE_NAME_SIZE` bytes after a test that lets a
  path of exactly that length pass, without room for the NUL. Paths that fit reach the server and
  the output file unchanged, and there is no other condition (`survives_iff`).
-/

namespace EventServer.Client

open Lib Main

variable {σ : Type} {req resp server jobs : CString}

/-- Whatever messages stand before and after this one in the server pipe, the server inserts their
    requests, and in between the request for these two paths, as long as SIGUSR1 disturbs no
    round. -/
def Delivered (req resp message : Bytes) : Prop :=
  ∀ (front back : List Setup) (server_pipe_path : Bytes) (x₀ x : Extractor) (ρs : List Round),
    Awaits (messages front ++ message ++ messages back) x₀ → (∀ ρ ∈ ρs, ρ.Reliable) →
    Guarded (extractStep server_pipe_path) Undisturbed x₀ ρs →
    exec (extractStep server_pipe_path) x₀ ρs = some x → Through x →
    x.inserted = front.map (Setup.request server_pipe_path) ++
      ⟨-1, req, resp, server_pipe_path⟩ :: back.map (Setup.request server_pipe_path)

/-- A client that has sent a whole message is known to the server by its paths, and the output path
    is the one for the job file. -/
structure Handed (req resp jobs : Bytes) (s : Program σ) : Prop where
  request : messageSize ≤ s.server_fd.written.length → Delivered req resp s.server_fd.written
  out_path : ∀ out, s.out_path = some out → Replaced jobs out

/-- Whatever happens to a client with these paths, no copy is larger than its array, and what it
    hands on is right; it may refuse the paths. -/
def Survives (req resp server jobs : CString) : Prop :=
  ∀ (σ : Type) (e : MainEnv σ) (name : CString) (more : List CString),
    wp (main e (name :: req :: resp :: server :: jobs :: more))
      (fun _ s => Handed req.bytes resp.bytes jobs.bytes s)
      (fun p => p.1 ≠ .overflow ∧ Handed req.bytes resp.bytes jobs.bytes p.2) e.start

/-- The client does not refuse these paths if there are no such files and nothing fails. -/
structure Acceptable (req resp server jobs : CString) : Prop where
  req_ne : req.bytes ≠ []
  resp_ne : resp.bytes ≠ []
  server_ne : server.bytes ≠ []
  ne : req.bytes ≠ resp.bytes
  jobs : validJobs jobs.bytes = true

/-! ## Paths that fit -/

theorem delivered_of_announced {written : Bytes} (hreq : req.bytes.length < MAX_PATH)
    (hresp : resp.bytes.length < MAX_PATH) (h : Announced req resp written)
    (hlen : messageSize ≤ written.length) : Delivered req.bytes resp.bytes written := by
  obtain rfl | ⟨hne, hne', hpart⟩ := h
  · rw [List.length_nil, messageSize] at hlen
    omega
  let m : Setup :=
    { req_pipe_path := ⟨req.bytes, hne, req.no_nul, hreq⟩
      resp_pipe_path := ⟨resp.bytes, hne', resp.no_nul, hresp⟩ }
  have hflatten : (setupBuffers req resp).flatten = m.message := m.flatten_writes
  rw [hflatten] at hpart
  obtain rfl : written = m.message := hpart.eq_of_length_le (by rw [m.length_message]; exact hlen)
  intro front back server_pipe_path x₀ x ρs hstart hρs hquiet hrun hthrough
  have hmessages :
      messages (front ++ m :: back) = messages front ++ m.message ++ messages back := by
    simp [messages]
  rw [inserted_of_undisturbed (hmessages ▸ hstart) hρs hquiet hrun hthrough, List.map_append]
  rfl

variable {s s' : Program σ}

/-- As long as no output path has been opened. -/
theorem handed_of_announced (hreq : req.bytes.length < MAX_PATH)
    (hresp : resp.bytes.length < MAX_PATH) (h : Announced req resp s.server_fd.written)
    (hout : s.out_path = none) : Handed req.bytes resp.bytes jobs.bytes s :=
  ⟨delivered_of_announced hreq hresp h, fun _ heq => nomatch hout.symm.trans heq⟩

theorem Handed.onlyOpens {out : Bytes} (h : Handed req.bytes resp.bytes jobs.bytes s)
    (honly : OnlyOpens out s s') (hout : Replaced jobs.bytes out) :
    Handed req.bytes resp.bytes jobs.bytes s' := by
  refine ⟨honly.server_fd ▸ h.request, fun out' heq => ?_⟩
  obtain hsame | hopened := honly.out_path
  · exact h.out_path out' (hsame ▸ heq)
  · obtain rfl : out = out' := Option.some.inj (hopened.symm.trans heq)
    exact hout

theorem wp_main_of_fits (hreq : req.bytes.length < MAX_PATH) (hresp : resp.bytes.length < MAX_PATH)
    (hserver : server.bytes.length < MAX_PATH)
    (hjobs : Acceptable req resp server jobs → jobs.bytes.length < MAX_JOB_FILE_NAME_SIZE)
    (e : MainEnv σ) (name : CString) (more : List CString) :
    wp (main e (name :: req :: resp :: server :: jobs :: more))
      (fun _ s => Handed req.bytes resp.bytes jobs.bytes s)
      (fun p => p.1 ≠ .overflow ∧ Handed req.bytes resp.bytes jobs.bytes p.2) e.start := by
  rw [main, wp_bind]
  refine wp_mono (wp_emsSetup e.setup req resp server rfl) (fun code s hend => ?_) ?_
  · cases hend with
    | refused hfifo h =>
      refine handed_of_announced hreq hresp (Or.inl ?_) h.out_path
      exact congrArg Writer.written h.server_fd
    | left hfifo hno hfifos hfiles hout hwritten =>
      exact handed_of_announced hreq hresp hwritten hout
    | done hfifo hyes hfiles hfifos hout hreq' hresp' hwritten =>
      have hhanded : Handed req.bytes resp.bytes jobs.bytes s :=
        handed_of_announced hreq hresp hwritten hout
      simp only [ne_eq, not_true_eq_false, if_false]
      rw [wp_ite]
      refine ⟨fun _ => ⟨hhanded.request, hhanded.out_path⟩, fun hvalid => ?_⟩
      have hsession := inSession_of_done hyes hfiles hreq' hresp'
      have hacceptable : Acceptable req resp server jobs :=
        ⟨hyes.requestFifo.2.1, hfifo.2.1, hyes.openServer.2, hsession.ne, by simpa using hvalid⟩
      refine wp_mono (wp_openJobs e hacceptable.jobs hsession) ?_ ?_
      · rintro _ s' ⟨out, hout, hends⟩
        exact hhanded.onlyOpens hends.onlyOpens hout
      · rintro ⟨halt, s'⟩ (⟨-, -, hover⟩ | ⟨⟨stop, rfl⟩, out, hout, honly⟩)
        · exact absurd (hjobs hacceptable) (Nat.not_lt.2 hover)
        · exact ⟨Halt.noConfusion, hhanded.onlyOpens honly hout⟩
  · rintro ⟨halt, s'⟩ ⟨hout, ⟨-, -, hover⟩ | ⟨rfl, -, hwritten⟩⟩
    · omega
    · exact ⟨Halt.noConfusion, handed_of_announced hreq hresp hwritten hout⟩

/-! ## Paths that do not fit -/

/-- A pipe path that is too long is copied before anything else. -/
theorem main_overflow (e : MainEnv σ) (name : CString) (more : List CString)
    (h : MAX_PATH ≤ req.bytes.length ∨ MAX_PATH ≤ resp.bytes.length ∨
      MAX_PATH ≤ server.bytes.length) :
    wp (main e (name :: req :: resp :: server :: jobs :: more)) (fun _ _ => False)
      (fun p => p.1 = .overflow) e.start := by
  rw [main, wp_bind, emsSetup, wp_bind]
  refine wp_copy (fun _ => rfl) fun b₀ hb₀ => ?_
  rw [wp_bind]
  refine wp_copy (fun _ => rfl) fun b₂ hb₂ => ?_
  rw [wp_bind]
  refine wp_copy (fun _ => rfl) fun b₁ hb₁ => ?_
  have hserver : server.bytes.length < MAX_PATH := Copied.length_lt hb₀
  have hresp : resp.bytes.length < MAX_PATH := Copied.length_lt hb₂
  have hreq : req.bytes.length < MAX_PATH := Copied.length_lt hb₁
  omega

/-- A path of a job file that is too long is copied when the session has been set up. -/
theorem main_overflow_jobs (name : CString) (more : List CString)
    (h : Acceptable req resp server jobs) (hjobs : MAX_JOB_FILE_NAME_SIZE ≤ jobs.bytes.length) :
    wp (main setUpEnv (name :: req :: resp :: server :: jobs :: more)) (fun _ _ => False)
      (fun p => p.1 = .overflow) setUpEnv.start := by
  have hfifo : CanMake true resp.bytes [] := ⟨rfl, h.resp_ne, by simp⟩
  have hread : (myRead setUpEnv.process.response_pipe 4).ret = some 4 := by decide +kernel
  have hyes : setUpEnv.setup.Succeeds req resp server [resp.bytes] setUpEnv.process.response_pipe :=
    { requestFifo := ⟨rfl, h.req_ne, by simp [h.ne]⟩
      openServer := ⟨rfl, h.server_ne⟩
      message := sendAll_calm _ calm_nil
      enters := ⟨rfl, rfl, by simp [hread], rfl, rfl⟩ }
  rw [main, wp_bind]
  refine wp_mono (wp_emsSetup setUpEnv.setup req resp server rfl) (fun code s hend => ?_) ?_
  · cases hend with
    | refused hno => exact absurd hfifo hno
    | left _ hno => exact absurd hyes hno
    | done =>
      simp only [ne_eq, not_true_eq_false, if_false]
      rw [if_neg (by simp [h.jobs]), openJobs, wp_bind]
      refine wp_copy (fun _ => rfl) fun buf hbuf => ?_
      have hlt := (strcpy_bytes hbuf).1
      omega
  · rintro ⟨halt, s⟩ ⟨-, ⟨rfl, -⟩ | ⟨-, hblocks, -⟩⟩
    · rfl
    · exact absurd (hread.symm.trans hblocks) (Option.some_ne_none _)

theorem not_survives_of_overflow {e : MainEnv σ} {name : CString} {more : List CString}
    (h : wp (main e (name :: req :: resp :: server :: jobs :: more)) (fun _ _ => False)
      (fun p => p.1 = .overflow) e.start) : ¬ Survives req resp server jobs := by
  intro hsurvives
  obtain ⟨p, hrun, hover⟩ := run_error_of_wp h
  have hno := hsurvives σ e name more
  rw [wp_of_run_error hrun] at hno
  exact hno.1 hover

/-- **Paths survive the handshake if and only if they fit**: each pipe path is shorter than
    `MAX_PATH`, and the path of the job file is shorter than `MAX_JOB_FILE_NAME_SIZE` or never
    copied. -/
theorem survives_iff (req resp server jobs : CString) : Survives req resp server jobs ↔
    req.bytes.length < MAX_PATH ∧ resp.bytes.length < MAX_PATH ∧ server.bytes.length < MAX_PATH ∧
      (Acceptable req resp server jobs → jobs.bytes.length < MAX_JOB_FILE_NAME_SIZE) := by
  constructor
  · intro h
    have hfits : ¬ (MAX_PATH ≤ req.bytes.length ∨ MAX_PATH ≤ resp.bytes.length ∨
        MAX_PATH ≤ server.bytes.length) :=
      fun hover => not_survives_of_overflow (main_overflow setUpEnv req [] hover) h
    simp only [not_or, Nat.not_le] at hfits
    obtain ⟨hreq, hresp, hserver⟩ := hfits
    refine ⟨hreq, hresp, hserver, fun hacceptable => ?_⟩
    by_contra hover
    exact not_survives_of_overflow (main_overflow_jobs req [] hacceptable (Nat.not_lt.1 hover)) h
  · rintro ⟨hreq, hresp, hserver, hjobs⟩ σ e name more
    exact wp_main_of_fits hreq hresp hserver hjobs e name more

/-! ### Paths without room for the NUL -/

/-- A path of `n` letters. -/
def letters (n : Nat) : CString := ⟨List.replicate n 97, by simp [List.mem_replicate]⟩

def longJobs : CString :=
  ⟨List.replicate 251 97 ++ ascii ".jobs", by decide +kernel⟩

/-- A pipe path of 40 bytes, and a path of a job file of 256 bytes. -/
theorem not_survives_full :
    ¬ Survives (letters 40) (letters 2) (letters 3) jobsPath ∧
      ¬ Survives (letters 1) (letters 2) (letters 3) longJobs := by
  constructor
  · refine not_survives_of_overflow (main_overflow setUpEnv jobsPath [] (Or.inl ?_))
    simp [letters, MAX_PATH]
  · refine not_survives_of_overflow (main_overflow_jobs jobsPath [] ?_ ?_)
    · exact ⟨by decide, by decide, by decide, by decide, by decide +kernel⟩
    · rw [longJobs, List.length_append, List.length_replicate]
      decide

end EventServer.Client
