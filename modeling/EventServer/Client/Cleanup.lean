import EventServer.Client.Steps

/-
  What a run of the client leaves behind when `main` returns.

  `ems_setup` makes the FIFOs and sends the setup message before most of what can fail, and no
  failure path takes anything back: only `ems_quit`, at the end of the job file, asks the server
  to quit and removes the FIFOs. So nothing is left exactly when the first FIFO could not be made or
  every later step succeeds (`leavesNothing_iff`).
-/

namespace EventServer.Client

open Lib Main

variable {σ : Type} {s : Program σ}

/-- No FIFO that `ems_setup` has made is there, and a server that has been sent a whole setup
    message has been sent a quit request. -/
def LeavesNothing (s : Program σ) : Prop :=
  (∀ p ∈ s.fifos, p ∉ s.files) ∧
    (messageSize ≤ s.server_fd.written.length →
      s.quit_fd.written = 2 :: intBytes s.process.session_id)

instance (s : Program σ) : Decidable (LeavesNothing s) := inferInstanceAs (Decidable (_ ∧ _))

/-- There are enough arguments, and the response pipe can be made. -/
def MakesFifo (e : MainEnv σ) : List CString → Prop
  | _ :: _ :: resp_pipe_p :: _ :: _ :: _ => CanMake e.setup.mkfifoResponse resp_pipe_p.bytes e.files
  | _ => False

/-- Everything that comes after the response pipe has been made succeeds. -/
def Completes (e : MainEnv σ) : List CString → Prop
  | _ :: req_pipe_p :: resp_pipe_p :: server_pipe_p :: path :: _ =>
    e.setup.Succeeds req_pipe_p resp_pipe_p server_pipe_p (resp_pipe_p.bytes :: e.files)
      e.process.response_pipe ∧ validJobs path.bytes = true ∧ e.Runs
  | _ => False

theorem not_leavesNothing {p : Bytes} (hfifos : p ∈ s.fifos) (hfiles : p ∈ s.files) :
    ¬ LeavesNothing s := fun h => h.1 p hfifos hfiles

theorem leavesNothing_nil (hfifos : s.fifos = []) (hwritten : s.server_fd.written = []) :
    LeavesNothing s := by
  refine ⟨by simp [hfifos], fun hlen => ?_⟩
  rw [hwritten, messageSize, List.length_nil] at hlen
  omega

/-- The end of a session whose FIFOs are the only ones. -/
theorem SessionEnds.nothing_iff {succeeds : Prop} {out req resp : Bytes} {s₀ : Program σ}
    (h : SessionEnds succeeds out req resp s₀ s) (hfifos : s₀.fifos = [req, resp]) :
    LeavesNothing s ↔ succeeds := by
  cases h with
  | clean hyes h hreq hresp hquit =>
    refine iff_of_true ⟨fun p hp => ?_, fun _ => hquit⟩ hyes
    rw [h.fifos, hfifos] at hp
    obtain rfl | rfl := by simpa using hp
    · exact hreq
    · exact hresp
  | left hno h hfiles =>
    refine iff_of_false (fun hnothing => ?_) hno
    have hmem := h.fifos.trans hfifos
    exact hfiles.elim (hnothing.1 req (by simp [hmem])) (hnothing.1 resp (by simp [hmem]))

theorem wp_main_long (e : MainEnv σ) (name req resp server path : CString) (more : List CString) :
    wp (main e (name :: req :: resp :: server :: path :: more))
      (fun _ s => LeavesNothing s ↔ ¬ MakesFifo e (name :: req :: resp :: server :: path :: more) ∨
        Completes e (name :: req :: resp :: server :: path :: more)) (fun _ => True) e.start := by
  rw [main, wp_bind]
  refine wp_mono (wp_emsSetup e.setup req resp server rfl) (fun code s hend => ?_)
    fun _ _ => trivial
  cases hend with
  | refused hfifo h =>
    exact iff_of_true (leavesNothing_nil h.fifos (by simp [h.server_fd, MainEnv.start]))
      (Or.inl hfifo)
  | left hfifo hno hfifos hfiles hout hwritten =>
    refine iff_of_false (not_leavesNothing hfifos hfiles) ?_
    exact not_or.2 ⟨not_not_intro hfifo, fun h => hno h.1⟩
  | done hfifo hyes hfiles hfifos hout hreq hresp hwritten =>
    simp only [ne_eq, not_true_eq_false, if_false]
    have hsession := inSession_of_done hyes hfiles hreq hresp
    rw [wp_ite]
    refine ⟨fun hinvalid => ?_, fun hvalid => ?_⟩
    · refine iff_of_false (not_leavesNothing (p := req.bytes) (by simp [hfifos])
        hsession.request) ?_
      exact not_or.2 ⟨not_not_intro hfifo, fun h => by simp [h.2.1] at hinvalid⟩
    have hjobs : validJobs path.bytes = true := by simpa using hvalid
    refine wp_mono (wp_openJobs e hjobs hsession) ?_ fun _ _ => trivial
    rintro _ s' ⟨out, -, hends⟩
    rw [hends.nothing_iff hfifos]
    refine ⟨fun hruns => Or.inr ⟨hyes, hjobs, hruns⟩, fun h => ?_⟩
    exact (h.resolve_left (not_not_intro hfifo)).2.2

theorem wp_main (e : MainEnv σ) : ∀ argv : List CString, wp (main e argv)
    (fun _ s => LeavesNothing s ↔ ¬ MakesFifo e argv ∨ Completes e argv) (fun _ => True) e.start
  | name :: req :: resp :: server :: path :: more => wp_main_long e name req resp server path more
  | [] | [_] | [_, _] | [_, _, _] | [_, _, _, _] =>
    iff_of_true (leavesNothing_nil rfl rfl) (Or.inl id)

/-- **The client leaves nothing behind if and only if it could not make the first FIFO, or nothing
    after that fails.** -/
theorem leavesNothing_iff (e : MainEnv σ) (argv : List CString) {code : Int32} {s : Program σ}
    (hrun : (main e argv).run e.start = .ok (code, s)) :
    LeavesNothing s ↔ ¬ MakesFifo e argv ∨ Completes e argv := by
  have hmain := wp_run_ok (wp_main e argv) hrun
  exact hmain

/-! ### Two runs -/

/-- The server answers that the session id is 7. -/
def setUpEnv : MainEnv Unit where
  process :=
    { session_id := 0
      response_pipe := { bytes := intBytes 7 }
      locals := ⟨.zero 4, .zero 8, .zero 8, .zero 4, .zero 8, .zero 4⟩
      server := () }

/-- The arguments "req", "resp", "server" and a path. -/
def argvWith (path : CString) : List CString :=
  [⟨ascii "client", by decide +kernel⟩, ⟨ascii "req", by decide +kernel⟩,
    ⟨ascii "resp", by decide +kernel⟩, ⟨ascii "server", by decide +kernel⟩, path]

def jobsPath : CString := ⟨ascii "a.jobs", by decide +kernel⟩

def textPath : CString := ⟨ascii "a.txt", by decide +kernel⟩

/-- An empty job file. -/
theorem leavesNothing_iff_jobs : ∃ s,
    (main setUpEnv (argvWith jobsPath)).run setUpEnv.start = .ok (0, s) ∧
    s.files = [ascii "a.out"] ∧
    (LeavesNothing s ↔
      ¬ MakesFifo setUpEnv (argvWith jobsPath) ∨ Completes setUpEnv (argvWith jobsPath)) := by
  have hrun : (main setUpEnv (argvWith jobsPath)).run setUpEnv.start = .ok (0, _) := rfl
  exact ⟨_, hrun, by decide +kernel, leavesNothing_iff setUpEnv (argvWith jobsPath) hrun⟩

/-- A path that `main` refuses after the session has started. -/
theorem not_leavesNothing_text : ∃ code s,
    (main setUpEnv (argvWith textPath)).run setUpEnv.start = .ok (code, s) ∧
    s.files = [ascii "req", ascii "resp"] ∧ s.fifos = s.files ∧
    s.server_fd.written.length = messageSize ∧ s.quit_fd.written = [] ∧ ¬ LeavesNothing s :=
  ⟨_, _, rfl, by decide +kernel⟩

end EventServer.Client
