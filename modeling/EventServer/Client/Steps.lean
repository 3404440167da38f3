import EventServer.Client.Main
import EventServer.Client.Setup
import EventServer.Common.Output

/-
  What `ems_setup`, `ems_quit` and the command loop do to the files and the pipes.

  One specification for each, with the condition on the environment under which it succeeds:
  `wp_emsSetup`, `wp_finish` and `wp_loop`. The command loop leaves everything outside the session
  alone (`Alike`) and ends only with the job file.
-/

namespace EventServer.Client

open Lib

namespace Main

variable {σ : Type} {s s' : Program σ}

/-! ## Rules -/

section Rules

variable {α : Type} {E : Halt × Program σ → Prop}

@[simp] theorem wp_halt {Q : α → Program σ → Prop} (h : Halt) :
    wp (halt h : Main σ α) Q E s ↔ E (h, s) := Iff.rfl

@[simp] theorem wp_print {Q : Unit → Program σ → Prop} (msg : Bytes) :
    wp (print msg) Q E s ↔ Q () { s with stdout := s.stdout ++ msg } := Iff.rfl

@[simp] theorem wp_printError {Q : Unit → Program σ → Prop} (msg : Bytes) :
    wp (printError msg) Q E s ↔ Q () { s with stderr := s.stderr ++ msg } := Iff.rfl

@[simp] theorem wp_fail {Q : Int32 → Program σ → Prop} (msg : String) :
    wp (fail msg) Q E s ↔ Q 1 { s with stderr := s.stderr ++ ascii msg } := Iff.rfl

@[simp] theorem wp_failAt {Q : Int32 → Program σ → Prop} (msg : String) (path : Bytes) :
    wp (failAt msg path) Q E s ↔
      Q 1 { s with stderr := s.stderr ++ (ascii msg ++ path ++ ascii "\n") } := Iff.rfl

/-- A call that ends the function when it fails. -/
theorem wp_guard {Q : Int32 → Program σ → Prop} {ok : Bool} {msg : String} {next : Main σ Int32}
    (hfail : ok = false → Q 1 { s with stderr := s.stderr ++ ascii msg })
    (hnext : ok = true → wp next Q E s) : wp (if !ok then fail msg else next) Q E s := by
  cases ok with
  | false => exact hfail rfl
  | true => exact hnext rfl

theorem wp_copy {n : Nat} {Q : Buffer n → Program σ → Prop} {buf : Buffer n} {start : Nat}
    {str : Bytes} (hover : n ≤ start + str.length → E (.overflow, s))
    (hcopy : ∀ buf', strcpy buf start str = some buf' → Q buf' s) :
    wp (copy buf start str) Q E s := by
  unfold copy
  cases h : strcpy buf start str with
  | none => exact hover (strcpy_eq_none.1 h)
  | some buf' => exact hcopy buf' h

/-- There is no file of this name, and the call succeeds. -/
def CanMake (ok : Bool) (path : Bytes) (files : List Bytes) : Prop :=
  ok = true ∧ path ≠ [] ∧ path ∉ files

theorem wp_mkfifo {Q : Bool → Program σ → Prop} {ok : Bool} {path : Bytes} :
    wp (mkfifo ok path) Q E s ↔
      (CanMake ok path s.files →
        Q true { s with files := path :: s.files, fifos := path :: s.fifos }) ∧
      (¬ CanMake ok path s.files → Q false s) := by
  simp only [mkfifo, wp_bind, wp_get, wp_ite, wp_set, wp_pure]
  rfl

theorem wp_unlink {Q : Unit → Program σ → Prop} {ok : Bool} {path : Bytes} :
    wp (unlink ok path) Q E s ↔
      Q () (if ok then { s with files := s.files.filter (· ≠ path) } else s) := by
  cases ok <;> rfl

/-- Several calls of `my_write` in a row: one of them fails, or all of them succeed. -/
theorem wp_writes (fd : Program σ → Writer) (put : Program σ → Writer → Program σ)
    (hget : ∀ s w, fd (put s w) = w) (hput : ∀ s w w', put (put s w) w' = put s w')
    (hself : ∀ s, put s (fd s) = s) {Q : Int32 → Program σ → Prop} {next : Main σ Int32} :
    ∀ (ms : List (String × Bytes)) {s : Program σ},
      (∀ msg, (sendAll (fd s) (ms.map Prod.snd)).1 = false →
        wp (fail msg) Q E (put s (sendAll (fd s) (ms.map Prod.snd)).2)) →
      ((sendAll (fd s) (ms.map Prod.snd)).1 = true →
        wp next Q E (put s (sendAll (fd s) (ms.map Prod.snd)).2)) →
      wp (ms.foldr (fun m => writeOr fd put m.1 m.2) next) Q E s
  | [], s, _, hnext => by
      have hrun := hnext rfl
      rwa [List.map_nil, sendAll, hself] at hrun
  | (msg, buffer) :: ms, s, hfail, hnext => by
      rw [List.map_cons, sendAll_cons] at hfail hnext
      simp only [List.foldr_cons, writeOr, wp_bind, wp_get, wp_set]
      rw [wp_ite]
      refine ⟨fun hret => ?_, fun hret => ?_⟩
      · rw [if_pos hret] at hfail
        exact hfail msg rfl
      · rw [if_neg hret] at hfail hnext
        refine wp_writes fd put hget hput hself ms (fun msg' hno => ?_) fun hyes => ?_
        · rw [hget] at hno ⊢
          rw [hput]
          exact hfail msg' hno
        · rw [hget] at hyes ⊢
          rw [hput]
          exact hnext hyes

/-- The three calls of `ems_setup`. -/
theorem wp_serverWrites {Q : Int32 → Program σ → Prop} {msg₁ msg₂ msg₃ : String} {b₁ b₂ b₃ : Bytes}
    {next : Main σ Int32}
    (hfail : ∀ msg, (sendAll s.server_fd [b₁, b₂, b₃]).1 = false →
      wp (fail msg) Q E { s with server_fd := (sendAll s.server_fd [b₁, b₂, b₃]).2 })
    (hnext : (sendAll s.server_fd [b₁, b₂, b₃]).1 = true →
      wp next Q E { s with server_fd := (sendAll s.server_fd [b₁, b₂, b₃]).2 }) :
    wp (serverWriteOr msg₁ b₁ (serverWriteOr msg₂ b₂ (serverWriteOr msg₃ b₃ next))) Q E s :=
  wp_writes Program.server_fd (fun s w => { s with server_fd := w }) (fun _ _ => rfl)
    (fun _ _ _ => rfl) (fun _ => rfl) [(msg₁, b₁), (msg₂, b₂), (msg₃, b₃)] hfail hnext

/-- The two calls of `ems_quit`. -/
theorem wp_quitWrites {Q : Int32 → Program σ → Prop} {msg₁ msg₂ : String} {b₁ b₂ : Bytes}
    {next : Main σ Int32}
    (hfail : ∀ msg, (sendAll s.quit_fd [b₁, b₂]).1 = false →
      wp (fail msg) Q E { s with quit_fd := (sendAll s.quit_fd [b₁, b₂]).2 })
    (hnext : (sendAll s.quit_fd [b₁, b₂]).1 = true →
      wp next Q E { s with quit_fd := (sendAll s.quit_fd [b₁, b₂]).2 }) :
    wp (quitWriteOr msg₁ b₁ (quitWriteOr msg₂ b₂ next)) Q E s :=
  wp_writes Program.quit_fd (fun s w => { s with quit_fd := w }) (fun _ _ => rfl)
    (fun _ _ _ => rfl) (fun _ => rfl) [(msg₁, b₁), (msg₂, b₂)] hfail hnext

end Rules

end Main

open Main

variable {σ : Type} {s s' : Program σ}

/-- Nothing has changed outside. -/
structure Alike (s s' : Program σ) : Prop where
  files : s'.files = s.files
  fifos : s'.fifos = s.fifos
  server_fd : s'.server_fd = s.server_fd
  quit_fd : s'.quit_fd = s.quit_fd
  out_path : s'.out_path = s.out_path

theorem alike_refl (s : Program σ) : Alike s s := ⟨rfl, rfl, rfl, rfl, rfl⟩

theorem Alike.trans {s'' : Program σ} (h : Alike s s') (h' : Alike s' s'') : Alike s s'' :=
  ⟨h'.files.trans h.files, h'.fifos.trans h.fifos, h'.server_fd.trans h.server_fd,
    h'.quit_fd.trans h.quit_fd, h'.out_path.trans h.out_path⟩

/-- No FIFO has been made, the server pipe is as before, and no other output path than `out` has
    been opened. -/
structure OnlyOpens (out : Bytes) (s s' : Program σ) : Prop where
  fifos : s'.fifos = s.fifos
  server_fd : s'.server_fd = s.server_fd
  out_path : s'.out_path = s.out_path ∨ s'.out_path = some out

theorem onlyOpens_refl (out : Bytes) (s : Program σ) : OnlyOpens out s s := ⟨rfl, rfl, Or.inl rfl⟩

theorem OnlyOpens.trans {out : Bytes} {s'' : Program σ} (h : OnlyOpens out s s')
    (h' : OnlyOpens out s' s'') : OnlyOpens out s s'' :=
  ⟨h'.fifos.trans h.fifos, h'.server_fd.trans h.server_fd,
    h'.out_path.elim (fun heq => heq ▸ h.out_path) Or.inr⟩

/-! ## `ems_setup` -/

/-- The calls after the setup message succeed. -/
structure Enters (e : SetupEnv) (response_pipe : Reader) : Prop where
  openRequest : e.openRequest = true
  openResponse : e.openResponse = true
  sessionId : (myRead response_pipe 4).ret ≠ some (-1)
  closeServer : e.closeServer = true
  closeResponse : e.closeResponse = true

/-- An array that `ems_setup` has copied a path to. -/
def Copied (path : CString) (buf : Buffer MAX_PATH) : Prop :=
  strcpy (.zero MAX_PATH) 0 path.bytes = some buf

theorem Copied.str {path : CString} {buf : Buffer MAX_PATH} (h : Copied path buf) :
    buf.str = path.bytes :=
  strcpy_start h path.no_nul

theorem Copied.length_lt {path : CString} {buf : Buffer MAX_PATH} (h : Copied path buf) :
    path.bytes.length < MAX_PATH := by
  simpa using (strcpy_bytes h).1

theorem wp_enterSession (e : SetupEnv) {req resp : CString} {b b' : Buffer MAX_PATH}
    (hreq : Copied req b) (hresp : Copied resp b') :
    wp (enterSession e b b')
      (fun code s' => Alike s s' ∧
        (code = 0 ∧ Enters e s.process.response_pipe ∧ s'.req_pipe_path.str = req.bytes ∧
            s'.resp_pipe_path.str = resp.bytes ∨
          code = 1 ∧ ¬ Enters e s.process.response_pipe))
      (fun p => p.1 = .stopped .blocked ∧ (myRead s.process.response_pipe 4).ret = none ∧
        Alike s p.2) s := by
  unfold enterSession
  refine wp_guard (fun hno => ?_) fun hopen => wp_guard (fun hno => ?_) fun hopen' => ?_
  · exact ⟨⟨rfl, rfl, rfl, rfl, rfl⟩, Or.inr ⟨rfl, fun h => by simp [h.openRequest] at hno⟩⟩
  · exact ⟨⟨rfl, rfl, rfl, rfl, rfl⟩, Or.inr ⟨rfl, fun h => by simp [h.openResponse] at hno⟩⟩
  simp only [readSessionIdOr, wp_bind, wp_get, wp_set]
  cases hret : (myRead s.process.response_pipe 4).ret with
  | none => exact ⟨rfl, rfl, rfl, rfl, rfl, rfl, rfl⟩
  | some ret =>
    rw [wp_ite]
    refine ⟨fun hfail => ⟨⟨rfl, rfl, rfl, rfl, rfl⟩, Or.inr ⟨rfl, fun h => ?_⟩⟩, fun hread => ?_⟩
    · exact h.sessionId (hfail ▸ hret)
    -- the arrays of the session are as large as those of `ems_setup`
    have hroom := hreq.length_lt
    have hroom' := hresp.length_lt
    simp only [wp_bind, wp_get]
    refine wp_copy (fun h => absurd h (by rw [hreq.str]; omega)) fun b₁ hb₁ => ?_
    refine wp_copy (fun h => absurd h (by rw [hresp.str]; omega)) fun b₂ hb₂ => ?_
    rw [hreq.str] at hb₁
    rw [hresp.str] at hb₂
    rw [wp_modify]
    refine wp_guard (fun hno => ?_) fun hclose => wp_guard (fun hno => ?_) fun hclose' => ?_
    · exact ⟨⟨rfl, rfl, rfl, rfl, rfl⟩, Or.inr ⟨rfl, fun h => by simp [h.closeServer] at hno⟩⟩
    · exact ⟨⟨rfl, rfl, rfl, rfl, rfl⟩, Or.inr ⟨rfl, fun h => by simp [h.closeResponse] at hno⟩⟩
    · refine ⟨⟨rfl, rfl, rfl, rfl, rfl⟩, Or.inl ⟨rfl, ?_, strcpy_start hb₁ req.no_nul,
        strcpy_start hb₂ resp.no_nul⟩⟩
      exact ⟨hopen, hopen', fun h => hread (Option.some.inj (hret.symm.trans h)), hclose, hclose'⟩

/-- A path in an array of NUL bytes. -/
def pathField (path : Bytes) : Bytes := path ++ List.replicate (MAX_PATH - path.length) 0

theorem Copied.bytes {path : CString} {buf : Buffer MAX_PATH} (h : Copied path buf) :
    buf.bytes = pathField path.bytes := by
  have hlt := h.length_lt
  rw [(strcpy_bytes h).2, Buffer.zero, List.take_zero, List.nil_append, List.drop_replicate,
    ← List.replicate_succ, pathField]
  congr 2
  omega

/-- The buffers of the setup message. -/
def setupBuffers (req resp : CString) : List Bytes :=
  [[1], pathField req.bytes, pathField resp.bytes]

/-- The calls of `ems_setup` after the first `mkfifo` succeed, if `files` exist then. -/
structure SetupEnv.Succeeds (e : SetupEnv) (req resp server : CString) (files : List Bytes)
    (response_pipe : Reader) : Prop where
  requestFifo : CanMake e.mkfifoRequest req.bytes files
  openServer : e.openServer = true ∧ server.bytes ≠ []
  message : (sendAll { turns := e.serverTurns } (setupBuffers req resp)).1 = true
  enters : Enters e response_pipe

/-- What `ems_setup` may have written to the server pipe: the beginning of its message, when both
    FIFOs have been made. -/
def Announced (req resp : CString) (written : Bytes) : Prop :=
  written = [] ∨ req.bytes ≠ [] ∧ resp.bytes ≠ [] ∧ written <+: (setupBuffers req resp).flatten

/-- How `ems_setup` can end that has been called with `s`. -/
inductive SetupEnds (e : SetupEnv) (req resp server : CString) (s : Program σ) :
    Int32 → Program σ → Prop
  /-- It has made no FIFO. -/
  | refused {s' : Program σ} (hfifo : ¬ CanMake e.mkfifoResponse resp.bytes s.files)
    (h : Alike s s') : SetupEnds e req resp server s 1 s'
  /-- It has made the response pipe and has failed later. -/
  | left {s' : Program σ} (hfifo : CanMake e.mkfifoResponse resp.bytes s.files)
    (hno : ¬ e.Succeeds req resp server (resp.bytes :: s.files) s.process.response_pipe)
    (hfifos : resp.bytes ∈ s'.fifos) (hfiles : resp.bytes ∈ s'.files)
    (hout : s'.out_path = s.out_path) (hwritten : Announced req resp s'.server_fd.written) :
    SetupEnds e req resp server s 1 s'
  /-- It has made both pipes, and the session has begun. -/
  | done {s' : Program σ} (hfifo : CanMake e.mkfifoResponse resp.bytes s.files)
    (hyes : e.Succeeds req resp server (resp.bytes :: s.files) s.process.response_pipe)
    (hfiles : s'.files = req.bytes :: resp.bytes :: s.files)
    (hfifos : s'.fifos = req.bytes :: resp.bytes :: s.fifos)
    (hout : s'.out_path = s.out_path)
    (hreq : s'.req_pipe_path.str = req.bytes) (hresp : s'.resp_pipe_path.str = resp.bytes)
    (hwritten : Announced req resp s'.server_fd.written) : SetupEnds e req resp server s 0 s'

/-- What has been done when a run of `ems_setup` does not return: a path is too long, or it waits
    for the session id. -/
def Stuck (req resp server : CString) (s : Program σ) (p : Halt × Program σ) : Prop :=
  p.2.out_path = s.out_path ∧
    (p.1 = .overflow ∧ p.2 = s ∧ (MAX_PATH ≤ req.bytes.length ∨ MAX_PATH ≤ resp.bytes.length ∨
        MAX_PATH ≤ server.bytes.length) ∨
      p.1 = .stopped .blocked ∧ (myRead s.process.response_pipe 4).ret = none ∧
        Announced req resp p.2.server_fd.written)

theorem wp_emsSetup (e : SetupEnv) (req resp server : CString)
    (hwritten : s.server_fd.written = []) :
    wp (emsSetup e req resp server) (SetupEnds e req resp server s)
      (Stuck req resp server s) s := by
  rw [emsSetup, wp_bind]
  refine wp_copy (fun h => ⟨rfl, Or.inl ⟨rfl, rfl, by omega⟩⟩) fun b₀ hb₀ => ?_
  rw [wp_bind]
  refine wp_copy (fun h => ⟨rfl, Or.inl ⟨rfl, rfl, by omega⟩⟩) fun b₂ hb₂ => ?_
  rw [wp_bind]
  refine wp_copy (fun h => ⟨rfl, Or.inl ⟨rfl, rfl, by omega⟩⟩) fun b₁ hb₁ => ?_
  have hserver : b₀.str = server.bytes := Copied.str hb₀
  have hresp : b₂.str = resp.bytes := Copied.str hb₂
  have hreq : b₁.str = req.bytes := Copied.str hb₁
  rw [wp_bind, wp_mkfifo, hresp]
  refine ⟨fun hfifo => wp_guard (fun h => nomatch h) fun _ => ?_, fun hfifo =>
    wp_guard (fun _ => .refused hfifo ⟨rfl, rfl, rfl, rfl, rfl⟩) fun h => nomatch h⟩
  rw [wp_bind, wp_mkfifo, hreq]
  refine ⟨fun hfifo' => wp_guard (fun h => nomatch h) fun _ => ?_, fun hfifo' =>
    wp_guard (fun _ => ?_) fun h => nomatch h⟩
  rotate_left
  · exact .left hfifo (fun h => hfifo' h.requestFifo) (List.mem_cons_self ..)
      (List.mem_cons_self ..) rfl (Or.inl hwritten)
  refine wp_guard (fun hno => ?_) fun hopen => ?_
  · refine .left hfifo (fun h => ?_) (by simp) (by simp) rfl (Or.inl hwritten)
    simp [h.openServer, hserver] at hno
  rw [wp_bind, wp_modify]
  have hbufs : [[1], b₁.bytes, b₂.bytes] = setupBuffers req resp := by
    rw [setupBuffers, Copied.bytes hb₁, Copied.bytes hb₂]
  have hannounced : Announced req resp
      (sendAll { turns := e.serverTurns } [[1], b₁.bytes, b₂.bytes]).2.written := by
    rw [hbufs]
    exact Or.inr ⟨hfifo'.2.1, hfifo.2.1, (sendAll_written _ _).1⟩
  refine wp_serverWrites (fun msg hno => ?_) fun hyes => ?_
  · rw [hbufs] at hno
    exact .left hfifo (fun h => by simp [h.message] at hno) (by simp) (by simp) rfl
      hannounced
  · rw [hbufs] at hyes
    refine wp_mono (wp_enterSession e hb₁ hb₂) (fun code s' hend => ?_) fun p hstop => ?_
    · obtain ⟨halike, ⟨rfl, henters, hreq', hresp'⟩ | ⟨rfl, hno⟩⟩ := hend
      · refine .done hfifo ⟨hfifo', ?_, hyes, henters⟩ halike.files halike.fifos halike.out_path
          hreq' hresp' (halike.server_fd ▸ hannounced)
        simpa [hserver] using hopen
      · exact .left hfifo (fun h => hno h.enters) (by simp [halike.fifos])
          (by simp [halike.files]) halike.out_path (halike.server_fd ▸ hannounced)
    · obtain ⟨hstopped, hblocks, halike⟩ := hstop
      exact ⟨halike.out_path, Or.inr ⟨hstopped, hblocks, halike.server_fd ▸ hannounced⟩⟩

/-! ## `ems_quit` -/

/-- Whether the writes of `ems_quit` succeed does not depend on the session id. -/
structure QuitEnv.Succeeds (e : QuitEnv) : Prop where
  openRequest : e.openRequest = true
  message : ∀ session_id,
    (sendAll { turns := e.requestTurns } [[2], intBytes session_id]).1 = true
  closeRequest : e.closeRequest = true
  closeResponse : e.openResponse = true → e.closeResponse = true
  unlinkRequest : e.unlinkRequest = true
  unlinkResponse : e.unlinkResponse = true

/-- The calls at the end of the job file succeed. -/
structure MainEnv.Ends (e : MainEnv σ) : Prop where
  closeInput : e.closeInput = true
  closeOutput : e.closeOutput = true
  quit : e.quit.Succeeds

/-- The calls of `main` from the job file on succeed. -/
structure MainEnv.Runs (e : MainEnv σ) : Prop extends e.Ends where
  openInput : e.openInput = true
  openOutput : e.openOutput = true

/-- `ems_setup` has made these two FIFOs, and they are there. -/
structure InSession (req resp : Bytes) (s : Program σ) : Prop where
  req_pipe_path : s.req_pipe_path.str = req
  resp_pipe_path : s.resp_pipe_path.str = resp
  request : req ∈ s.files
  response : resp ∈ s.files
  ne : req ≠ resp

theorem inSession_of_done {e : SetupEnv} {req resp server : CString} {response_pipe : Reader}
    (hyes : e.Succeeds req resp server (resp.bytes :: s.files) response_pipe)
    (hfiles : s'.files = req.bytes :: resp.bytes :: s.files)
    (hreq : s'.req_pipe_path.str = req.bytes) (hresp : s'.resp_pipe_path.str = resp.bytes) :
    InSession req.bytes resp.bytes s' := by
  refine ⟨hreq, hresp, by simp [hfiles], by simp [hfiles], fun heq => ?_⟩
  exact hyes.requestFifo.2.2 (by simp [heq])

/-- How a session ends: the FIFOs are gone and the server has been asked to quit, or one of the
    FIFOs stays. -/
inductive SessionEnds (succeeds : Prop) (out req resp : Bytes) (s : Program σ) :
    Program σ → Prop
  | clean {s' : Program σ} (hyes : succeeds) (h : OnlyOpens out s s') (hreq : req ∉ s'.files)
    (hresp : resp ∉ s'.files)
    (hquit : s'.quit_fd.written = 2 :: intBytes s'.process.session_id) :
    SessionEnds succeeds out req resp s s'
  | left {s' : Program σ} (hno : ¬ succeeds) (h : OnlyOpens out s s')
    (hfiles : req ∈ s'.files ∨ resp ∈ s'.files) : SessionEnds succeeds out req resp s s'

variable {req resp out : Bytes}

theorem SessionEnds.onlyOpens {succeeds : Prop} (h : SessionEnds succeeds out req resp s s') :
    OnlyOpens out s s' := by
  cases h with
  | clean hyes h hreq hresp hquit => exact h
  | left hno h hfiles => exact h

theorem SessionEnds.after {p q : Prop} {s'' : Program σ} (h : SessionEnds p out req resp s' s'')
    (honly : OnlyOpens out s s') (hiff : p ↔ q) : SessionEnds q out req resp s s'' := by
  cases h with
  | clean hyes h hreq hresp hquit => exact .clean (hiff.1 hyes) (honly.trans h) hreq hresp hquit
  | left hno h hfiles => exact .left (fun hq => hno (hiff.2 hq)) (honly.trans h) hfiles

theorem SessionEnds.print {succeeds : Prop} (h : SessionEnds succeeds out req resp s s')
    (msg : Bytes) : SessionEnds succeeds out req resp s { s' with stderr := s'.stderr ++ msg } := by
  cases h with
  | clean hyes h hreq hresp hquit =>
    exact .clean hyes ⟨h.fifos, h.server_fd, h.out_path⟩ hreq hresp hquit
  | left hno h hfiles => exact .left hno ⟨h.fifos, h.server_fd, h.out_path⟩ hfiles

theorem wp_emsQuit (e : QuitEnv) (out : Bytes) (h : InSession req resp s) :
    wp (emsQuit e) (fun _ s' => SessionEnds e.Succeeds out req resp s s') (fun _ => False) s := by
  unfold emsQuit
  rw [wp_ite]
  refine ⟨fun hno => ?_, fun hopen => ?_⟩
  · exact .left (fun h' => by simp [h'.openRequest] at hno) ⟨rfl, rfl, Or.inl rfl⟩
      (Or.inl h.request)
  simp only [wp_bind, wp_modify, wp_get]
  refine wp_quitWrites (fun msg hno => ?_) fun hyes => ?_
  · refine .left (fun h' => ?_) ⟨rfl, rfl, Or.inl rfl⟩ (Or.inl h.request)
    simp [h'.message] at hno
  refine wp_guard (fun hno => ?_) fun hclose => ?_
  · exact .left (fun h' => by simp [h'.closeRequest] at hno) ⟨rfl, rfl, Or.inl rfl⟩
      (Or.inl h.request)
  rw [wp_ite]
  refine ⟨fun hno => ?_, fun hclose' => ?_⟩
  · simp only [Bool.and_eq_true, Bool.not_eq_true'] at hno
    exact .left (fun h' => by simp [h'.closeResponse hno.1] at hno) ⟨rfl, rfl, Or.inl rfl⟩
      (Or.inl h.request)
  rw [h.req_pipe_path, h.resp_pipe_path, wp_bind, wp_unlink, wp_bind, wp_unlink, wp_pure]
  cases hreq : e.unlinkRequest with
  | false =>
    have hno : ¬ e.Succeeds := fun h' => by simp [h'.unlinkRequest] at hreq
    cases e.unlinkResponse with
    | false => exact .left hno ⟨rfl, rfl, Or.inl rfl⟩ (Or.inl h.request)
    | true =>
      exact .left hno ⟨rfl, rfl, Or.inl rfl⟩
        (Or.inl (List.mem_filter.2 ⟨h.request, by simp [h.ne]⟩))
  | true =>
    cases hresp : e.unlinkResponse with
    | false =>
      refine .left (fun h' => by simp [h'.unlinkResponse] at hresp) ⟨rfl, rfl, Or.inl rfl⟩
        (Or.inr ?_)
      exact List.mem_filter.2 ⟨h.response, by simp [h.ne.symm]⟩
    | true =>
      refine .clean ⟨by simpa using hopen, fun session_id => ?_, hclose, fun h' => ?_, hreq, hresp⟩
        ⟨rfl, rfl, Or.inl rfl⟩ (by simp) (by simp) ?_
      · rw [← hyes]
        exact sendAll_congr (by simp) rfl
      · simpa [h'] using hclose'
      · simpa using (sendAll_written _ _).2 hyes

/-! ## The job file -/

section Jobs

variable (e : MainEnv σ) (in_path out_path : Bytes)

theorem wp_finish (h : InSession req resp s) :
    wp (finish e in_path out_path) (fun _ s' => SessionEnds e.Ends out_path req resp s s')
      (fun _ => False) s := by
  unfold finish
  simp only [wp_ite, wp_failAt]
  refine ⟨fun hno => ?_, fun hclose => ⟨fun hno => ?_, fun hclose' => ?_⟩⟩
  · exact .left (fun h' => by simp [h'.closeInput] at hno) ⟨rfl, rfl, Or.inl rfl⟩ (Or.inl h.request)
  · exact .left (fun h' => by simp [h'.closeOutput] at hno) ⟨rfl, rfl, Or.inl rfl⟩
      (Or.inl h.request)
  rw [wp_bind]
  refine wp_mono (wp_emsQuit e.quit out_path h) (fun code s' hend => ?_) fun _ h' => h'.elim
  have hends : SessionEnds e.Ends out_path req resp s s' := hend.after (onlyOpens_refl _ s)
    ⟨fun hyes => ⟨by simpa using hclose, by simpa using hclose', hyes⟩, fun h' => h'.quit⟩
  rw [wp_ite]
  exact ⟨fun _ => hends.print _, fun _ => hends⟩

/-- The session goes on: outside it nothing has changed, and its pipes are the same. -/
structure Going (s s' : Program σ) : Prop extends Alike s s' where
  req_pipe_path : s'.req_pipe_path = s.req_pipe_path
  resp_pipe_path : s'.resp_pipe_path = s.resp_pipe_path

theorem wp_call (c : Call) :
    wp (call e c) (fun _ s' => Going s s' ∧ s'.in_file = s.in_file)
      (fun p => (∃ stop, p.1 = .stopped stop) ∧ Alike s p.2) s := by
  unfold call
  simp only [wp_bind, wp_get]
  cases (c.issue (e.pipes s.in_file.length) (e.respond s.in_file.length)).run s.process with
  | error stop => exact ⟨⟨stop, rfl⟩, alike_refl s⟩
  | ok r =>
    rw [wp_bind, wp_set, wp_ite]
    exact ⟨fun _ => ⟨⟨⟨rfl, rfl, rfl, rfl, rfl⟩, rfl, rfl⟩, rfl⟩,
      fun _ => ⟨⟨⟨rfl, rfl, rfl, rfl, rfl⟩, rfl, rfl⟩, rfl⟩⟩

theorem wp_execute (d : Directive) :
    wp (execute e d) (fun _ s' => Going s s' ∧ s'.in_file = s.in_file)
      (fun p => (∃ stop, p.1 = .stopped stop) ∧ Alike s p.2) s := by
  have hsame : Going s s := ⟨alike_refl s, rfl, rfl⟩
  cases d with
  | call c => exact wp_call e c
  | wait delay =>
    rw [execute, wp_ite]
    exact ⟨fun _ => ⟨⟨⟨rfl, rfl, rfl, rfl, rfl⟩, rfl, rfl⟩, rfl⟩, fun _ => ⟨hsame, rfl⟩⟩
  | help | invalid => exact ⟨⟨⟨rfl, rfl, rfl, rfl, rfl⟩, rfl, rfl⟩, rfl⟩
  | empty | eoc => exact ⟨hsame, rfl⟩

theorem Going.trans {s'' : Program σ} (h : Going s s') (h' : Going s' s'') : Going s s'' :=
  ⟨h.toAlike.trans h'.toAlike, h'.req_pipe_path.trans h.req_pipe_path,
    h'.resp_pipe_path.trans h.resp_pipe_path⟩

/-- Some of the job file has been read. -/
theorem going_read (s : Program σ) (rest : Bytes) : Going s { s with in_file := rest } :=
  ⟨⟨rfl, rfl, rfl, rfl, rfl⟩, rfl, rfl⟩

/-- An iteration of the loop. -/
theorem loop_succ (fuel : Nat) (s : Program σ) : (loop e in_path out_path (fuel + 1)).run s =
    match (nextDirective e.stack).run s.in_file with
    | .error stop => .error (.stopped stop, s)
    | .ok (d, rest) =>
      (if d = .eoc then finish e in_path out_path
        else do
          execute e d
          loop e in_path out_path fuel).run { s with in_file := rest } := by
  rw [loop, StateT.run_bind, StateT.run_get]
  simp only [pure_bind]
  cases (nextDirective e.stack).run s.in_file <;> rfl

/-- The command loop ends with the end of the file, or a command does not return. -/
theorem wp_loop {Q : Int32 → Program σ → Prop} {E : Halt × Program σ → Prop} {s₀ : Program σ}
    (hfinish : ∀ s, Going s₀ s → wp (finish e in_path out_path) Q E s)
    (hstop : ∀ stop s, Alike s₀ s → E (.stopped stop, s)) :
    ∀ (fuel : Nat) (s : Program σ), Going s₀ s → wp (loop e in_path out_path fuel) Q E s
  | 0, s, h => hstop _ s h.toAlike
  | fuel + 1, s, h => by
      have hrun := loop_succ e in_path out_path fuel s
      cases hnext : (nextDirective e.stack).run s.in_file with
      | error stop =>
        rw [hnext] at hrun
        rw [wp_of_run_error hrun]
        exact hstop stop s h.toAlike
      | ok r =>
        rw [hnext] at hrun
        have hread := h.trans (going_read s r.2)
        rw [wp_of_run_eq hrun, wp_ite]
        refine ⟨fun _ => hfinish _ hread, fun _ => ?_⟩
        · rw [wp_bind]
          refine wp_mono (wp_execute e r.1) (fun _ s' h' => ?_) ?_
          · exact wp_loop hfinish hstop fuel s' (hread.trans h'.1)
          · rintro ⟨_, s'⟩ ⟨⟨stop, rfl⟩, h'⟩
            exact hstop stop s' (hread.toAlike.trans h')

/-- Fuel beyond the length of the job file makes no difference. -/
theorem loop_fuel : ∀ {fuel fuel' : Nat} {s : Program σ}, s.in_file.length < fuel → fuel ≤ fuel' →
    (loop e in_path out_path fuel').run s = (loop e in_path out_path fuel).run s
  | 0, _, s, hlen, _ => absurd hlen (Nat.not_lt_zero _)
  | fuel + 1, 0, s, _, hle => absurd hle (Nat.not_succ_le_zero _)
  | fuel + 1, fuel' + 1, s, hlen, hle => by
      rw [loop_succ, loop_succ]
      cases hnext : (nextDirective e.stack).run s.in_file with
      | error stop => rfl
      | ok r =>
        dsimp only
        obtain ⟨-, hd, -⟩ | ⟨ch, bs, hcons, hd, hrest⟩ := nextDirective_cases hnext
        · rw [if_pos hd, if_pos hd]
        · rw [if_neg hd, if_neg hd, StateT.run_bind, StateT.run_bind]
          cases hrun : (execute e r.1).run { s with in_file := r.2 } with
          | error p => rfl
          | ok r' =>
            have hfile : r'.2.in_file = r.2 := (wp_run_ok (wp_execute e r.1) hrun).2
            have hle' := hrest.length_le
            refine loop_fuel ?_ (by omega)
            rw [hcons, List.length_cons] at hlen
            rw [hfile]
            omega

theorem InSession.going (h : InSession req resp s) (h' : Going s s') : InSession req resp s' :=
  ⟨h'.req_pipe_path ▸ h.req_pipe_path, h'.resp_pipe_path ▸ h.resp_pipe_path, h'.files ▸ h.request,
    h'.files ▸ h.response, h.ne⟩

theorem wp_runJobs (h : InSession req resp s) :
    wp (runJobs e in_path out_path) (fun _ s' => SessionEnds e.Runs out_path req resp s s')
      (fun p => (∃ stop, p.1 = .stopped stop) ∧ OnlyOpens out_path s p.2) s := by
  unfold runJobs
  rw [wp_ite]
  refine ⟨fun hno => ?_, fun hopen => ?_⟩
  · exact .left (fun h' => by simp [h'.openInput] at hno) ⟨rfl, rfl, Or.inl rfl⟩ (Or.inl h.request)
  rw [wp_bind, wp_modify, wp_ite]
  refine ⟨fun hno => ?_, fun hopen' => ?_⟩
  · exact .left (fun h' => by simp [h'.openOutput] at hno) ⟨rfl, rfl, Or.inr rfl⟩ (Or.inl h.request)
  rw [wp_bind, wp_modify]
  have hopened : InSession req resp { s with
      out_path := some out_path, in_file := e.jobs, files := out_path :: s.files } :=
    ⟨h.req_pipe_path, h.resp_pipe_path, List.mem_cons_of_mem _ h.request,
      List.mem_cons_of_mem _ h.response, h.ne⟩
  refine wp_loop e in_path out_path (fun s₁ hgoing => ?_) (fun stop s₁ halike => ?_) _ _
    ⟨alike_refl _, rfl, rfl⟩
  · refine wp_mono (wp_finish e in_path out_path (hopened.going hgoing)) (fun _ s' hend => ?_)
      fun _ h' => h'.elim
    exact hend.after ⟨hgoing.fifos, hgoing.server_fd, Or.inr hgoing.out_path⟩
      ⟨fun hends => ⟨hends, by simpa using hopen, by simpa using hopen'⟩, fun h' => h'.toEnds⟩
  · exact ⟨⟨stop, rfl⟩, halike.fifos, halike.server_fd, Or.inr halike.out_path⟩

end Jobs

/-- The test lets the paths pass that end in ".jobs", have something in front of it, and are not
    longer than the array for the output path. -/
theorem validJobs_iff {path : Bytes} : validJobs path = true ↔
    (∃ stem, stem ≠ [] ∧ path = stem ++ ascii ".jobs") ∧
      path.length ≤ MAX_JOB_FILE_NAME_SIZE := by
  have hext : ascii ".jobs" = 46 :: ascii "jobs" := by decide
  have hpoint : (46 : UInt8) ∉ ascii "jobs" := by decide
  constructor
  · intro h
    unfold validJobs at h
    cases hdot : strrchr 46 path with
    | none => simp [hdot] at h
    | some dot =>
      simp only [hdot, decide_eq_true_eq] at h
      obtain ⟨hne, -, hdrop, hlen⟩ := h
      refine ⟨⟨path.take dot, fun hnil => ?_, by rw [← hdrop, List.take_append_drop]⟩, hlen⟩
      obtain h0 | rfl := List.take_eq_nil_iff.1 hnil
      · exact hne h0
      · rw [List.drop_nil] at hdrop
        exact absurd hdrop (by decide)
  · rintro ⟨⟨stem, hne, rfl⟩, hlen⟩
    have hdot : strrchr 46 (stem ++ ascii ".jobs") = some stem.length := by
      rw [hext, strrchr_append hpoint]
    unfold validJobs
    rw [hdot]
    refine decide_eq_true
      ⟨fun h => hne (List.eq_nil_of_length_eq_zero h), ?_, List.drop_left, hlen⟩
    rw [List.drop_left]
    decide

/-- `jobs` with its final ".jobs" replaced by ".out". -/
def Replaced (jobs out : Bytes) : Prop :=
  ∃ stem, jobs = stem ++ ascii ".jobs" ∧ out = stem ++ ascii ".out"

theorem wp_openJobs (e : MainEnv σ) {path : CString} (hvalid : validJobs path.bytes = true)
    (h : InSession req resp s) :
    wp (openJobs e path)
      (fun _ s' => ∃ out, Replaced path.bytes out ∧ SessionEnds e.Runs out req resp s s')
      (fun p => p.1 = .overflow ∧ p.2 = s ∧ MAX_JOB_FILE_NAME_SIZE ≤ path.bytes.length ∨
        (∃ stop, p.1 = .stopped stop) ∧
          ∃ out, Replaced path.bytes out ∧ OnlyOpens out s p.2) s := by
  obtain ⟨⟨stem, -, hpath⟩, -⟩ := validJobs_iff.1 hvalid
  have hdot : strrchr 46 path.bytes = some stem.length := by
    rw [hpath]
    exact strrchr_append (by decide) stem
  unfold openJobs
  rw [wp_bind]
  refine wp_copy (fun hover => Or.inl ⟨rfl, rfl, by omega⟩) fun buf hbuf => ?_
  have hstr : buf.str = path.bytes := strcpy_start hbuf path.no_nul
  simp only [hstr, hdot, wp_bind]
  -- ".out" is shorter than ".jobs"
  have hroom := (strcpy_bytes hbuf).1
  have hjobs : (ascii ".jobs").length = 5 := by decide
  have hout : (ascii ".out").length = 4 := by decide
  rw [hpath, List.length_append, hjobs] at hroom
  refine wp_copy (fun hover => absurd hover (by omega)) fun buf' hbuf' => ?_
  -- in front of the point the array still holds the path
  have htake : buf.bytes.take stem.length = stem := by
    rw [(strcpy_bytes hbuf).2, hpath]
    simp
  have hstr' : buf'.str = stem ++ ascii ".out" := by
    rw [← htake]
    refine strcpy_str hbuf' (fun hm => path.no_nul ?_) (by decide)
    rw [hpath]
    exact List.mem_append_left _ (htake ▸ hm)
  have hreplaced : Replaced path.bytes buf'.str := ⟨stem, hpath, hstr'⟩
  refine wp_mono (wp_runJobs e path.bytes buf'.str h) (fun _ s' hend => ⟨_, hreplaced, hend⟩) ?_
  exact fun p hp => Or.inr ⟨hp.1, _, hreplaced, hp.2⟩

end EventServer.Client
