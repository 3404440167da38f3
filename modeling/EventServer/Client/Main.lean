import EventServer.Client.Calls
import EventServer.Client.Commands
import EventServer.Common.Strings

/-
  `main` of `client/main.c`, with `ems_setup` and `ems_quit` of `client/api.c`.

  A `Program` is the client's process with what it changes outside: the files, the FIFOs it has
  made, what it has written to the server pipe and in `ems_quit`. What the environment does is
  given to each function: which calls succeed, the turns on the descriptors, the job file, and what
  arrays hold before they are written. A run can end before `main` returns (`Halt`), and what the
  client has done until then stays. The checks that `memset` has not returned NULL are left out,
  since it never does.
-/

namespace EventServer.Client

open Lib

def MAX_JOB_FILE_NAME_SIZE : Nat := 256

/-- Why `main` does not return: a `strcpy` stores behind its array, or something else stops it. -/
inductive Halt where
  | overflow
  | stopped (e : Stop)
  deriving DecidableEq, Repr

structure Program (σ : Type) where
  /-- The paths of the files there are. -/
  files : List Bytes := []
  /-- The FIFOs made by `ems_setup`. -/
  fifos : List Bytes := []
  /-- The descriptors `server_fd` of `ems_setup` and `req_fd` of `ems_quit`. -/
  server_fd : Writer := {}
  quit_fd : Writer := {}
  /-- The paths in the variable `session`. -/
  req_pipe_path : Buffer MAX_PATH := .zero MAX_PATH
  resp_pipe_path : Buffer MAX_PATH := .zero MAX_PATH
  /-- What is left of the job file. -/
  in_file : Bytes := []
  /-- The path that was to be opened for the output. -/
  out_path : Option Bytes := none
  stdout : Bytes := []
  stderr : Bytes := []
  process : Process σ

/-- A run that does not return leaves behind what it has done. -/
abbrev Main (σ : Type) := StateT (Program σ) (Except (Halt × Program σ))

/-- What the environment does in `ems_setup`. -/
structure SetupEnv where
  mkfifoResponse : Bool := true
  mkfifoRequest : Bool := true
  openServer : Bool := true
  serverTurns : List Turn := []
  openRequest : Bool := true
  openResponse : Bool := true
  closeServer : Bool := true
  closeResponse : Bool := true
  deriving DecidableEq, Repr

/-- What the environment does in `ems_quit`. -/
structure QuitEnv where
  openRequest : Bool := true
  requestTurns : List Turn := []
  closeRequest : Bool := true
  openResponse : Bool := true
  closeResponse : Bool := true
  unlinkRequest : Bool := true
  unlinkResponse : Bool := true
  deriving DecidableEq, Repr

/-- What the environment does in `main`, with the files there are and the process at the start.
    What the calls meet can depend on how much of the job file is left. -/
structure MainEnv (σ : Type) where
  files : List Bytes := []
  process : Process σ
  setup : SetupEnv := {}
  quit : QuitEnv := {}
  /-- What `out_path` holds before. -/
  out_path : Buffer MAX_JOB_FILE_NAME_SIZE := .zero MAX_JOB_FILE_NAME_SIZE
  openInput : Bool := true
  openOutput : Bool := true
  closeInput : Bool := true
  closeOutput : Bool := true
  jobs : Bytes := []
  stack : Stack := fun _ => .zero 16
  pipes : Nat → Pipes := fun _ => {}
  respond : Nat → Api σ Unit := fun _ => return ()

/-- The client before `main`. -/
def MainEnv.start {σ : Type} (e : MainEnv σ) : Program σ :=
  { files := e.files, process := e.process }

namespace Main

variable {σ : Type}

/-! ## Steps -/

def halt {α : Type} (h : Halt) : Main σ α := do throw (h, ← get)

def print (msg : Bytes) : Main σ Unit := modify fun s => { s with stdout := s.stdout ++ msg }

def printError (msg : Bytes) : Main σ Unit := modify fun s => { s with stderr := s.stderr ++ msg }

/-- `print_error(msg); return 1;` -/
def fail (msg : String) : Main σ Int32 := do
  printError (ascii msg)
  return 1

/-- `fprintf(stderr, msg, path); return 1;` where `msg` ends with the path. -/
def failAt (msg : String) (path : Bytes) : Main σ Int32 := do
  printError (ascii msg ++ path ++ ascii "\n")
  return 1

/-- `strcpy(buf + start, str)`. -/
def copy {n : Nat} (buf : Buffer n) (start : Nat) (str : Bytes) : Main σ (Buffer n) :=
  match strcpy buf start str with
  | none => halt .overflow
  | some buf => return buf

/-- `mkfifo`; `true` if it succeeds. There must be no file of that name. -/
def mkfifo (ok : Bool) (path : Bytes) : Main σ Bool := do
  let s ← get
  if ok ∧ path ≠ [] ∧ path ∉ s.files then
    set { s with files := path :: s.files, fifos := path :: s.fifos }
    return true
  else return false

/-- `unlink`, without a look at what it returns. -/
def unlink (ok : Bool) (path : Bytes) : Main σ Unit := do
  if ok then modify fun s => { s with files := s.files.filter (· ≠ path) }

/-- `my_write` to a descriptor, then `next`. -/
def writeOr (fd : Program σ → Writer) (put : Program σ → Writer → Program σ) (msg : String)
    (buffer : Bytes) (next : Main σ Int32) : Main σ Int32 := do
  let s ← get
  let (n, w) := myWrite (fd s) buffer
  set (put s w)
  if n = -1 then fail msg else next

/-- `my_write` to the server pipe. -/
def serverWriteOr : String → Bytes → Main σ Int32 → Main σ Int32 :=
  writeOr Program.server_fd fun s w => { s with server_fd := w }

/-- `my_write` to the request pipe in `ems_quit`. -/
def quitWriteOr : String → Bytes → Main σ Int32 → Main σ Int32 :=
  writeOr Program.quit_fd fun s w => { s with quit_fd := w }

/-- `my_read` of the session id from the response pipe; only the result -1 is a failure. -/
def readSessionIdOr (next : Main σ Int32) : Main σ Int32 := do
  let s ← get
  let done := myRead s.process.response_pipe 4
  let session_id : Buffer 4 := ⟨intBytes s.process.session_id, length_intBytes _⟩
  set { s with process := { s.process with
    session_id := toInt (session_id.overwrite done.stored).bytes, response_pipe := done.reader } }
  match done.ret with
  | none => halt (.stopped .blocked)
  | some ret => if ret = -1 then fail "Failed to read session_id.\n" else next

/-! ## `ems_setup` and `ems_quit` -/

/-- The part of `ems_setup` that follows the setup message. -/
def enterSession (e : SetupEnv) (req_pipe_path resp_pipe_path : Buffer MAX_PATH) : Main σ Int32 :=
  if !e.openRequest then fail "Failed to open request pipe.\n"
  else if !e.openResponse then fail "Failed to open response pipe.\n"
  else readSessionIdOr do
    let session_req ← copy (← get).req_pipe_path 0 req_pipe_path.str
    let session_resp ← copy (← get).resp_pipe_path 0 resp_pipe_path.str
    modify fun s => { s with req_pipe_path := session_req, resp_pipe_path := session_resp }
    if !e.closeServer then fail "Failed to close server pipe.\n"
    else if !e.closeResponse then fail "Failed to close response pipe.\n"
    else return 0

/-- Connects to the server. -/
def emsSetup (e : SetupEnv) (req_pipe_p resp_pipe_p server_pipe_p : CString) : Main σ Int32 := do
  let server_pipe_path ← copy (.zero MAX_PATH) 0 server_pipe_p.bytes
  let resp_pipe_path ← copy (.zero MAX_PATH) 0 resp_pipe_p.bytes
  let req_pipe_path ← copy (.zero MAX_PATH) 0 req_pipe_p.bytes
  if !(← mkfifo e.mkfifoResponse resp_pipe_path.str) then fail "Failed to create response pipe.\n"
  else if !(← mkfifo e.mkfifoRequest req_pipe_path.str) then fail "Failed to create request pipe.\n"
  -- there is no file without a name
  else if !(e.openServer ∧ server_pipe_path.str ≠ []) then fail "Failed to connect to server pipe.\n"
  else
    modify fun s => { s with server_fd := { turns := e.serverTurns } }
    serverWriteOr "Failed to write op_code.\n" [1] <|
    serverWriteOr "Failed to write req_pipe_path.\n" req_pipe_path.bytes <|
    serverWriteOr "Failed to write resp_pipe_path.\n" resp_pipe_path.bytes <|
    enterSession e req_pipe_path resp_pipe_path

/-- Ends the session. -/
def emsQuit (e : QuitEnv) : Main σ Int32 := do
  if !e.openRequest then return 1
  else
    modify fun s => { s with quit_fd := { turns := e.requestTurns } }
    let s ← get
    quitWriteOr "Failed to write op_code.\n" [2] <|
    quitWriteOr "Failed to write session_id.\n" (intBytes s.process.session_id) <|
      if !e.closeRequest then fail "Failed to close request pipe.\n"
      -- a response pipe that cannot be opened is not an error
      else if e.openResponse && !e.closeResponse then fail "Failed to close response pipe.\n"
      else do
        unlink e.unlinkRequest s.req_pipe_path.str
        unlink e.unlinkResponse s.resp_pipe_path.str
        return 0

/-! ## `main` -/

/-- The test of the `.jobs` file path. -/
def validJobs (path : Bytes) : Bool :=
  match strrchr 46 path with
  | none => false
  | some dot => dot ≠ 0 ∧ (path.drop dot).length = 5 ∧ path.drop dot = ascii ".jobs" ∧
    path.length ≤ MAX_JOB_FILE_NAME_SIZE

/-- What `main` prints when a call has not returned 0. -/
def failure : Call → String
  | .emsCreate _ _ _ => "Failed to create event\n"
  | .emsReserve _ _ => "Failed to reserve seats\n"
  | .emsShow _ => "Failed to show event\n"
  | .emsListEvents => "Failed to list events\n"

/-- The answer to HELP. -/
def help : String :=
  "Available commands:\n" ++
  "  CREATE <event_id> <num_rows> <num_columns>\n" ++
  "  RESERVE <event_id> [(<x1>,<y1>) (<x2>,<y2>) ...]\n" ++
  "  SHOW <event_id>\n" ++
  "  LIST\n" ++
  "  WAIT <delay_ms>\n" ++
  "  HELP\n"

section

variable (e : MainEnv σ)

/-- A call of the client's api with the rest of the job file still to be read. -/
def call (c : Call) : Main σ Unit := do
  let s ← get
  match (c.issue (e.pipes s.in_file.length) (e.respond s.in_file.length)).run s.process with
  | .error stop => halt (.stopped stop)
  | .ok (code, process) =>
    set { s with process }
    if code ≠ 0 then printError (ascii (failure c))

/-- What the loop does with a command, but for the end of the file. -/
def execute : Directive → Main σ Unit
  | .call c => call e c
  | .wait delay => if delay > 0 then print (ascii "Waiting...\n") else return ()
  | .help => print (ascii help)
  | .empty => return ()
  | .invalid => printError (ascii "Invalid command. See HELP for usage\n")
  | .eoc => return ()

/-- The end of the job file. -/
def finish (in_path out_path : Bytes) : Main σ Int32 := do
  if !e.closeInput then failAt "Failed to close input file. Path: " in_path
  else if !e.closeOutput then failAt "Failed to close output file. Path: " out_path
  else if (← emsQuit e.quit) ≠ 0 then fail "Failed to quit EMS\n"
  else return 0

/-- The command loop; `fuel` bounds the number of iterations. -/
def loop (in_path out_path : Bytes) : Nat → Main σ Int32
  | 0 => halt (.stopped .diverges)
  | fuel + 1 => do
    let s ← get
    match (nextDirective e.stack).run s.in_file with
    | .error stop => halt (.stopped stop)
    | .ok (d, rest) =>
      set { s with in_file := rest }
      if d = .eoc then finish e in_path out_path
      else
        execute e d
        loop in_path out_path fuel

/-- Opening the two files and the loop. -/
def runJobs (in_path out_path : Bytes) : Main σ Int32 := do
  if !e.openInput then failAt "Failed to open input file. Path: " in_path
  else
    modify fun s => { s with out_path := some out_path, in_file := e.jobs }
    if !e.openOutput then failAt "Failed to open output file. Path: " out_path
    else
      modify fun s => { s with files := out_path :: s.files }
      loop e in_path out_path (e.jobs.length + 1)

/-- Making the path of the output file, and the rest of `main`. -/
def openJobs (path : CString) : Main σ Int32 := do
  let out_path ← copy e.out_path 0 path.bytes
  match strrchr 46 out_path.str with
  | none => halt (.stopped .nullPointer)
  | some dot =>
    let out_path ← copy out_path dot (ascii ".out")
    runJobs e path.bytes out_path.str

/-- The main function of the client. -/
def main (argv : List CString) : Main σ Int32 :=
  match argv with
  | _ :: req_pipe_p :: resp_pipe_p :: server_pipe_p :: path :: _ => do
    if (← emsSetup e.setup req_pipe_p resp_pipe_p server_pipe_p) ≠ 0 then
      fail "Failed to set up EMS\n"
    else if !validJobs path.bytes then
      -- the message names the request pipe
      failAt "The provided .jobs file path is not valid. Path: " req_pipe_p.bytes
    else openJobs e path
  | _ => do
    let name := (argv.head?.map CString.bytes).getD (ascii "(null)")
    printError (ascii "Usage: " ++ name ++ ascii
      " <request pipe path> <response pipe path> <server pipe path> <.jobs file path>\n")
    return 1

end

end Main

end EventServer.Client
