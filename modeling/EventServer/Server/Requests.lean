import EventServer.Client.Setup

/-
  `extract_requests` of `server/main.c`: reading setup messages from the server pipe.

  The main thread keeps the pipe open for reading and writing, so the stream never ends. One
  round of its loop is `extractRound`; a `Round` holds what the environment does in it: the turns
  at the reads, among them the deliveries of SIGUSR1, a delivery between the read of the op code
  and the test of `print_flag`, and whether the thread that inserts the request can be created
  and joined. `extractRound_cases` says once what a round can do.
-/

namespace EventServer

open Lib Client

/-- `struct Request`; the paths are the strings in its arrays. -/
structure Request where
  session_id : Int32
  request_pipe_path : Bytes
  response_pipe_path : Bytes
  server_pipe_path : Bytes
  deriving DecidableEq, Repr

/-- The request that a setup message asks for. -/
def Client.Setup.request (server_pipe_path : Bytes) (m : Setup) : Request :=
  ⟨-1, m.req_pipe_path.bytes, m.resp_pipe_path.bytes, server_pipe_path⟩

/-- What the environment does in one round of the loop. -/
structure Round where
  /-- The turns at the reads of the round. -/
  turns : List Turn := []
  /-- Is SIGUSR1 handled between the read of the op code and the test of `print_flag`? -/
  signal : Bool := false
  /-- Can the inserting thread be created? -/
  create : Bool := true
  /-- Can it be joined? -/
  join : Bool := true
  deriving DecidableEq, Repr

/-- Why there is no further round: a read waits for ever, the loop is left by `break`, or
    `snprintf` reads past the end of a path. -/
inductive Stopped where
  | waiting
  | broke
  | outOfBounds
  deriving DecidableEq, Repr

/-- The state of `extract_requests`: the server pipe with `print_flag`, the local variables, and
    what it has done: the requests it has inserted, the number of bytes still to come each time
    it read an op code, the calls of `print_events`, the error messages. -/
structure Extractor where
  server_fd : Reader
  op_code : UInt8 := 0
  request_pipe_path : Buffer MAX_PATH
  response_pipe_path : Buffer MAX_PATH
  inserted : List Request := []
  opCodes : List Nat := []
  prints : Nat := 0
  errors : List String := []
  stopped : Option Stopped := none
  deriving DecidableEq, Repr

namespace Extractor

/-- Leave the loop with an error message. -/
def leave (x : Extractor) (msg : String) : Extractor :=
  { x with errors := x.errors ++ [msg], stopped := some .broke }

/-- `my_read` on the server pipe into a variable, then `next`; only the result -1 ends the loop. -/
def readOr (x : Extractor) (msg : String) (size : Nat) (put : Extractor → Bytes → Extractor)
    (next : Extractor → Extractor) : Extractor :=
  let done := myRead x.server_fd (UInt64.ofNat size)
  let x := put { x with server_fd := done.reader } done.stored
  match done.ret with
  | none => { x with stopped := some .waiting }
  | some ret => if ret = -1 then x.leave msg else next x

/-- Store the op code, if one has been read. -/
def putOpCode (x : Extractor) : Bytes → Extractor
  | [] => x
  | op_code :: _ =>
    { x with op_code, opCodes := x.opCodes ++ [x.server_fd.bytes.length + 1] }

def putRequestPath (x : Extractor) (bs : Bytes) : Extractor :=
  { x with request_pipe_path := x.request_pipe_path.overwrite bs }

def putResponsePath (x : Extractor) (bs : Bytes) : Extractor :=
  { x with response_pipe_path := x.response_pipe_path.overwrite bs }

/-- Copy the paths into a request and have it inserted by a thread of its own. -/
def insert (server_pipe_path : Bytes) (ρ : Round) (x : Extractor) : Extractor :=
  match snprintf x.request_pipe_path.bytes, snprintf x.response_pipe_path.bytes with
  | some request_pipe_path, some response_pipe_path =>
    if !ρ.create then x.leave "Error creating thread.\n"
    else
      let x := { x with inserted :=
        x.inserted ++ [⟨-1, request_pipe_path, response_pipe_path, server_pipe_path⟩] }
      if !ρ.join then x.leave "Error joining thread.\n" else x
  | _, _ => { x with stopped := some .outOfBounds }

/-- The case `ems_setup`. -/
def readSetup (server_pipe_path : Bytes) (ρ : Round) (x : Extractor) : Extractor :=
  readOr x "15Error reading from named pipe.\n" MAX_PATH putRequestPath fun x =>
  readOr x "16Error reading from named pipe.\n" MAX_PATH putResponsePath fun x =>
  insert server_pipe_path ρ x

/-- One round of the loop of `extract_requests`. -/
def extractRound (server_pipe_path : Bytes) (ρ : Round) (x : Extractor) : Extractor :=
  readOr { x with op_code := 0, server_fd := { x.server_fd with turns := ρ.turns } }
    "Error reading from named pipe.\n" 1 putOpCode fun x =>
  let print_flag :=
    if ρ.signal then sigusr1Handler SIGUSR1 x.server_fd.printFlag else x.server_fd.printFlag
  if print_flag then
    { x with prints := x.prints + 1, server_fd := { x.server_fd with printFlag := false } }
  else if x.op_code = 1 then x.readSetup server_pipe_path ρ
  else x

end Extractor

/-- `extract_requests` runs round after round until it stops. -/
def extractStep (server_pipe_path : Bytes) (x : Extractor) (ρ : Round) : Option Extractor :=
  if x.stopped = none then some (x.extractRound server_pipe_path ρ) else none

/-- The server is about to read these bytes, which are the last. -/
structure Awaits (bytes : Bytes) (x : Extractor) : Prop where
  eof : x.server_fd.eof = false
  bytes : x.server_fd.bytes = bytes
  opCodes : x.opCodes = []
  inserted : x.inserted = []
  stopped : x.stopped = none

/-- The bytes are in the pipe. -/
def Extractor.reading (bs : Bytes) : Extractor where
  server_fd := { bytes := bs, eof := false }
  request_pipe_path := .zero MAX_PATH
  response_pipe_path := .zero MAX_PATH

theorem awaits_reading (bs : Bytes) : Awaits bs (.reading bs) := ⟨rfl, rfl, rfl, rfl, rfl⟩

/-- The server will insert no further request: it has read everything or has stopped. -/
def Through (x : Extractor) : Prop := x.server_fd.bytes = [] ∨ x.stopped ≠ none

theorem extractStep_eq_some {server_pipe_path : Bytes} {x x' : Extractor} {ρ : Round}
    (h : extractStep server_pipe_path x ρ = some x') :
    x.stopped = none ∧ x' = x.extractRound server_pipe_path ρ := by
  unfold extractStep at h
  split at h
  · next hs => exact ⟨hs, (Option.some.inj h).symm⟩
  · cases h

/-! ## What a round does -/

/-- SIGUSR1 does not get in the way of this round: if it reads an op code, `print_flag` is clear
    when it is tested, and the reads of the paths are not interrupted. -/
def Undisturbed (x : Extractor) (ρ : Round) : Prop :=
  let op_code := myRead { x.server_fd with turns := ρ.turns } 1
  let request_path := myRead op_code.reader (UInt64.ofNat MAX_PATH)
  let response_path := myRead request_path.reader (UInt64.ofNat MAX_PATH)
  op_code.stored ≠ [] → op_code.reader.printFlag = false ∧ ρ.signal = false ∧
    (op_code.stored = [1] → request_path.ret ≠ some (-2) ∧ response_path.ret ≠ some (-2))

/-- Nothing but SIGUSR1 can go wrong in the round. -/
structure Round.Reliable (ρ : Round) : Prop where
  reads : .fail ∉ ρ.turns
  create : ρ.create = true
  join : ρ.join = true

/-- The effect of a round: `bytes` are still to come, `opCodes` and `inserted` have been added. -/
structure Moved (ρ : Round) (x x' : Extractor) (bytes : Bytes) (opCodes : List Nat)
    (inserted : List Request) (stopped : Option Stopped) : Prop where
  eof : x'.server_fd.eof = false
  bytes : x'.server_fd.bytes = bytes
  opCodes : x'.opCodes = x.opCodes ++ opCodes
  inserted : x'.inserted = x.inserted ++ inserted
  stopped : x'.stopped = stopped
  quiet : x.server_fd.printFlag = false → Calm ρ.turns → ρ.signal = false →
    x'.server_fd.printFlag = false

/-- The request made of two arrays, if both hold a string. -/
def copied (server_pipe_path request_path response_path : Bytes) :
    List Request × Option Stopped :=
  match snprintf request_path, snprintf response_path with
  | some p, some q => ([⟨-1, p, q, server_pipe_path⟩], none)
  | _, _ => ([], some .outOfBounds)

/-- What a round can do. -/
inductive Does (server_pipe_path : Bytes) (ρ : Round) (x x' : Extractor) : Prop where
  | waits (hbytes : x.server_fd.bytes = []) (hquiet : Undisturbed x ρ)
      (h : Moved ρ x x' [] [] [] (some .waiting))
  | interrupted (hquiet : Undisturbed x ρ)
      (h : Moved ρ x x' x.server_fd.bytes [] [] none)
  | prints {op_code : UInt8} {bs : Bytes} (hbytes : x.server_fd.bytes = op_code :: bs)
      (hquiet : ¬ Undisturbed x ρ) (h : Moved ρ x x' bs [bs.length + 1] [] none)
  | skips {op_code : UInt8} {bs : Bytes} (hbytes : x.server_fd.bytes = op_code :: bs)
      (hop : op_code ≠ 1) (hquiet : Undisturbed x ρ) (h : Moved ρ x x' bs [bs.length + 1] [] none)
  | short {bs : Bytes} (hbytes : x.server_fd.bytes = 1 :: bs) (hlen : bs.length < 2 * MAX_PATH)
      (h : Moved ρ x x' [] [bs.length + 1] [] (some .waiting))
  | reads {bs : Bytes} (hbytes : x.server_fd.bytes = 1 :: bs) (k k' : Nat)
      (hk : k ≤ MAX_PATH) (hk' : k' ≤ MAX_PATH) (hlen : k + k' ≤ bs.length)
      (hquiet : Undisturbed x ρ ↔ k = MAX_PATH ∧ k' = MAX_PATH)
      (h : Moved ρ x x' (bs.drop (k + k')) [bs.length + 1]
        (copied server_pipe_path (x.request_pipe_path.overwrite (bs.take k)).bytes
          (x.response_pipe_path.overwrite ((bs.drop k).take k')).bytes).1
        (copied server_pipe_path (x.request_pipe_path.overwrite (bs.take k)).bytes
          (x.response_pipe_path.overwrite ((bs.drop k).take k')).bytes).2)

section Does

variable {server_pipe_path : Bytes} {ρ : Round} {x x' : Extractor}

/-- Whatever a round does, it only adds to the op codes and requests. -/
theorem Does.moved (h : Does server_pipe_path ρ x x') :
    ∃ bytes opCodes inserted stopped, Moved ρ x x' bytes opCodes inserted stopped := by
  cases h with
  | waits _ _ h => exact ⟨_, _, _, _, h⟩
  | interrupted _ h => exact ⟨_, _, _, _, h⟩
  | prints _ _ h => exact ⟨_, _, _, _, h⟩
  | skips _ _ _ h => exact ⟨_, _, _, _, h⟩
  | short _ _ h => exact ⟨_, _, _, _, h⟩
  | reads _ _ _ _ _ _ _ h => exact ⟨_, _, _, _, h⟩

theorem Does.eof (h : Does server_pipe_path ρ x x') : x'.server_fd.eof = false := by
  obtain ⟨_, _, _, _, hmoved⟩ := h.moved
  exact hmoved.eof

/-- `print_flag` stays clear if no signal comes. -/
theorem Does.quiet (h : Does server_pipe_path ρ x x') (hflag : x.server_fd.printFlag = false)
    (hcalm : Calm ρ.turns) (hsignal : ρ.signal = false) : x'.server_fd.printFlag = false := by
  obtain ⟨_, _, _, _, hmoved⟩ := h.moved
  exact hmoved.quiet hflag hcalm hsignal

theorem Does.opCodes_prefix (h : Does server_pipe_path ρ x x') : x.opCodes <+: x'.opCodes := by
  obtain ⟨_, opCodes, _, _, hmoved⟩ := h.moved
  exact ⟨opCodes, hmoved.opCodes.symm⟩

end Does

theorem FlagKept.calm {ts : List Turn} {before after : Bool} (h : FlagKept ts before after)
    (hts : Calm ts) : after = before :=
  h.resolve_right fun hm => hm.elim hts.unsignalled.2 hts.unsignalled.1

section Cases

variable (server_pipe_path : Bytes) {x : Extractor} {ρ : Round}

theorem insert_eq (hs : x.stopped = none) (hρ : ρ.Reliable) :
    x.insert server_pipe_path ρ = { x with
      inserted := x.inserted ++
        (copied server_pipe_path x.request_pipe_path.bytes x.response_pipe_path.bytes).1
      stopped :=
        (copied server_pipe_path x.request_pipe_path.bytes x.response_pipe_path.bytes).2 } := by
  simp only [Extractor.insert, copied, hρ.create, hρ.join]
  split <;> simp [hs]

/-- Reading the two paths: the pipe runs dry, or some of their bytes are read. -/
theorem readSetup_cases (ho : x.server_fd.eof = false) (hs : x.stopped = none)
    (hfail : .fail ∉ x.server_fd.turns) (hρ : ρ.Reliable) :
    ∃ bs ts flag request_path response_path reqs stopped,
      FlagKept x.server_fd.turns x.server_fd.printFlag flag ∧
      x.readSetup server_pipe_path ρ = { x with
        server_fd := { x.server_fd with bytes := bs, turns := ts, printFlag := flag }
        request_pipe_path := request_path
        response_pipe_path := response_path
        inserted := x.inserted ++ reqs
        stopped := stopped } ∧
      (x.server_fd.bytes.length < 2 * MAX_PATH ∧ bs = [] ∧ reqs = [] ∧ stopped = some .waiting ∨
        ∃ k k', k ≤ MAX_PATH ∧ k' ≤ MAX_PATH ∧ k + k' ≤ x.server_fd.bytes.length ∧
          ((myRead x.server_fd (UInt64.ofNat MAX_PATH)).ret ≠ some (-2) ∧
            (myRead (myRead x.server_fd (UInt64.ofNat MAX_PATH)).reader
              (UInt64.ofNat MAX_PATH)).ret ≠ some (-2) ↔ k = MAX_PATH ∧ k' = MAX_PATH) ∧
          bs = x.server_fd.bytes.drop (k + k') ∧
          (reqs, stopped) = copied server_pipe_path
            (x.request_pipe_path.overwrite (x.server_fd.bytes.take k)).bytes
            (x.response_pipe_path.overwrite ((x.server_fd.bytes.drop k).take k')).bytes) := by
  have hpath : (ssize (UInt64.ofNat MAX_PATH)).toNat = MAX_PATH := by decide
  obtain ⟨k, ts, flag, ret, hk, hts, hflag, hends, hread⟩ := myRead_open ho hpath
  obtain ⟨k', ts', flag', ret', hk', hts', hflag', hends', hread'⟩ := myRead_open
    (r := { x.server_fd with bytes := x.server_fd.bytes.drop k, turns := ts, printFlag := flag })
    ho hpath
  have hflags := hflag.trans hts hflag'
  simp only [List.length_drop] at hk' hends'
  simp only [Extractor.readSetup, Extractor.readOr, Extractor.putRequestPath,
    Extractor.putResponsePath, hread, hread']
  cases ret with
  | none =>
    obtain ⟨rfl, hlt⟩ := hends
    refine ⟨_, _, _, _, _, [], _, hflag, by simp only [List.append_nil]; rfl,
      Or.inl ⟨by omega, by simp, rfl, rfl⟩⟩
  | some ret =>
    obtain ⟨hsize, hret, hfull⟩ := hends.complete_iff hfail
    simp only [if_neg hret]
    cases ret' with
    | none =>
      obtain ⟨rfl, hlt⟩ := hends'
      refine ⟨_, _, _, _, _, [], _, hflags, by simp only [List.append_nil]; rfl,
        Or.inl ⟨by omega, List.drop_eq_nil_of_le (by simp), rfl, rfl⟩⟩
    | some ret' =>
      obtain ⟨hsize', hret', hfull'⟩ := hends'.complete_iff fun hm => hfail (hts.mem hm)
      simp only [if_neg hret']
      rw [insert_eq server_pipe_path (by exact hs) hρ]
      refine ⟨_, _, _, _, _, _, _, hflags, rfl, Or.inr ⟨k, k', hsize, hsize', by omega, ?_, ?_, rfl⟩⟩
      · simpa using and_congr hfull hfull'
      · simp only [List.drop_drop]

end Cases

/-- The case of a round, whatever SIGUSR1 does in it. -/
theorem extractRound_does (server_pipe_path : Bytes) {x : Extractor} {ρ : Round}
    (ho : x.server_fd.eof = false) (hs : x.stopped = none) (hρ : ρ.Reliable) :
    Does server_pipe_path ρ x (x.extractRound server_pipe_path ρ) := by
  obtain ⟨k, ts, flag, ret, hk, hts, hflag, hends, hread⟩ := myRead_open
    (r := { x.server_fd with turns := ρ.turns }) ho (show (ssize 1).toNat = 1 by decide)
  dsimp only at hk hts hflag hends hread
  have hone : UInt64.ofNat 1 = 1 := rfl
  simp only [Extractor.extractRound, Extractor.readOr, hone, hread]
  cases ret with
  | none =>
    obtain ⟨rfl, hlt⟩ := hends
    have hbytes : x.server_fd.bytes = [] := List.eq_nil_of_length_eq_zero (Nat.lt_one_iff.1 hlt)
    refine .waits hbytes ?_ ?_
    · simp only [Undisturbed, hread]
      exact fun hne => absurd (by simp [hbytes]) hne
    · simp only [hbytes, List.take_nil, Extractor.putOpCode, List.drop_nil]
      exact ⟨ho, rfl, by simp, by simp, rfl, fun hf hc _ => (hflag.calm hc).trans hf⟩
  | some ret =>
    obtain ⟨hsize, hret, hfull⟩ := hends.complete_iff hρ.reads
    simp only [if_neg hret]
    obtain rfl | rfl : k = 0 ∨ k = 1 := by omega
    · -- SIGUSR1 has interrupted the read, and print_flag is set
      obtain ⟨h, -⟩ | ⟨-, -, rfl, hm⟩ | ⟨h, -⟩ := hends
      · omega
      · have hset : (if ρ.signal then sigusr1Handler SIGUSR1 true else true) = true := by
          split <;> rfl
        refine .interrupted ?_ ?_
        · simp only [Undisturbed, hread]
          exact fun hne => absurd rfl hne
        · simp only [List.take_zero, Extractor.putOpCode, List.drop_zero, hset, if_true]
          exact ⟨ho, rfl, by simp, by simp, hs, fun _ _ _ => rfl⟩
      · exact absurd h hret
    · obtain ⟨op_code, bs, hbytes⟩ : ∃ op_code bs, x.server_fd.bytes = op_code :: bs :=
        List.exists_cons_of_length_pos hk
      simp only [hbytes, List.take_succ_cons, List.take_zero, Extractor.putOpCode, List.drop_succ_cons,
        List.drop_zero] at hread ⊢
      let pipe : Reader := { x.server_fd with bytes := bs, turns := ts, printFlag := flag }
      have hquiet : Undisturbed x ρ ↔ flag = false ∧ ρ.signal = false ∧ (op_code = 1 →
          (myRead pipe (UInt64.ofNat MAX_PATH)).ret ≠ some (-2) ∧
          (myRead (myRead pipe (UInt64.ofNat MAX_PATH)).reader (UInt64.ofNat MAX_PATH)).ret ≠
            some (-2)) := by
        simp only [Undisturbed, hbytes, hread, ne_eq, List.cons_ne_nil, not_false_iff, true_imp_iff,
          List.cons.injEq, and_true]
        rfl
      have hflags : (if ρ.signal then sigusr1Handler SIGUSR1 flag else flag) =
          (ρ.signal || flag) := by cases ρ.signal <;> rfl
      rw [hflags]
      cases hsig : ρ.signal || flag with
      | true =>
        rw [if_pos rfl]
        refine .prints hbytes (fun hu => ?_) ⟨ho, rfl, rfl, by simp, hs, fun _ _ _ => rfl⟩
        obtain ⟨hf, hsignal, -⟩ := hquiet.1 hu
        simp [hsignal, hf] at hsig
      | false =>
        obtain ⟨hsignal, rfl⟩ : ρ.signal = false ∧ flag = false := by simpa using hsig
        rw [if_neg (by decide)]
        by_cases hop : op_code = 1
        · subst hop
          rw [if_pos rfl]
          obtain ⟨bs', ts', flag', p, q, reqs, stopped, hflag', hrun, hcases⟩ := readSetup_cases
            server_pipe_path (x := { x with
              op_code := 1
              server_fd := pipe
              opCodes := x.opCodes ++ [bs.length + 1] }) ho hs (fun hm => hρ.reads (hts.mem hm)) hρ
          rw [hrun]
          have hquiet' : x.server_fd.printFlag = false → Calm ρ.turns → ρ.signal = false →
              flag' = false := fun _ hc _ => hflag'.calm (hc.suffix hts)
          obtain ⟨hlen, rfl, rfl, rfl⟩ | ⟨k, k', hk, hk', hlen, hfull, rfl, hcopied⟩ := hcases
          · exact .short hbytes hlen ⟨ho, rfl, rfl, by simp, rfl, hquiet'⟩
          · obtain ⟨rfl, rfl⟩ := Prod.mk.inj hcopied
            refine .reads hbytes k k' hk hk' hlen ?_ ⟨ho, rfl, rfl, rfl, rfl, hquiet'⟩
            rw [hquiet, ← hfull]
            simp [hsignal]
        · rw [if_neg hop]
          exact .skips hbytes hop (hquiet.2 ⟨rfl, hsignal, fun h => absurd h hop⟩)
            ⟨ho, rfl, rfl, by simp, hs, fun _ _ _ => rfl⟩

end EventServer
