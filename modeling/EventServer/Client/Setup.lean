import Mathlib.Logic.Function.Basic
import EventServer.Common.Paths
import EventServer.Lib.Runs

/-
  What `ems_setup` of `client/api.c` sends to the server pipe: an op code and two paths, each in
  a `my_write` call of its own. The pipe is shared by all clients; `writeStep` is one such call
  of one of them, so its runs are the interleavings of their calls.
-/

namespace EventServer.Client

open Lib

/-- The paths a client starts its session with. -/
structure Setup where
  req_pipe_path : PipePath
  resp_pipe_path : PipePath
  deriving DecidableEq, Repr

/-- The buffers that `ems_setup` passes to `my_write`, call by call. -/
def Setup.writes (s : Setup) : List Bytes := [[1], s.req_pipe_path.field, s.resp_pipe_path.field]

/-- The whole message. -/
def Setup.message (s : Setup) : Bytes := 1 :: (s.req_pipe_path.field ++ s.resp_pipe_path.field)

theorem Setup.flatten_writes (s : Setup) : s.writes.flatten = s.message := by
  simp [writes, message]

/-- The number of bytes of a message. -/
def messageSize : Nat := 1 + 2 * MAX_PATH

@[simp] theorem Setup.length_message (s : Setup) : s.message.length = messageSize := by
  rw [message, List.length_cons, List.length_append, PipePath.length_field, PipePath.length_field,
    messageSize]
  omega

/-- The bytes of several messages one after the other. -/
def messages (ms : List Setup) : Bytes := (ms.map Setup.message).flatten

@[simp] theorem length_messages (ms : List Setup) :
    (messages ms).length = ms.length * messageSize := by
  induction ms with
  | nil => simp [messages]
  | cons m ms ih =>
    have hcons : messages (m :: ms) = m.message ++ messages ms := rfl
    rw [hcons, List.length_append, ih, Setup.length_message, List.length_cons, Nat.succ_mul,
      Nat.add_comm]

/-! ## Clients that start at the same time -/

/-- The clients in `ems_setup`: the buffers that each has still to write, and the server pipe. -/
structure Starting (ι : Type) where
  todo : ι → List Bytes
  server_pipe : Writer := {}

variable {ι : Type} [DecidableEq ι]

/-- The next `my_write` call of client `i`. -/
def writeStep (s : Starting ι) (i : ι) : Option (Starting ι) :=
  match s.todo i with
  | [] => none
  | buffer :: rest => some
    { todo := Function.update s.todo i rest, server_pipe := (myWrite s.server_pipe buffer).2 }

/-- All the clients are about to write. -/
def starting (clients : ι → Setup) : Starting ι := { todo := fun i => (clients i).writes }

/-- The buffers in the order in which they are written. -/
def chunks (todo : ι → List Bytes) : List ι → List Bytes
  | [] => []
  | i :: order =>
    match todo i with
    | [] => []
    | buffer :: rest => buffer :: chunks (Function.update todo i rest) order

/-- In this order the clients write all they have to write. -/
def Finishes (todo : ι → List Bytes) : List ι → Prop
  | [] => ∀ i, todo i = []
  | i :: order => ∃ buffer rest, todo i = buffer :: rest ∧ Finishes (Function.update todo i rest) order

/-- Every client makes its three calls without another one in between. -/
def Contiguous : List ι → Prop
  | [] => True
  | i :: j :: k :: order => j = i ∧ k = i ∧ Contiguous order
  | _ => False

/-- What is in the pipe after a run to the end. -/
theorem written_of_run : ∀ {order : List ι} {s t : Starting ι}, s.server_pipe.turns = [] →
    exec writeStep s order = some t → (∀ i, t.todo i = []) →
    Finishes s.todo order ∧
      t.server_pipe.written = s.server_pipe.written ++ (chunks s.todo order).flatten
  | [], s, t, _, hrun, hdone => by
      obtain rfl : s = t := Option.some.inj hrun
      exact ⟨hdone, by simp [chunks]⟩
  | i :: order, s, t, hturns, hrun, hdone => by
      obtain ⟨s', hstep, hrun'⟩ := exec_cons_eq_some.1 hrun
      unfold writeStep at hstep
      cases htodo : s.todo i with
      | nil => simp [htodo] at hstep
      | cons buffer rest =>
        obtain ⟨ts, -, hnil, hwrite⟩ := myWrite_calm (hturns ▸ calm_nil) buffer
        simp only [htodo, hwrite, Option.some.injEq] at hstep
        subst hstep
        obtain ⟨hfin, hwritten⟩ := written_of_run (hnil hturns) hrun' hdone
        refine ⟨⟨buffer, rest, htodo, hfin⟩, ?_⟩
        rw [hwritten]
        simp only [chunks, htodo, List.flatten_cons, List.append_assoc]

/-! ### Two clients -/

/-- Pipes "a" and "b". -/
def setupAB : Setup where
  req_pipe_path := ⟨[97], by decide, by decide, by decide⟩
  resp_pipe_path := ⟨[98], by decide, by decide, by decide⟩

/-- Pipes "c" and "d". -/
def setupCD : Setup where
  req_pipe_path := ⟨[99], by decide, by decide, by decide⟩
  resp_pipe_path := ⟨[100], by decide, by decide, by decide⟩

end EventServer.Client
