import EventServer.Client.Calls
import EventServer.Client.Steps

/-
  The command loop, cut where the client waits for the server.

  `ask` is the part of a call up to the request and `hear` the part from the response on; `turn` is
  an iteration of the loop that stops where it has asked. Put together again they do what `call` and
  `loop` do (`wp_call_iff`, `wp_loop_iff`), so other clients and the workers can be let in between.
-/

namespace EventServer.Client

open Lib

/-! ## The two parts of a call -/

section Parts

variable {σ : Type} {pipes : Pipes} {msg : String} {k : Int32 → Api σ Int32}

open Api

/-- What follows a field follows the rest of the call, unless the call has failed. -/
theorem writeOr_bind (hk : k 1 = return 1) (buffer : Bytes) (next : Api σ Int32) :
    writeOr msg buffer (next >>= k) = writeOr msg buffer next >>= k := by
  simp only [writeOr, bind_assoc]
  refine bind_congr fun s => bind_congr fun _ => ?_
  split
  · simp only [Api.fail, bind_assoc, pure_bind, hk]
  · rfl

theorem writeArrayOr_bind (hk : k 1 = return 1) (ns : List UInt64) (size : UInt64)
    (next : Api σ Int32) :
    writeArrayOr msg ns size (next >>= k) = writeArrayOr msg ns size next >>= k := by
  unfold writeArrayOr
  split
  · exact writeOr_bind hk _ next
  · rfl

theorem request_bind (hk : k 1 = return 1) (unopened : Api σ Unit) (op_code : UInt8)
    (next : Api σ Int32) :
    request pipes unopened op_code (next >>= k) = request pipes unopened op_code next >>= k := by
  unfold request
  split
  · simp only [bind_assoc, pure_bind, hk]
  · unfold writeSessionIdOr
    rw [← writeOr_bind hk]
    refine congrArg (writeOr _ _) ?_
    rw [bind_assoc]
    exact bind_congr fun s => writeOr_bind hk _ next

/-- A call goes on when its request has been sent. -/
theorem sendRequest_bind (pipes : Pipes) (c : Call) (next : Api σ Int32) :
    sendRequest pipes c next = do
      let code ← sendRequest pipes c (return 0)
      if code = 0 then next else return code := by
  have hk : (fun code : Int32 => if code = 0 then next else return code) 1 = return 1 := rfl
  have hnext : (return 0 : Api σ Int32) >>= (fun code : Int32 =>
      if code = 0 then next else return code) = next := rfl
  cases c with
  | emsCreate id rows cols =>
    unfold sendRequest
    rw [← request_bind hk, ← writeOr_bind hk, ← writeOr_bind hk, ← writeOr_bind hk, hnext]
  | emsReserve id args =>
    unfold sendRequest
    rw [← request_bind hk, ← writeOr_bind hk, ← writeOr_bind hk, ← writeArrayOr_bind hk,
      ← writeArrayOr_bind hk, hnext]
  | emsShow id =>
    unfold sendRequest
    rw [← request_bind hk, ← writeOr_bind hk, hnext]
  | emsListEvents =>
    unfold sendRequest
    rw [← request_bind hk, hnext]

end Parts

namespace Main

variable {σ : Type} (e : MainEnv σ)

/-- The end of a call that has returned `code`. -/
def returned (c : Call) (code : Int32) : Main σ Unit :=
  if code ≠ 0 then printError (ascii (failure c)) else return ()

/-- The part of a call that sends the request; `true` when a response is to come. -/
def ask (c : Call) : Main σ Bool := do
  let s ← get
  match (sendRequest (e.pipes s.in_file.length) c (return 0)).run s.process with
  | .error stop => halt (.stopped stop)
  | .ok (code, process) =>
    set { s with process }
    returned c code
    return code = 0

/-- The part of a call that receives the response. -/
def hear (c : Call) : Main σ Unit := do
  let s ← get
  match (receiveResponse (e.pipes s.in_file.length) (e.respond s.in_file.length) c).run s.process with
  | .error stop => halt (.stopped stop)
  | .ok (code, process) =>
    set { s with process }
    returned c code

/-- Where an iteration of the loop stops. -/
inductive Pause where
  /-- The next iteration follows. -/
  | next
  /-- A request has been sent. -/
  | asked (c : Call)
  /-- The job file has ended. -/
  | atEnd
  deriving DecidableEq, Repr

/-- An iteration of the loop, up to where it waits for a response. -/
def turn : Main σ Pause := do
  let s ← get
  match (nextDirective e.stack).run s.in_file with
  | .error stop => halt (.stopped stop)
  | .ok (d, rest) =>
    set { s with in_file := rest }
    match d with
    | .eoc => return .atEnd
    | .call c => return if ← ask e c then .asked c else .next
    | d =>
      execute e d
      return .next

/-! ## The whole loop -/

section Whole

variable {e} {s : Program σ} {E : Halt → Prop}

/-- **The two parts of a call make the call**; a run that stops gives the same reason. -/
theorem wp_call_iff {c : Call} {Q : Unit → Program σ → Prop} :
    wp (call e c) Q (fun p => E p.1) s ↔
      wp (do if ← ask e c then hear e c) Q (fun p => E p.1) s := by
  unfold call ask
  simp only [wp_bind, wp_get]
  rw [issue_eq, sendRequest_bind, StateT.run_bind]
  cases (sendRequest (e.pipes s.in_file.length) c (return 0)).run s.process with
  | error stop => exact Iff.rfl
  | ok r =>
    obtain ⟨code, process⟩ := r
    have hbind : ∀ f : Int32 × Process σ → Except Stop (Int32 × Process σ),
        (Except.ok (code, process) >>= f) = f (code, process) := fun _ => rfl
    rw [hbind]
    simp only [wp_bind, wp_set, wp_pure, returned]
    by_cases hcode : code = 0
    · simp only [hcode, ne_eq, not_true_eq_false, if_false, if_true, decide_true, wp_pure, hear,
        wp_bind, wp_get]
      cases (receiveResponse (e.pipes s.in_file.length) (e.respond s.in_file.length) c).run process <;>
        exact Iff.rfl
    · have hpure : (pure code : Api σ Int32).run process = .ok (code, process) := rfl
      simp only [hcode, hpure, ne_eq, not_false_eq_true, if_false, if_true, decide_false,
        Bool.false_eq_true, wp_bind, wp_set]
      exact Iff.rfl

/-- **An iteration of the loop is a turn**, with the response if it has asked for one. -/
theorem wp_loop_iff {in_path out_path : Bytes} {fuel : Nat} {Q : Int32 → Program σ → Prop} :
    wp (loop e in_path out_path (fuel + 1)) Q (fun p => E p.1) s ↔
      wp (do
        match ← turn e with
        | .atEnd => finish e in_path out_path
        | .asked c =>
          hear e c
          loop e in_path out_path fuel
        | .next => loop e in_path out_path fuel) Q (fun p => E p.1) s := by
  have hloop := loop_succ e in_path out_path fuel s
  unfold turn
  simp only [wp_bind, wp_get]
  cases hnext : (nextDirective e.stack).run s.in_file with
  | error stop =>
    rw [hnext] at hloop
    exact wp_of_run_error hloop
  | ok r =>
    obtain ⟨d, rest⟩ := r
    rw [hnext] at hloop
    rw [wp_of_run_eq hloop]
    cases d with
    | eoc => exact Iff.rfl
    | call c =>
      rw [if_neg Directive.noConfusion, wp_bind]
      refine wp_call_iff.trans ?_
      simp only [wp_bind, wp_set, wp_pure]
      refine iff_of_eq (congrArg (fun R => wp (ask e c) R (fun p => E p.1) _) ?_)
      funext b s'
      cases b
      · rfl
      · exact (propext (wp_bind ..)).symm
    | wait | help | empty | invalid =>
      rw [if_neg Directive.noConfusion]
      simp only [wp_bind, wp_set, wp_pure]

end Whole

/-! ## What is left of the job file -/

section File

variable {e} {s : Program σ}

theorem wp_ask_file (c : Call) :
    wp (ask e c) (fun _ s' => s'.in_file = s.in_file) (fun _ => True) s := by
  unfold ask
  simp only [wp_bind, wp_get]
  cases (sendRequest (e.pipes s.in_file.length) c (return 0)).run s.process with
  | error stop => trivial
  | ok r =>
    simp only [wp_bind, wp_set, returned, wp_ite]
    exact ⟨fun _ => rfl, fun _ => rfl⟩

theorem wp_hear_file (c : Call) :
    wp (hear e c) (fun _ s' => s'.in_file = s.in_file) (fun _ => True) s := by
  unfold hear
  simp only [wp_bind, wp_get]
  cases (receiveResponse (e.pipes s.in_file.length) (e.respond s.in_file.length) c).run s.process with
  | error stop => trivial
  | ok r =>
    simp only [wp_bind, wp_set, returned, wp_ite]
    exact ⟨fun _ => rfl, fun _ => rfl⟩

/-- A turn takes some of the file, unless it is at the end. -/
theorem wp_turn_file : wp (turn e) (fun pause s' => pause = .atEnd ∧ s'.in_file = s.in_file ∨
    s'.in_file.length < s.in_file.length) (fun _ => True) s := by
  unfold turn
  rw [wp_bind, wp_get]
  cases hnext : (nextDirective e.stack).run s.in_file with
  | error stop => trivial
  | ok r =>
    obtain ⟨d, rest⟩ := r
    obtain ⟨hfile, rfl, rfl⟩ | ⟨ch, bs, hfile, hd, hrest⟩ := nextDirective_cases hnext
    · exact Or.inl ⟨rfl, hfile.symm⟩
    · have hless : rest.length < s.in_file.length := by
        rw [hfile]
        exact Nat.lt_succ_of_le hrest.length_le
      have hother : wp (do
          execute e d
          return Pause.next) (fun pause s' => pause = .atEnd ∧ s'.in_file = s.in_file ∨
            s'.in_file.length < s.in_file.length) (fun _ => True) { s with in_file := rest } := by
        rw [wp_bind]
        refine wp_mono (wp_execute e d) (fun _ s' h => Or.inr ?_) fun _ _ => trivial
        exact h.2 ▸ hless
      simp only [wp_bind, wp_set]
      cases d with
      | eoc => exact absurd rfl hd
      | call c =>
        rw [wp_bind]
        refine wp_mono (wp_ask_file c) (fun asked s' h => Or.inr ?_) fun _ h => h
        exact h ▸ hless
      | wait | help | empty | invalid => exact hother

end File

/-! ## Where nothing fails -/

/-- No pipe fails to open or to close, and a response is there when the client looks for it. -/
structure Plain (e : MainEnv σ) : Prop where
  pipes : ∀ n, e.pipes n = {}
  respond : ∀ n, e.respond n = return ()

section Plain

variable {e} {s : Program σ} {E : Halt × Program σ → Prop}

/-- Asking sends the request. -/
theorem wp_ask (he : Plain e) {c : Call} (hvalid : c.Valid) (hsmall : c.Small)
    (hs : s.process.Reliable) :
    wp (ask e c) (fun asked s' => asked = true ∧ ∃ p, s' = { s with process := p } ∧
      Progress s.process (c.request s.process.session_id) [] [] p) E s := by
  have hsend : wp (sendRequest {} c (return 0)) (fun code p => code = 0 ∧
      Progress s.process (c.request s.process.session_id) [] [] p) (fun _ => False) s.process :=
    wp_sendRequest hvalid hsmall hs fun p hp => ⟨rfl, hp⟩
  obtain ⟨code, p, hrun, rfl, hp⟩ := run_of_wp hsend
  unfold ask
  simp only [wp_bind, wp_get, he.pipes, hrun]
  exact ⟨rfl, p, rfl, hp⟩

end Plain

end Main

end EventServer.Client
