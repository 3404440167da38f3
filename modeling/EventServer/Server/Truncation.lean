import EventServer.Server.Received
import EventServer.Server.Threads

/-
  Requests that are cut off by the end of the stream.

  `completeRequests` reads off the bytes alone which requests arrived with all their operands.
  The store follows them (`StoreFollows`) when the stream does not end inside a create or
  reserve request that the store accepts with the operands as the variables then hold them
  (`NoLeftovers`); otherwise `handle_client` executes that request with what is left over in its
  variables. `store_follows_iff`: as long as no request announces more seats than the arrays
  hold, this is exact.
-/

namespace EventServer

open Lib Op

/-! ## The complete requests -/

/-- The request at the front of `bs` after its op code, if all its operand bytes are there, and
    their number; `none` inside is an op code that no request has. -/
def completeRequest (op_code : UInt8) (bs : Bytes) : Option (Option Call × Nat) :=
  match op_code with
  | 3 =>
    if 24 ≤ bs.length then
      some (some (.emsCreate (toUInt ((bs.drop 4).take 4)) (toSize ((bs.drop 8).take 8))
        (toSize ((bs.drop 16).take 8))), 24)
    else none
  | 4 =>
    let num_seats := toSize ((bs.drop 8).take 8)
    let n := num_seats.toNat
    if 16 ≤ bs.length ∧ 16 + 16 * n ≤ bs.length then
      some (some (.emsReserve (toUInt ((bs.drop 4).take 4))
        ⟨num_seats, toSizes n (bs.drop 16), toSizes n (bs.drop (16 + 8 * n))⟩), 16 + 16 * n)
    else none
  | 5 => if 8 ≤ bs.length then some (some (.emsShow (toUInt ((bs.drop 4).take 4))), 8) else none
  | 6 => if 4 ≤ bs.length then some (some .emsListEvents, 4) else none
  | _ => some (none, 0)

/-- The requests of a session whose op code and operands lie within the bytes, up to a quit
    request, after skipping `k` bytes. -/
def completeRequests : Nat → Bytes → List (Option Call)
  | _, [] => []
  | k + 1, _ :: bs => completeRequests k bs
  | 0, op_code :: bs =>
    if op_code = 2 then []
    else
      match completeRequest op_code bs with
      | none => []
      | some (call, size) => call :: completeRequests size bs

theorem completeRequests_drop : ∀ (k : Nat) (bs : Bytes),
    completeRequests k bs = completeRequests 0 (bs.drop k)
  | 0, bs => by rw [List.drop_zero]
  | k + 1, [] => by simp [completeRequests]
  | k + 1, b :: bs => by
      rw [completeRequests, completeRequests_drop k bs, List.drop_succ_cons]

/-! ## What the loop reads of them -/

/-- The first elements of an array are what has been stored at its start. -/
theorem take_toSizes_overwrite {n m : Nat} (b : Buffer (8 * m)) {bs : Bytes} (hn : n ≤ m)
    (hlen : 8 * n ≤ bs.length) : (toSizes m (b.overwrite bs).bytes).take n = toSizes n bs := by
  have hfirst : groups 8 n (bs.take (8 * m)) = groups 8 n bs := by
    conv_rhs => rw [← List.take_append_drop (8 * m) bs,
      groups_append (by rw [List.length_take]; omega)]
  simp only [toSizes, Buffer.overwrite]
  rw [← List.map_take, take_groups hn, groups_append (by rw [List.length_take]; omega), hfirst]

/-- Bytes behind the elements make no difference. -/
theorem toSizes_take (n : Nat) (bs : Bytes) : toSizes n (bs.take (8 * n)) = toSizes n bs := by
  rcases Nat.le_total (8 * n) bs.length with hle | hle
  · conv_rhs => rw [toSizes, ← List.take_append_drop (8 * n) bs,
      groups_append (by rw [List.length_take]; omega)]
    rfl
  · rw [List.take_of_length_le hle]

theorem length_take_drop {α : Type} {xs : List α} {i k : Nat} (h : i + k ≤ xs.length) :
    ((xs.drop i).take k).length = k := by
  rw [List.length_take, List.length_drop]
  omega

/-- The number of seats of a reserve request whose first fields have arrived. -/
theorem receive_seats (v : Locals) {bs : Bytes} (h : 16 ≤ bs.length) :
    (v.receive 4 bs).seats = (toSize ((bs.drop 8).take 8)).toNat := by
  rw [Locals.seats, Locals.receive, overwrite_of_length _ (length_take_drop h)]

/-- A complete request is read as it is. -/
theorem receive_complete (v : Locals) {op_code : UInt8} {bs : Bytes}
    (hseats : op_code = 4 → (v.receive 4 bs).seats ≤ MAX_RESERVATION_SIZE)
    (hlen : (v.receive op_code bs).operandSize op_code ≤ bs.length) :
    ∃ call, completeRequest op_code bs =
        some (call, (v.receive op_code bs).operandSize op_code) ∧
      ((v.receive op_code bs).call op_code).map Call.cut = call.map Call.cut := by
  unfold completeRequest
  split
  · have hlen : 24 ≤ bs.length := hlen
    refine ⟨_, if_pos hlen, ?_⟩
    simp only [Locals.call, Locals.receive]
    rw [overwrite_of_length _ (length_take_drop (by omega)),
      overwrite_of_length _ (length_take_drop (by omega)),
      overwrite_of_length _ (length_take_drop (by omega))]
  · have hlen : 16 + 16 * (v.receive 4 bs).seats ≤ bs.length := hlen
    have hn := hseats rfl
    have hnum := receive_seats v (show 16 ≤ bs.length by omega)
    rw [hnum] at hlen hn
    refine ⟨_, by rw [if_pos ⟨by omega, hlen⟩, Locals.operandSize, hnum], ?_⟩
    simp only [Locals.call, Locals.receive, Option.map_some, Call.cut, SeatArgs.cut]
    rw [overwrite_of_length _ (length_take_drop (by omega)),
      overwrite_of_length _ (length_take_drop (by omega)),
      take_toSizes_overwrite _ hn (by rw [List.length_take, List.length_drop]; omega),
      take_toSizes_overwrite _ hn (by rw [List.length_take, List.length_drop]; omega),
      toSizes_take, toSizes_take,
      List.take_of_length_le (length_toSizes _ _).le, List.take_of_length_le (length_toSizes _ _).le]
  · have hlen : 8 ≤ bs.length := hlen
    refine ⟨_, if_pos hlen, ?_⟩
    simp only [Locals.call, Locals.receive]
    rw [overwrite_of_length _ (length_take_drop (by omega))]
  · have hlen : 4 ≤ bs.length := hlen
    exact ⟨_, if_pos hlen, rfl⟩
  · next h3 h4 h5 h6 =>
    obtain ⟨hsize, hsame, hcall⟩ := v.other h3 h4 h5 h6 bs
    exact ⟨none, by rw [hsame, hsize], by rw [hsame, hcall]⟩

/-- An incomplete request is not among the complete ones. -/
theorem receive_incomplete (v : Locals) {op_code : UInt8} {bs : Bytes}
    (hlen : bs.length < (v.receive op_code bs).operandSize op_code) :
    completeRequest op_code bs = none := by
  unfold completeRequest
  split
  · have hlen : bs.length < 24 := hlen
    exact if_neg (by omega)
  · have hlen : bs.length < 16 + 16 * (v.receive 4 bs).seats := hlen
    refine if_neg fun ⟨h16, hall⟩ => ?_
    rw [receive_seats v h16] at hlen
    omega
  · have hlen : bs.length < 8 := hlen
    exact if_neg (by omega)
  · have hlen : bs.length < 4 := hlen
    exact if_neg (by omega)
  · next h3 h4 h5 h6 =>
    obtain ⟨hsize, hsame, -⟩ := v.other h3 h4 h5 h6 bs
    rw [hsame, hsize] at hlen
    omega

/-- The requests that the loop reads are the complete ones and at most one more. -/
theorem received_split : ∀ (v : Locals) (k : Nat) (bs : Bytes), bs.length ≤ k →
    SeatsFit (received v 0 bs) →
    ∃ done last, received v 0 bs = done ++ last ∧ (∀ r ∈ done, r.complete = true) ∧
      (∀ r ∈ last, r.complete = false) ∧ last.length ≤ 1 ∧
      (done.map Received.call).map (Option.map Call.cut) =
        (completeRequests 0 bs).map (Option.map Call.cut)
  | v, _, [], _, _ => ⟨[], [], by simp [received], by simp, by simp, by simp, by simp [completeRequests]⟩
  | v, 0, _ :: _, hk, _ => by simp at hk
  | v, k + 1, op_code :: bs, hk, hfit => by
      by_cases hop : op_code = 2
      · exact ⟨[], [], by simp [received, hop], by simp, by simp, by simp,
          by simp [completeRequests, hop]⟩
      rw [received_cons v hop] at hfit ⊢
      have hseats : op_code = 4 → (v.receive 4 bs).seats ≤ MAX_RESERVATION_SIZE := fun h4 => by
        subst h4
        have hle := hfit _ (List.mem_cons_self ..) rfl
        exact hle
      rw [List.length_cons] at hk
      by_cases hlen : (v.receive op_code bs).operandSize op_code ≤ bs.length
      · obtain ⟨call, hcall, hcut⟩ := receive_complete v hseats hlen
        obtain ⟨done, last, hsplit, hdone, hlast, hone, hcalls⟩ := received_split
          (v.receive op_code bs) k (bs.drop ((v.receive op_code bs).operandSize op_code))
          (by rw [List.length_drop]; omega) fun r hr => hfit r (List.mem_cons_of_mem _ hr)
        refine ⟨_ :: done, last, by rw [hsplit, List.cons_append], ?_, hlast, hone, ?_⟩
        · rintro r (_ | ⟨_, hr⟩)
          · exact decide_eq_true hlen
          · exact hdone r hr
        · rw [completeRequests, if_neg hop]
          simp only [hcall, List.map_cons]
          rw [completeRequests_drop, ← hcalls, ← hcut]
          rfl
      · have hnone := receive_incomplete v (Nat.lt_of_not_le hlen)
        rw [List.drop_eq_nil_of_le (by omega), received]
        refine ⟨[], [_], rfl, by simp, ?_, by simp, ?_⟩
        · rintro r (_ | ⟨_, hr⟩)
          · exact decide_eq_false hlen
          · cases hr
        · rw [completeRequests, if_neg hop]
          simp [hnone]

/-! ## Calls in sequence -/

theorem Call.op_cut (env : Env) (c : Call) : c.cut.op env = c.op env := by
  cases c with
  | emsReserve id args => exact emsReserve_take env id args.num_seats args.xs args.ys
  | _ => rfl

theorem Call.cut_cut (c : Call) : c.cut.cut = c.cut := by
  cases c <;> simp [Call.cut, SeatArgs.cut, List.take_take]

/-- Only the seats that a call lists matter. -/
theorem Serve.perform_cut (c : Option Call) :
    Serve.perform (c.map Call.cut) = Serve.perform c := by
  have hexecute : ∀ c : Call, execute c.cut = execute c := fun c => by
    simp only [execute, Call.op_cut, Call.cut_cut]
  cases c with
  | none => rfl
  | some c =>
    cases c with
    | emsReserve id args =>
      exact congrArg (· >>= respondResult) (hexecute (.emsReserve id args))
    | _ => rfl

theorem Serve.performAll_cut : ∀ cs : List (Option Call),
    Serve.performAll (cs.map (Option.map Call.cut)) = Serve.performAll cs
  | [] => rfl
  | c :: cs => by
      rw [List.map_cons, performAll, performAll, perform_cut, performAll_cut cs]

theorem Serve.performAll_append : ∀ cs cs' : List (Option Call),
    Serve.performAll (cs ++ cs') = (do Serve.performAll cs; Serve.performAll cs')
  | [], cs' => rfl
  | c :: cs, cs' => by
      simp only [List.cons_append, performAll, performAll_append cs cs', bind_assoc]

/-! ## What the store accepts -/

/-- The store takes the call on, with these outcomes of its locks and allocations. -/
def Accepted (es : List Entry) (env : Env) : Option Call → Prop
  | some (.emsCreate id _ _) =>
    findId es id = none ∧ env.lockList = true ∧ env.allocates = true
  | some (.emsReserve id args) =>
    env.reserves = true ∧ ∃ e, findId es id = some e ∧ Accepts e args.seats
  | _ => False

/-- The arrays of a reserve call hold the seats it lists. -/
def ValidRequest (c : Option Call) : Prop := ∀ call, c = some call → call.Valid

section Effect

variable {l : Ptr} {es : List Entry}

theorem reserveAt_contents_ne {e : Entry} (he : e ∈ es) (seats : List Seat) :
    (reserveAt es e.event seats).map Entry.contents ≠ es.map Entry.contents := by
  intro hsame
  rw [reserveAt, List.map_map, List.map_inj_left] at hsame
  have hcount := congrArg Contents.reservations (hsame e he)
  simp only [Function.comp, if_pos, Entry.contents, Entry.reserved] at hcount
  exact absurd hcount (by simp)

theorem Serve.wp_execute {Q : Int32 → Service → Prop} {E : Stop → Prop} {c : Call} {s : Service} :
    wp (execute c) Q E s ↔ wp (c.op (s.envs.headD {})) (fun ret w => Q ret
      { world := w, envs := s.envs.tail, calls := s.calls ++ [c.cut],
        results := s.results ++ [ret] }) E s.world := by
  simp only [execute, wp_bind, wp_get, wp_set, wp_lift, wp_modify, wp_pure]

/-- Sending a result leaves the store alone. -/
theorem Serve.wp_respondResult_mem {E : Stop → Prop} (result : Int32) (s : Service) :
    wp (respondResult result) (fun _ s' => s'.world.mem = s.world.mem) E s := by
  simp only [respondResult, wp_bind, wp_lift]
  refine wp_mono (wp_write _) (fun ok w hw => ?_) fun _ he => he
  cases ok with
  | false => exact hw.1
  | true => exact hw.1

/-- Serving a call changes the store as the call does. -/
theorem Serve.wp_perform_mem {P : Mem → Prop} {E : Stop → Prop} {c : Call} {s : Service}
    (h : wp (c.op (s.envs.headD {})) (fun _ w => P w.mem) E s.world) :
    wp (perform (some c)) (fun _ s' => P s'.world.mem) E s := by
  have hanswer : wp (answer c) (fun _ s' => P s'.world.mem) E s := by
    rw [answer, wp_bind, wp_execute]
    refine wp_mono h (fun ret w hw => ?_) fun _ he => he
    exact wp_mono (wp_respondResult_mem ret _) (fun _ s' hs' => hs' ▸ hw) fun _ he => he
  cases c with
  | emsCreate => exact hanswer
  | emsReserve => exact hanswer
  | emsShow => exact (wp_map _ _).2 (wp_execute.2 h)
  | emsListEvents => exact (wp_map _ _).2 (wp_execute.2 h)

/-- A call changes what the store contains, or faults, exactly when the store accepts it. -/
theorem wp_op_contents {w : World} (h : Rep w.mem l es) (env : Env) {c : Call} (hvalid : c.Valid) :
    wp (c.op env) (fun _ w' => ∃ es', Rep w'.mem l es' ∧
        (es'.map Entry.contents = es.map Entry.contents ↔ ¬ Accepted es env (some c)))
      (fun _ => Accepted es env (some c)) w := by
  cases c with
  | emsCreate id rows cols =>
    refine wp_mono (wp_emsCreate h rows cols) (fun _ w' hw => ?_) fun _ he => he
    obtain ⟨-, ⟨-, hrep, hno⟩ | ⟨-, hnew, hlock, halloc, hrep⟩⟩ := hw
    · refine ⟨es, hrep, iff_of_true rfl ?_⟩
      rintro ⟨hnew, hlock, halloc⟩
      simp [hnew, hlock, halloc] at hno
    · refine ⟨_, hrep, iff_of_false (fun hsame => ?_) (not_not_intro ⟨hnew, hlock, halloc⟩)⟩
      simpa using congrArg List.length hsame
  | emsReserve id args =>
    have hlen := SeatArgs.Within.length_le hvalid
    refine wp_mono (wp_emsReserve h hlen fun e hfind _ hacc => ⟨hacc.1, e, hfind, hacc.2⟩)
      (fun _ w' hw => ?_) fun _ he => he
    obtain ⟨-, ⟨-, hm, hno⟩ | ⟨-, hok, e, hfind, hacc, hm, -⟩⟩ := hw
    · exact ⟨es, hm ▸ h, iff_of_true rfl fun ⟨hok, e, hfind, hacc⟩ => hno hok e hfind hacc⟩
    · obtain ⟨he, -⟩ := findId_eq_some hfind
      exact ⟨_, hm ▸ h.reserve he _, iff_of_false (reserveAt_contents_ne he _)
        (not_not_intro ⟨hok, e, hfind, hacc⟩)⟩
  | emsShow id =>
    refine wp_mono (wp_emsShow h id) (fun _ w' hw => ?_) fun _ he => he
    exact ⟨es, hw.mem ▸ h, by simp [Accepted]⟩
  | emsListEvents =>
    refine wp_mono (wp_emsListEvents h) (fun _ w' hw => ?_) fun _ he => he
    exact ⟨es, hw.mem ▸ h, by simp [Accepted]⟩

/-- So does serving a request. -/
theorem wp_perform_contents {s : Service} (h : Rep s.world.mem l es) {c : Option Call}
    (hvalid : ValidRequest c) :
    wp (Serve.perform c) (fun _ s' => ∃ es', Rep s'.world.mem l es' ∧
        (es'.map Entry.contents = es.map Entry.contents ↔ ¬ Accepted es (s.envs.headD {}) c))
      (fun _ => Accepted es (s.envs.headD {}) c) s := by
  cases c with
  | none => exact ⟨es, h, by simp [Accepted]⟩
  | some c =>
    exact Serve.wp_perform_mem (P := fun m => ∃ es', Rep m l es' ∧
      (es'.map Entry.contents = es.map Entry.contents ↔ ¬ Accepted es (s.envs.headD {}) (some c)))
      (wp_op_contents h _ (hvalid c rfl))

/-- Serving a request leaves the contents as they are exactly when the store does not accept it. -/
theorem perform_contents_iff {s : Service} (h : Rep s.world.mem l es) {c : Option Call}
    (hvalid : ValidRequest c) :
    ((Serve.perform c).run s).map (fun r => r.2.world.mem.contents) =
      .ok s.world.mem.contents ↔ ¬ Accepted es (s.envs.headD {}) c := by
  have hwp := wp_perform_contents h hvalid
  unfold wp at hwp
  split at hwp
  · next s' hrun =>
    obtain ⟨es', h', hiff⟩ := hwp
    rw [hrun, ← hiff, ← h.contents, ← h'.contents]
    exact ⟨fun heq => Except.ok.inj heq, fun heq => congrArg Except.ok heq⟩
  · next e hrun =>
    rw [hrun]
    exact iff_of_false (fun heq => nomatch heq) (not_not_intro hwp)

/-- Serving requests keeps the representation. -/
theorem wp_performAll_rep : ∀ (cs : List (Option Call)) (s : Service) (es : List Entry),
    Rep s.world.mem l es → (∀ c ∈ cs, ValidRequest c) →
    wp (Serve.performAll cs) (fun _ s' => ∃ es', Rep s'.world.mem l es') (fun _ => True) s
  | [], _, es, h, _ => ⟨es, h⟩
  | c :: cs, s, es, h, hvalid => by
      rw [Serve.performAll, wp_bind]
      refine wp_mono (wp_perform_contents h (hvalid c (List.mem_cons_self ..)))
        (fun _ s' hs' => ?_) fun _ _ => trivial
      obtain ⟨es', h', -⟩ := hs'
      exact wp_performAll_rep cs s' es' h' fun c hc => hvalid c (List.mem_cons_of_mem _ hc)

end Effect

/-- The calls that the loop makes have room for their seats. -/
theorem SeatsFit.valid {rs : List Received} (h : SeatsFit rs) {r : Received} (hr : r ∈ rs) :
    ValidRequest r.call := by
  intro call hcall
  unfold Received.call Locals.call at hcall
  split at hcall
  · next h4 =>
    cases hcall
    exact trivial
  · next h4 =>
    cases hcall
    have hn := h r hr h4
    constructor <;>
    · rw [length_toSizes]
      exact hn
  · cases hcall
    exact trivial
  · cases hcall
    exact trivial
  · cases hcall

/-! ## Sessions -/

/-- The service of a session after `handle_client` has sent the session id. -/
def Session.started (s : Session) : Service :=
  { s.service with world := { s.service.world with
      fd := (myWrite s.service.world.fd s.locals.session_id.bytes).2 } }

/-- Could the session id be sent? -/
def Session.starts (s : Session) : Prop :=
  (myWrite s.service.world.fd s.locals.session_id.bytes).1 ≠ -1

instance (s : Session) : Decidable s.starts := inferInstanceAs (Decidable (_ ≠ _))

/-- A session that starts serves what its loop reads. -/
theorem wp_handleClient {s : Session} (hstart : s.starts) (hcalm : Calm s.request_pipe.turns)
    (heof : s.request_pipe.eof = true)
    (hfit : SeatsFit (received s.locals 0 s.request_pipe.bytes)) {E : Stop → Prop}
    {Q : Service → Prop}
    (h : wp (Serve.performAll ((received s.locals 0 s.request_pipe.bytes).map Received.call))
      (fun _ service => Q service) E s.started) :
    wp (handleClient {}) (fun _ s' => Q s'.service) E s := by
  have hloop := wp_handleLoop (s.request_pipe.bytes.length + 1) { s with
    service := s.started
    descriptors := s.descriptors ++ [.server] ++ [.request] ++ [.response] }
    hcalm heof (Nat.lt_succ_self _) hfit h
  have hsent : ((myWrite s.service.world.fd s.locals.session_id.bytes).1 ≠ -1) = True :=
    eq_true hstart
  simp only [handleClient, openSession, Bool.not_true, Bool.false_eq_true, if_false, if_true, wp_bind,
    wp_openPipe, wp_get, wp_onService, wp_lift, write, wp_set, wp_pure, hsent, decide_true]
  exact wp_mono hloop (fun _ s' hs' => hs'.2.2.2) fun _ he => he

/-- What the store contains after `handle_client` returns, or the fault it stops with. -/
def storeAfter (s : Session) : Except Stop (List Contents) :=
  ((handleClient {}).run s).map fun r => r.2.service.world.mem.contents

/-- What the store contains after the complete requests, or the fault they stop with. -/
def storeAfterComplete (s : Session) : Except Stop (List Contents) :=
  ((Serve.performAll (completeRequests 0 s.request_pipe.bytes)).run s.started).map
    fun r => r.2.world.mem.contents

/-- When the complete requests have been served, the store accepts no request that the stream
    ends in. -/
def NoLeftovers (l : Ptr) (s : Session) : Prop :=
  ∀ r ∈ received s.locals 0 s.request_pipe.bytes, r.complete = false → ∀ service es,
    (Serve.performAll (completeRequests 0 s.request_pipe.bytes)).run s.started =
      .ok ((), service) → Rep service.world.mem l es →
    ¬ Accepted es (service.envs.headD {}) r.call

/-- The calls that are made are the complete requests and the one that the stream ends in, if it
    ends in one. -/
theorem storeAfter_eq {s : Session} (hstart : s.starts) (hcalm : Calm s.request_pipe.turns)
    (heof : s.request_pipe.eof = true)
    (hfit : SeatsFit (received s.locals 0 s.request_pipe.bytes)) :
    storeAfter s = ((Serve.performAll ((received s.locals 0 s.request_pipe.bytes).map
      Received.call)).run s.started).map fun r => r.2.world.mem.contents := by
  have hclient := fun {E : Stop → Prop} {Q : Service → Prop} =>
    wp_handleClient (E := E) (Q := Q) hstart hcalm heof hfit
  unfold storeAfter
  cases hrun : (Serve.performAll ((received s.locals 0 s.request_pipe.bytes).map
      Received.call)).run s.started with
  | ok r =>
    obtain ⟨_, service⟩ := r
    obtain ⟨_, s', hrun', hs'⟩ := run_of_wp
      (hclient (Q := (· = service)) ((wp_of_run_ok hrun).2 rfl))
    rw [hrun']
    exact congrArg (fun service => Except.ok service.world.mem.contents) hs'
  | error e =>
    obtain ⟨e', hrun', rfl⟩ := run_error_of_wp
      (hclient (Q := fun _ => False) (E := (· = e)) ((wp_of_run_error hrun).2 rfl))
    rw [hrun']
    rfl

variable {l : Ptr} {es : List Entry}

/-- **The store follows the complete requests** exactly when it accepts no request that the
    stream ends in, as long as no request announces more seats than the arrays hold. -/
theorem store_follows_iff {s : Session} (h : Rep s.service.world.mem l es) (hstart : s.starts)
    (hcalm : Calm s.request_pipe.turns) (heof : s.request_pipe.eof = true)
    (hfit : SeatsFit (received s.locals 0 s.request_pipe.bytes)) :
    storeAfter s = storeAfterComplete s ↔ NoLeftovers l s := by
  obtain ⟨done, last, hsplit, hdone, hlast, hone, hcalls⟩ := received_split s.locals _
    s.request_pipe.bytes (Nat.le_refl _) hfit
  have hcomplete : Serve.performAll (completeRequests 0 s.request_pipe.bytes) =
      Serve.performAll (done.map Received.call) := by
    rw [← Serve.performAll_cut (completeRequests ..), ← hcalls, Serve.performAll_cut]
  have hvalid : ∀ r ∈ done ++ last, ValidRequest r.call := fun r hr =>
    hfit.valid (hsplit ▸ hr)
  rw [storeAfter_eq hstart hcalm heof hfit, storeAfterComplete, NoLeftovers, hcomplete, hsplit,
    List.map_append, Serve.performAll_append, StateT.run_bind]
  cases hrun : (Serve.performAll (done.map Received.call)).run s.started with
  | error e => exact iff_of_true rfl fun r _ _ service es' hok => nomatch hok
  | ok r =>
    obtain ⟨_, service⟩ := r
    obtain ⟨es', h'⟩ := wp_run_ok (wp_performAll_rep (done.map Received.call) s.started es h
      (List.forall_mem_map.2 fun r hr => hvalid r (List.mem_append_left _ hr))) hrun
    match last, hone with
    | [], _ =>
      refine iff_of_true rfl fun r hr hinc => ?_
      rw [List.append_nil] at hr
      simp [hdone r hr] at hinc
    | [r], _ =>
      have hr : r ∈ done ++ [r] := List.mem_append_right _ (List.mem_singleton_self r)
      have hone : Serve.performAll [r.call] = Serve.perform r.call := by simp [Serve.performAll]
      rw [List.map_singleton, hone]
      constructor
      · rintro hsame r' hr' hinc service' es'' hok h''
        obtain rfl : service' = service := by injection hok with hok; exact (Prod.ext_iff.1 hok).2.symm
        obtain hr' | hr' := List.mem_append.1 hr'
        · simp [hdone r' hr'] at hinc
        · obtain rfl := List.mem_singleton.1 hr'
          exact (perform_contents_iff h'' (hvalid r' hr)).1 hsame
      · intro hno
        exact (perform_contents_iff h' (hvalid r hr)).2
          (hno r hr (hlast r (List.mem_singleton_self r)) service es' rfl h')

/-! ### A client that dies -/

def zeroLocals : Locals := ⟨.zero _, .zero _, .zero _, .zero _, .zero _, .zero _, .zero _⟩

/-- A client creates event 1 with two rows of two seats, and dies after sending the id of
    event 2. -/
def cutBytes : Bytes :=
  [3] ++ intBytes 0 ++ uintBytes 1 ++ sizeBytes 2 ++ sizeBytes 2 ++
    [3] ++ intBytes 0 ++ uintBytes 2

def cutSession : Session where
  service := { world := { mem := freshMem } }
  request_pipe := { bytes := cutBytes }
  locals := zeroLocals

theorem store_follows_iff_cut :
    storeAfter cutSession = storeAfterComplete cutSession ↔ NoLeftovers 0 cutSession :=
  store_follows_iff rep_freshMem (by decide +kernel) calm_nil rfl (by decide +kernel)

/-- Event 2 is created with the size of event 1. -/
theorem leftover_create : Rep cutSession.service.world.mem 0 [] ∧ cutSession.starts ∧
    cutSession.request_pipe.turns = [] ∧ cutSession.request_pipe.eof = true ∧
    storeAfterComplete cutSession = .ok [⟨1, 0, 2, 2, [0, 0, 0, 0]⟩] ∧
    storeAfter cutSession = .ok [⟨1, 0, 2, 2, [0, 0, 0, 0]⟩, ⟨2, 0, 2, 2, [0, 0, 0, 0]⟩] :=
  ⟨rep_freshMem, by decide +kernel, rfl, rfl, by decide +kernel, by decide +kernel⟩

end EventServer
