import EventServer.Server.Session

/-
  What `handle_client` makes of the bytes on its request pipe.

  `Locals.receive` is the effect of a request's bytes on the variables, however many of them
  have arrived. `wp_handleNext`: on a pipe without signals and errors, one round of the loop
  reads the next op code and its operands, as far as they are there, and serves the request
  with the operands as the variables then hold them; so a request that is cut off is served
  all the same. `wp_handleLoop` adds the rounds up.
-/

namespace EventServer

open Lib Handler

/-! ## Reading into the variables -/

/-- The number of seats a reserve request announces, as the variable holds it. -/
def Locals.seats (v : Locals) : Nat := (toSize v.num_seats.bytes).toNat

/-- The variables after the operands of a request have been read from `bs`, which may end
    early. -/
def Locals.receive (v : Locals) (op_code : UInt8) (bs : Bytes) : Locals :=
  match op_code with
  | 3 => { v with
      session_id := v.session_id.overwrite (bs.take 4)
      event_id := v.event_id.overwrite ((bs.drop 4).take 4)
      num_rows := v.num_rows.overwrite ((bs.drop 8).take 8)
      num_cols := v.num_cols.overwrite ((bs.drop 16).take 8) }
  | 4 =>
    let num_seats := v.num_seats.overwrite ((bs.drop 8).take 8)
    let size := 8 * (toSize num_seats.bytes).toNat
    { v with
      session_id := v.session_id.overwrite (bs.take 4)
      event_id := v.event_id.overwrite ((bs.drop 4).take 4)
      num_seats := num_seats
      xs := v.xs.overwrite ((bs.drop 16).take size)
      ys := v.ys.overwrite ((bs.drop (16 + size)).take size) }
  | 5 => { v with
      session_id := v.session_id.overwrite (bs.take 4)
      event_id := v.event_id.overwrite ((bs.drop 4).take 4) }
  | 6 => { v with session_id := v.session_id.overwrite (bs.take 4) }
  | _ => v

/-- The number of operand bytes of a request; the variables hold its number of seats. -/
def Locals.operandSize (v : Locals) (op_code : UInt8) : Nat :=
  match op_code with
  | 3 => 24
  | 4 => 16 + 16 * v.seats
  | 5 => 8
  | 6 => 4
  | _ => 0

/-- An op code that no request has is read without operands. -/
theorem Locals.other (v : Locals) {op_code : UInt8} (h3 : op_code ≠ 3) (h4 : op_code ≠ 4)
    (h5 : op_code ≠ 5) (h6 : op_code ≠ 6) (bs : Bytes) :
    v.operandSize op_code = 0 ∧ v.receive op_code bs = v ∧ v.call op_code = none := by
  unfold Locals.operandSize Locals.receive Locals.call
  refine ⟨?_, ?_, ?_⟩ <;> split <;> first | exact absurd rfl ‹_› | rfl

section Rules

variable {α : Type} {E : Stop → Prop} {s : Session}

/-- Reading into a variable when the bytes are there, or the stream ends. Only when more bytes come
    than the variable holds does storing them fault. -/
theorem wp_readInto_unsignalled {n : Nat} {var : Locals → Buffer n}
    {put : Locals → Buffer n → Locals} {size : UInt64} {k : Nat} {T : List Turn}
    {Q : Int → Session → Prop} (hT : Unsignalled T) (hc : s.request_pipe.turns <:+ T)
    (hk : (ssize size).toNat = k)
    (hready : k ≤ s.request_pipe.bytes.length ∨ s.request_pipe.eof = true)
    (hE : n < (s.request_pipe.bytes.take k).length → E .outOfBounds)
    (hfail : .fail ∈ T → ∀ r locals, Q (-1) { s with request_pipe := r, locals := locals })
    (h : (s.request_pipe.bytes.take k).length ≤ n → ∀ ts, ts <:+ T → ∀ ret, 0 ≤ ret → Q ret { s with
      request_pipe := { s.request_pipe with bytes := s.request_pipe.bytes.drop k, turns := ts }
      locals := put s.locals ((var s.locals).overwrite (s.request_pipe.bytes.take k)) }) :
    wp (readInto var put size) Q E s := by
  obtain ⟨ts, hts, hread | ⟨hm, k', hk', hread⟩⟩ := myRead_unsignalled (hT.suffix hc) size
  · rw [hk, if_pos hready] at hread
    simp only [readInto, wp_bind, wp_get, hread, wp_ite, wp_throw, wp_set, wp_pure]
    exact ⟨hE, fun hfits => h (Nat.not_lt.1 hfits) ts (hts.trans hc) _ (Int.natCast_nonneg _)⟩
  · simp only [readInto, wp_bind, wp_get, hread, wp_ite, wp_throw, wp_set, wp_pure]
    refine ⟨fun hlong => hE (Nat.lt_of_lt_of_le hlong ?_), fun _ => hfail (hc.mem hm) _ _⟩
    rw [List.length_take, List.length_take]
    omega

theorem wp_readInto {n : Nat} {var : Locals → Buffer n} {put : Locals → Buffer n → Locals}
    {size : UInt64} {k : Nat} {Q : Int → Session → Prop}
    (hc : Calm s.request_pipe.turns) (hk : (ssize size).toNat = k)
    (hready : k ≤ s.request_pipe.bytes.length ∨ s.request_pipe.eof = true)
    (hE : n < (s.request_pipe.bytes.take k).length → E .outOfBounds)
    (h : (s.request_pipe.bytes.take k).length ≤ n → ∀ ts, Calm ts → ∀ ret, 0 ≤ ret → Q ret { s with
      request_pipe := { s.request_pipe with bytes := s.request_pipe.bytes.drop k, turns := ts }
      locals := put s.locals ((var s.locals).overwrite (s.request_pipe.bytes.take k)) }) :
    wp (readInto var put size) Q E s :=
  wp_readInto_unsignalled hc.unsignalled (List.suffix_refl _) hk hready hE
    (fun hm => absurd hm hc.not_fail) fun hfits ts hts => h hfits ts (hc.suffix hts)

theorem wp_readOr_any {n : Nat} {var : Locals → Buffer n} {put : Locals → Buffer n → Locals}
    {size : UInt64} {k : Nat} {msg : String} {next : Handler Unit} {Q : Unit → Session → Prop}
    (hc : Calm s.request_pipe.turns) (hk : (ssize size).toNat = k)
    (hready : k ≤ s.request_pipe.bytes.length ∨ s.request_pipe.eof = true)
    (hE : n < (s.request_pipe.bytes.take k).length → E .outOfBounds)
    (h : (s.request_pipe.bytes.take k).length ≤ n → ∀ ts, Calm ts → wp next Q E { s with
      request_pipe := { s.request_pipe with bytes := s.request_pipe.bytes.drop k, turns := ts }
      locals := put s.locals ((var s.locals).overwrite (s.request_pipe.bytes.take k)) }) :
    wp (readOr msg (readInto var put size) next) Q E s := by
  rw [readOr, wp_bind]
  refine wp_readInto hc hk hready hE fun hfits ts hts ret hret => (wp_ite ..).2 ⟨fun h => ?_, ?_⟩
  · omega
  · exact fun _ => h hfits ts hts

/-- What comes of a request when one of its fields cannot be read: it is answered with 1. -/
def Refused (Q : Unit → Session → Prop) (E : Stop → Prop) (s : Session) : Prop :=
  ∀ stderr r locals, wp (Serve.respondResult 1)
    (fun _ service => Q () { s with service := service, request_pipe := r, locals := locals }) E
    { s.service with world := { s.service.world with stderr := stderr } }

theorem wp_readOr {n : Nat} {var : Locals → Buffer n} {put : Locals → Buffer n → Locals}
    {size : UInt64} {k : Nat} {T : List Turn} {msg : String} {next : Handler Unit}
    {Q : Unit → Session → Prop} (hT : Unsignalled T) (hfail : .fail ∈ T → Refused Q E s)
    (hc : s.request_pipe.turns <:+ T) (hk : (ssize size).toNat = k) (hn : k ≤ n)
    (hready : k ≤ s.request_pipe.bytes.length ∨ s.request_pipe.eof = true)
    (h : ∀ ts, ts <:+ T → wp next Q E { s with
      request_pipe := { s.request_pipe with bytes := s.request_pipe.bytes.drop k, turns := ts }
      locals := put s.locals ((var s.locals).overwrite (s.request_pipe.bytes.take k)) }) :
    wp (readOr msg (readInto var put size) next) Q E s := by
  rw [readOr, wp_bind]
  refine wp_readInto_unsignalled hT hc hk hready (fun hlt => ?_) (fun hm r locals => ?_)
    fun _ ts hts ret hret => (wp_ite ..).2 ⟨fun h => ?_, fun _ => h ts hts⟩
  · rw [List.length_take] at hlt
    omega
  · simp only [if_true, Handler.printError, wp_bind, wp_onService, wp_lift, Op.wp_printError]
    exact hfail hm _ _ _
  · omega

/-- The size of the arrays is computed when they are read. -/
theorem wp_readOr_xs {msg : String} {next : Handler Unit} {Q : Unit → Session → Prop} :
    wp (readOr msg readXs next) Q E s ↔ wp (readOr msg (readInto Locals.xs
      (fun v b => { v with xs := b }) (seatsSize s.locals)) next) Q E s := by
  simp only [readOr, readXs, wp_bind, wp_get]

theorem wp_readOr_ys {msg : String} {next : Handler Unit} {Q : Unit → Session → Prop} :
    wp (readOr msg readYs next) Q E s ↔ wp (readOr msg (readInto Locals.ys
      (fun v b => { v with ys := b }) (seatsSize s.locals)) next) Q E s := by
  simp only [readOr, readYs, wp_bind, wp_get]

end Rules

/-! ## One request -/

/-- Reading the operands of a request, however much of it there is. -/
theorem wp_handleOp {s : Session} {op_code : UInt8} {T : List Turn} {E : Stop → Prop}
    {Q : Unit → Session → Prop} (hT : Unsignalled T) (hfail : .fail ∈ T → Refused Q E s)
    (hc : s.request_pipe.turns <:+ T)
    (hseats : op_code = 4 →
      (s.locals.receive 4 s.request_pipe.bytes).seats ≤ MAX_RESERVATION_SIZE)
    (hready : (s.locals.receive op_code s.request_pipe.bytes).operandSize op_code ≤
      s.request_pipe.bytes.length ∨ s.request_pipe.eof = true)
    (h : ∀ ts, ts <:+ T → wp (serve op_code) Q E { s with
      request_pipe := { s.request_pipe with
        bytes := s.request_pipe.bytes.drop
          ((s.locals.receive op_code s.request_pipe.bytes).operandSize op_code)
        turns := ts }
      locals := s.locals.receive op_code s.request_pipe.bytes }) :
    wp (handleOp op_code) Q E s := by
  have h4 : (ssize (4 : UInt64)).toNat = 4 := by decide
  have h8 : (ssize (8 : UInt64)).toNat = 8 := by decide
  unfold handleOp
  split
  · simp only [Locals.operandSize] at hready h
    refine wp_readOr hT hfail hc h4 (by omega) (hready.imp_left (by omega)) fun ts₁ hc₁ => ?_
    refine wp_readOr hT hfail hc₁ h4 (by omega) (hready.imp_left (by simp; omega)) fun ts₂ hc₂ => ?_
    refine wp_readOr hT hfail hc₂ h8 (by omega) (hready.imp_left (by simp; omega)) fun ts₃ hc₃ => ?_
    refine wp_readOr hT hfail hc₃ h8 (by omega) (hready.imp_left (by simp; omega)) fun ts₄ hc₄ => ?_
    simpa [Locals.receive] using h ts₄ hc₄
  · -- the sizes of the two arrays are what the number of seats just read says
    have hn := hseats rfl
    simp only [Locals.operandSize] at hready h
    have hsize : (ssize (toSize (s.locals.num_seats.overwrite
        ((s.request_pipe.bytes.drop 8).take 8)).bytes * 8)).toNat =
        8 * (s.locals.receive 4 s.request_pipe.bytes).seats := by
      simp only [Locals.receive, Locals.seats, MAX_RESERVATION_SIZE] at hn ⊢
      have hmul : ∀ n : UInt64, n.toNat ≤ 256 → (n * 8).toNat = 8 * n.toNat := fun n hn => by
        rw [UInt64.toNat_mul, Nat.mod_eq_of_lt (by simp; omega)]
        simp
        omega
      rw [ssize_of_lt (by rw [hmul _ hn]; omega), hmul _ hn]
    refine wp_readOr hT hfail hc h4 (by omega) (hready.imp_left (by omega)) fun ts₁ hc₁ => ?_
    refine wp_readOr hT hfail hc₁ h4 (by omega) (hready.imp_left (by simp; omega)) fun ts₂ hc₂ => ?_
    refine wp_readOr hT hfail hc₂ h8 (by omega) (hready.imp_left (by simp; omega)) fun ts₃ hc₃ => ?_
    rw [wp_readOr_xs]
    refine wp_readOr hT hfail hc₃ (by simpa [seatsSize, List.drop_drop] using hsize) (by omega)
      (hready.imp_left (by simp; omega)) fun ts₄ hc₄ => ?_
    rw [wp_readOr_ys]
    refine wp_readOr hT hfail hc₄ (by simpa [seatsSize, List.drop_drop] using hsize) (by omega)
      (hready.imp_left (by simp; omega)) fun ts₅ hc₅ => ?_
    have hsum : ∀ k : Nat, 16 + 8 * k + 8 * k = 16 + 16 * k := fun k => by omega
    simpa [Locals.receive, Locals.seats, List.drop_drop, hsum] using h ts₅ hc₅
  · simp only [Locals.operandSize] at hready h
    refine wp_readOr hT hfail hc h4 (by omega) (hready.imp_left (by omega)) fun ts₁ hc₁ => ?_
    refine wp_readOr hT hfail hc₁ h4 (by omega) (hready.imp_left (by simp; omega)) fun ts₂ hc₂ => ?_
    simpa [Locals.receive] using h ts₂ hc₂
  · simp only [Locals.operandSize] at hready h
    refine wp_readOr hT hfail hc h4 (by omega) (hready.imp_left (by omega)) fun ts₁ hc₁ => ?_
    simpa [Locals.receive] using h ts₁ hc₁
  · next h3 h4' h5 h6 =>
    obtain ⟨hsize, hsame, -⟩ := s.locals.other h3 h4' h5 h6 s.request_pipe.bytes
    have := h s.request_pipe.turns hc
    rwa [hsame, hsize, List.drop_zero] at this

theorem wp_serve {s : Session} {op_code : UInt8} {E : Stop → Prop} {Q : Unit → Session → Prop} :
    wp (serve op_code) Q E s ↔ wp (Serve.perform (s.locals.call op_code))
      (fun _ service => Q () { s with service := service }) E s.service := by
  simp only [serve, wp_bind, wp_get, wp_onService]

section Next

variable {s : Session} {bs : Bytes} {E : Stop → Prop} {Q : Option Ending → Session → Prop}

/-- At the end of the stream the loop ends. -/
theorem wp_handleNext_nil (hc : Calm s.request_pipe.turns) (hbytes : s.request_pipe.bytes = [])
    (heof : s.request_pipe.eof = true)
    (h : ∀ r, Q (some .returned) { s with request_pipe := r }) : wp handleNext Q E s := by
  obtain ⟨ts, -, -, hread⟩ := myRead_calm hc 1
  simp only [handleNext, nextOpCode, wp_bind, wp_get, hread, wp_set, hbytes, heof, or_true, if_true]
  exact h _

/-- A quit request ends the loop. -/
theorem wp_handleNext_quit (hc : Calm s.request_pipe.turns)
    (hbytes : s.request_pipe.bytes = 2 :: bs)
    (h : ∀ r, Q (some .returned) { s with request_pipe := r }) : wp handleNext Q E s := by
  obtain ⟨ts, -, -, hread⟩ := myRead_calm hc 1
  have h1 : (ssize (1 : UInt64)).toNat = 1 := by decide
  simp only [handleNext, nextOpCode, wp_bind, wp_get, hread, wp_set, hbytes, h1]
  exact h _

/-- One round of the loop: the next request is served with the operands that the variables hold
    after reading what there is of it, unless a read fails. -/
theorem wp_handleNext_unsignalled {op_code : UInt8} (hc : Unsignalled s.request_pipe.turns)
    (hbytes : s.request_pipe.bytes = op_code :: bs) (hop : op_code ≠ 2)
    (hseats : op_code = 4 → (s.locals.receive 4 bs).seats ≤ MAX_RESERVATION_SIZE)
    (hready : (s.locals.receive op_code bs).operandSize op_code ≤ bs.length ∨
      s.request_pipe.eof = true)
    (hend : .fail ∈ s.request_pipe.turns →
      ∀ r, Q (some .returned) { s with request_pipe := r })
    (hfail : .fail ∈ s.request_pipe.turns → Refused (fun _ => Q none) E s)
    (h : ∀ ts, ts <:+ s.request_pipe.turns →
      wp (Serve.perform ((s.locals.receive op_code bs).call op_code))
        (fun _ service => Q none { s with
          service := service
          request_pipe := { s.request_pipe with
            bytes := bs.drop ((s.locals.receive op_code bs).operandSize op_code)
            turns := ts }
          locals := s.locals.receive op_code bs }) E s.service) :
    wp handleNext Q E s := by
  have h1 : (ssize (1 : UInt64)).toNat = 1 := by decide
  obtain ⟨ts, hts, hread | ⟨hm, k, -, hread⟩⟩ := myRead_unsignalled hc 1
  · have hret : ((min 1 (bs.length + 1) : Nat) : Int) > 0 ∧ op_code ≠ 2 := ⟨by omega, hop⟩
    simp only [handleNext, nextOpCode, wp_bind, wp_get, hread, wp_set, hbytes, h1, List.length_cons,
      Nat.le_add_left, true_or, if_true, List.take_succ_cons, List.headD_cons, wp_pure]
    rw [if_pos hret]
    simp only [hop, if_false, wp_bind, wp_pure]
    refine wp_handleOp hc hfail hts hseats hready fun ts' hts' => wp_serve.2 ?_
    exact h ts' hts'
  · simp only [handleNext, nextOpCode, wp_bind, wp_get, hread, wp_set]
    exact hend hm _

/-- One round of the loop on a calm pipe. -/
theorem wp_handleNext {op_code : UInt8} (hc : Calm s.request_pipe.turns)
    (hbytes : s.request_pipe.bytes = op_code :: bs) (hop : op_code ≠ 2)
    (hseats : op_code = 4 → (s.locals.receive 4 bs).seats ≤ MAX_RESERVATION_SIZE)
    (hready : (s.locals.receive op_code bs).operandSize op_code ≤ bs.length ∨
      s.request_pipe.eof = true)
    (h : ∀ ts, Calm ts → wp (Serve.perform ((s.locals.receive op_code bs).call op_code))
      (fun _ service => Q none { s with
        service := service
        request_pipe := { s.request_pipe with
          bytes := bs.drop ((s.locals.receive op_code bs).operandSize op_code)
          turns := ts }
        locals := s.locals.receive op_code bs }) E s.service) :
    wp handleNext Q E s :=
  wp_handleNext_unsignalled hc.unsignalled hbytes hop hseats hready
    (fun hm => absurd hm hc.not_fail) (fun hm => absurd hm hc.not_fail)
    fun ts hts => h ts (hc.suffix hts)

end Next

/-! ## Whole sessions -/

/-- A request as `handle_client` reads it. -/
structure Received where
  op_code : UInt8
  /-- The variables after its operands have been read. -/
  operands : Locals
  /-- Have all its operand bytes arrived? -/
  complete : Bool
  deriving DecidableEq, Repr

/-- The requests that the loop reads from a stream that ends, after skipping `k` bytes. -/
def received (v : Locals) : Nat → Bytes → List Received
  | _, [] => []
  | k + 1, _ :: bs => received v k bs
  | 0, op_code :: bs =>
    if op_code = 2 then []
    else
      let v' := v.receive op_code bs
      ⟨op_code, v', decide (v'.operandSize op_code ≤ bs.length)⟩ ::
        received v' (v'.operandSize op_code) bs

/-- The call that a request leads to, complete or not. -/
def Received.call (r : Received) : Option Call := r.operands.call r.op_code

/-- No reserve request announces more seats than the arrays hold. -/
def SeatsFit (rs : List Received) : Prop :=
  ∀ r ∈ rs, r.op_code = 4 → r.operands.seats ≤ MAX_RESERVATION_SIZE

instance (rs : List Received) : Decidable (SeatsFit rs) :=
  inferInstanceAs (Decidable (∀ r ∈ rs, _))

/-- Serve requests one after the other. -/
def Serve.performAll : List (Option Call) → Serve Unit
  | [] => return ()
  | c :: cs => do
    Serve.perform c
    performAll cs

theorem received_drop (v : Locals) : ∀ (k : Nat) (bs : Bytes),
    received v k bs = received v 0 (bs.drop k)
  | 0, bs => by rw [List.drop_zero]
  | k + 1, [] => by simp [received]
  | k + 1, b :: bs => by
      rw [received, received_drop v k bs, List.drop_succ_cons]

/-- The next request, and the requests after its operand bytes. -/
theorem received_cons (v : Locals) {op_code : UInt8} (hop : op_code ≠ 2) (bs : Bytes) :
    received v 0 (op_code :: bs) =
      ⟨op_code, v.receive op_code bs,
        decide ((v.receive op_code bs).operandSize op_code ≤ bs.length)⟩ ::
      received (v.receive op_code bs) 0
        (bs.drop ((v.receive op_code bs).operandSize op_code)) := by
  rw [received, if_neg hop, ← received_drop]

/-- **The loop serves what it has read**, and never comes to `remove_session`. -/
theorem wp_handleLoop {E : Stop → Prop} {Q : Service → Prop} : ∀ (fuel : Nat) (s : Session),
    Calm s.request_pipe.turns → s.request_pipe.eof = true →
    s.request_pipe.bytes.length < fuel → SeatsFit (received s.locals 0 s.request_pipe.bytes) →
    wp (Serve.performAll ((received s.locals 0 s.request_pipe.bytes).map Received.call))
      (fun _ service => Q service) E s.service →
    wp (handleLoop fuel) (fun ending s' =>
      ending = .returned ∧ s'.removed = s.removed ∧ s'.frees = s.frees ∧ Q s'.service) E s
  | 0, s, _, _, hfuel, _, _ => by omega
  | fuel + 1, s, hc, heof, hfuel, hfit, h => by
      rw [handleLoop, wp_bind]
      cases hbytes : s.request_pipe.bytes with
      | nil =>
        refine wp_handleNext_nil hc hbytes heof fun r => ?_
        rw [hbytes] at h
        exact ⟨rfl, rfl, rfl, h⟩
      | cons op_code bs =>
        by_cases hop : op_code = 2
        · subst hop
          refine wp_handleNext_quit hc hbytes fun r => ?_
          rw [hbytes, received, if_pos rfl] at h
          exact ⟨rfl, rfl, rfl, h⟩
        · rw [hbytes, received_cons _ hop] at h hfit
          simp only [List.map_cons, Serve.performAll, wp_bind] at h
          refine wp_handleNext hc hbytes hop (fun h4 => ?_) (Or.inr heof) fun ts hts => ?_
          · subst h4
            have hle := hfit _ (List.mem_cons_self ..) rfl
            exact hle
          refine wp_mono h (fun _ service hrest => ?_) fun _ he => he
          refine wp_handleLoop fuel _ hts heof ?_
            (fun r hr => hfit r (List.mem_cons_of_mem _ hr)) hrest
          have := List.length_drop (i := (s.locals.receive op_code bs).operandSize op_code)
            (l := bs)
          simp only [hbytes, List.length_cons] at hfuel ⊢
          omega

end EventServer
