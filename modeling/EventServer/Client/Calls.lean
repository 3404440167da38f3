import EventServer.Client.Display
import EventServer.Server.Truncation

/-
  One call between a client and the server, each side proved against the format between them.

  `Call.request` are the bytes of a request, `Answers` says which return codes and responses
  answer a call. `wp_issue` is the client's side: it sends the request, and given an answer it
  reads it to the last byte, prints what the answer says and returns its code. `wp_handleNext_call`
  is the server's side: one round of the loop takes the request to the last byte, makes the same
  call and sends an answer.
-/

namespace EventServer

open Lib Op

/-! ## The format -/

/-- The bytes of a request. -/
def Call.request (session_id : Int32) : Call → Bytes
  | .emsCreate event_id num_rows num_cols =>
    [3] ++ intBytes session_id ++ uintBytes event_id ++ sizeBytes num_rows ++ sizeBytes num_cols
  | .emsReserve event_id args =>
    [4] ++ intBytes session_id ++ uintBytes event_id ++ sizeBytes args.num_seats ++
      sizesBytes (args.xs.take args.num_seats.toNat) ++
      sizesBytes (args.ys.take args.num_seats.toNat)
  | .emsShow event_id => [5] ++ intBytes session_id ++ uintBytes event_id
  | .emsListEvents => [6] ++ intBytes session_id

/-- A reservation lists at most as many seats as the server has room for. -/
def Call.Small : Call → Prop
  | .emsReserve _ args => args.num_seats.toNat ≤ MAX_RESERVATION_SIZE
  | _ => True

/-- A return code and a response that answer a call on the events `es`. -/
def Answers (es : List Entry) (env : Env) : Call → Int32 × Bytes → Prop
  | .emsCreate _ _ _, ret => ret.2 = intBytes ret.1
  | .emsReserve _ _, ret => ret.2 = intBytes ret.1
  | .emsShow event_id, ret =>
    ret = if env.lockList && env.lockEvent then showReply es event_id else (1, intBytes 1)
  | .emsListEvents, ret => ret = if env.lockList then listReply es else (1, intBytes 1)

/-- What the client is to print. -/
def Call.shown (es : List Entry) (env : Env) : Call → Bytes
  | .emsCreate _ _ _ => []
  | .emsReserve _ _ => []
  | .emsShow event_id =>
    match findId es event_id with
    | none => []
    | some e => if env.lockList && env.lockEvent then e.text else []
  | .emsListEvents => if env.lockList then listText (es.map fun e => e.ev.id) else []

/-- The client's function for a call; `ems_show` takes the id as an `int`. -/
def Call.issue {σ : Type} (pipes : Client.Pipes) (respond : Client.Api σ Unit) :
    Call → Client.Api σ Int32
  | .emsCreate event_id num_rows num_cols =>
    Client.Api.emsCreate pipes respond event_id num_rows num_cols
  | .emsReserve event_id args =>
    Client.Api.emsReserve pipes respond event_id args.num_seats args.xs args.ys
  | .emsShow event_id => Client.Api.emsShow pipes respond event_id.toInt32
  | .emsListEvents => Client.Api.emsListEvents pipes respond

/-! ## The client's side -/

namespace Client

open Api

section Parts

variable {σ : Type} (pipes : Pipes)

/-- The part of a call that sends the request; `next` is the rest of the call. -/
def sendRequest (c : Call) (next : Api σ Int32) : Api σ Int32 :=
  match c with
  | .emsCreate event_id num_rows num_cols =>
    request pipes (return ()) 3 <|
    writeOr "Failed to write event_id.\n" (uintBytes event_id) <|
    writeOr "Failed to write num_rows.\n" (sizeBytes num_rows) <|
    writeOr "Failed to write num_cols.\n" (sizeBytes num_cols) next
  | .emsReserve event_id args =>
    request pipes (return ()) 4 <|
    writeOr "Failed to write event_id.\n" (uintBytes event_id) <|
    writeOr "Failed to write num_seats.\n" (sizeBytes args.num_seats) <|
    writeArrayOr "Failed to write xs.\n" args.xs (args.num_seats * 8) <|
    writeArrayOr "Failed to write ys.\n" args.ys (args.num_seats * 8) next
  | .emsShow event_id =>
    request pipes (return ()) 5 <|
    writeOr "Failed to write event_id.\n" (intBytes event_id.toInt32) next
  | .emsListEvents => request pipes (Api.printError "Failed to open request pipe.\n") 6 next

/-- The part of a call from the opening of the response pipe on. -/
def receiveResponse (respond : Api σ Unit) (c : Call) : Api σ Int32 :=
  match c with
  | .emsCreate _ _ _ =>
    response pipes respond (return ()) "Server couldn't create." (close pipes)
  | .emsReserve _ _ =>
    response pipes respond (return ()) "Server couldn't reserve." (close pipes)
  | .emsShow _ =>
    response pipes respond (return ()) "Server couldn't show." fun result =>
    readOr "Failed to read num_rows.\n" Locals.num_rows (fun v b => { v with num_rows := b })
      fun num_rows =>
    readOr "Failed to read num_cols.\n" Locals.num_cols (fun v b => { v with num_cols := b })
      fun num_cols =>
    showRows (toSize num_cols) (close pipes result) (toSize num_rows).toNat
  | .emsListEvents =>
    response pipes respond (Api.printError "Failed to open response pipe.\n")
      "Server couldn't list events." fun result =>
    if result = 2 then do
      let _ ← Api.printStr "No events\n"
      return 1
    else
      readOr "Failed to read num_events.\n" Locals.num_events
        (fun v b => { v with num_events := b }) fun num_events =>
      listLoop (toSize num_events) (writeNewlineOr (close pipes result)) (toSize num_events).toNat 0

/-- A call sends its request and receives the response. -/
theorem issue_eq (respond : Api σ Unit) (c : Call) :
    c.issue pipes respond = sendRequest pipes c (receiveResponse pipes respond c) := by
  cases c <;> rfl

end Parts

section Client

variable {σ : Type} {s : Process σ} {E : Stop → Prop} {Q : Int32 → Process σ → Prop}
  {respond : Api σ Unit} {l : Ptr} {es : List Entry} {env : Env} {m : Mem}

/-- A request starts with its op code and the session id. -/
theorem wp_request {unopened : Api σ Unit} {op_code : UInt8} {next : Api σ Int32}
    (hs : s.Reliable)
    (hnext : ∀ s₁, Progress s ([op_code] ++ intBytes s.session_id) [] [] s₁ → wp next Q E s₁) :
    wp (request {} unopened op_code next) Q E s := by
  simp only [request, Bool.not_true, Bool.false_eq_true, if_false]
  exact wp_writeOr hs.start fun s₁ h₁ => wp_writeSessionIdOr h₁ hnext

/-- Reading the result of a call: 1 ends it. -/
theorem wp_response {unopened : Api σ Unit} {refused : String} {next : Int32 → Api σ Int32}
    (hrespond : wp respond (fun _ s₁ => s₁.Reliable ∧ ∃ code rest,
      s₁.response_pipe.bytes = intBytes code ++ rest ∧
      (code = 1 → ∀ s₂, Progress s₁ [] (intBytes code) [] s₂ → Q 1 s₂) ∧
      (code ≠ 1 → ∀ s₂, Progress s₁ [] (intBytes code) [] s₂ → wp (next code) Q E s₂)) E s) :
    wp (response {} respond unopened refused next) Q E s := by
  rw [response, wp_bind]
  refine wp_mono hrespond (fun _ s₁ hs₁ => ?_) fun _ he => he
  obtain ⟨hrel, code, rest, hbytes, hone, hnext⟩ := hs₁
  simp only [Bool.not_true, Bool.false_eq_true, if_false]
  refine wp_readOr hrel.start (by decide) (length_intBytes code) hbytes fun s₂ h₂ => ?_
  rw [toInt_intBytes, wp_ite]
  exact ⟨fun h1 => wp_fail h₂ (hone h1), fun h1 => hnext h1 s₂ h₂⟩

/-- The other end has answered the call `c`, and `Q` holds of what reading the answer to its end
    gives. -/
def Answered (es : List Entry) (env : Env) (c : Call) (Q : Int32 → Process σ → Prop)
    (s : Process σ) : Prop :=
  s.Reliable ∧ ∃ ret, Answers es env c ret ∧ s.response_pipe.bytes = ret.2 ∧
    ∀ s', Progress s [] ret.2 (c.shown es env) s' → Q ret.1 s'

/-- The response to `ems_create` and `ems_reserve` is the result. -/
theorem wp_response_result {c : Call} {unopened : Api σ Unit} {refused : String}
    (hans : ∀ ret, Answers es env c ret → ret.2 = intBytes ret.1) (hshown : c.shown es env = [])
    (hrespond : wp respond (fun _ s₁ => Answered es env c Q s₁) E s) :
    wp (response {} respond unopened refused (close {})) Q E s := by
  refine wp_response (wp_mono hrespond (fun _ s₁ hs₁ => ?_) fun _ he => he)
  obtain ⟨hrel, ret, hret, hbytes, hQ⟩ := hs₁
  rw [hshown, hans ret hret] at hQ
  rw [hans ret hret] at hbytes
  exact ⟨hrel, ret.1, [], by rw [hbytes, List.append_nil], fun h1 s₂ h₂ => h1 ▸ hQ s₂ h₂,
    fun _ s₂ h₂ => hQ s₂ h₂⟩

/-- An event is shown, or the response is a failure. -/
theorem show_cases {id : UInt32} {ret : Int32 × Bytes} (h : Answers es env (.emsShow id) ret) :
    ret = (1, intBytes 1) ∧ (Call.emsShow id).shown es env = [] ∨
      ∃ e ∈ es, ret = (0, showBytes e) ∧ (Call.emsShow id).shown es env = e.text := by
  simp only [Answers, showReply] at h
  simp only [Call.shown]
  cases hfind : findId es id with
  | none => exact Or.inl ⟨by simpa [hfind] using h, rfl⟩
  | some e =>
    cases hlocks : env.lockList && env.lockEvent with
    | false => exact Or.inl ⟨by simpa [hlocks] using h, rfl⟩
    | true =>
      exact Or.inr ⟨e, (findId_eq_some hfind).1, by simpa [hlocks, hfind] using h, rfl⟩

/-- Reading and displaying an event, behind the result. -/
theorem wp_showEvent {e : Entry} (hfit : NoWrap e.ev.rows e.ev.cols)
    (hsize : e.cells.length = (e.ev.rows * e.ev.cols).toNat) {s₁ s₂ : Process σ}
    (hbytes : s₁.response_pipe.bytes = showBytes e) (h₂ : Progress s₁ [] (intBytes 0) [] s₂)
    (hQ : ∀ s', Progress s₁ [] (showBytes e) e.text s' → Q 0 s') :
    wp (readOr "Failed to read num_rows.\n" Locals.num_rows (fun v b => { v with num_rows := b })
        fun num_rows =>
      readOr "Failed to read num_cols.\n" Locals.num_cols (fun v b => { v with num_cols := b })
        fun num_cols =>
      showRows (toSize num_cols) (close {} 0) (toSize num_rows).toNat) Q E s₂ := by
  have hgrid := e.gridText_eq hfit hsize e.ev.rows.toNat 0 (by omega)
  rw [Nat.zero_mul, List.drop_zero] at hgrid
  refine wp_readOr h₂ (by decide) (length_sizeBytes e.ev.rows) hbytes fun s₃ h₃ => ?_
  have hcells : s₁.response_pipe.bytes = intBytes 0 ++ sizeBytes e.ev.rows ++
      (sizeBytes e.ev.cols ++ cellsBytes e.cells) := by rw [hbytes]; simp [showBytes]
  refine wp_readOr h₃ (by decide) (length_sizeBytes e.ev.cols) hcells fun s₄ h₄ => ?_
  rw [toSize_sizeBytes, toSize_sizeBytes]
  refine wp_showRows e.ev.rows.toNat e.cells [] (by rw [hsize, size_toNat hfit]) h₄
    (by rw [hbytes]; simp [showBytes]) fun s₅ h₅ => hQ s₅ ?_
  rw [hgrid] at h₅
  simpa [showBytes, Entry.text] using h₅

/-- The response to `ems_show`. -/
theorem wp_response_show (hrep : Rep m l es) (hes : Fitting es) {id : UInt32}
    (hrespond : wp respond (fun _ s₁ => Answered es env (.emsShow id) Q s₁) E s) :
    wp (response {} respond (return ()) "Server couldn't show." fun result =>
      readOr "Failed to read num_rows.\n" Locals.num_rows (fun v b => { v with num_rows := b })
        fun num_rows =>
      readOr "Failed to read num_cols.\n" Locals.num_cols (fun v b => { v with num_cols := b })
        fun num_cols =>
      showRows (toSize num_cols) (close {} result) (toSize num_rows).toNat) Q E s := by
  refine wp_response (wp_mono hrespond (fun _ s₁ hs₁ => ?_) fun _ he => he)
  obtain ⟨hrel, ret, hret, hbytes, hQ⟩ := hs₁
  obtain ⟨rfl, hshown⟩ | ⟨e, he, rfl, hshown⟩ := show_cases hret
  · rw [hshown] at hQ
    exact ⟨hrel, 1, [], by rw [hbytes, List.append_nil], fun _ => hQ, fun h1 => absurd rfl h1⟩
  · rw [hshown] at hQ
    exact ⟨hrel, 0, _, hbytes, fun h1 => absurd h1 (by decide), fun _ s₂ h₂ =>
      wp_showEvent (hes e he) (hrep.size e he) hbytes h₂ hQ⟩

/-- Ids are distinct 32-bit numbers. -/
theorem length_lt_of_rep (hrep : Rep m l es) : es.length < 2 ^ 64 := by
  have hnodup : (es.map fun e => e.ev.id.toNat).Nodup := by
    have := hrep.ids.map (f := UInt32.toNat) fun a b h => UInt32.toNat_inj.1 h
    rwa [List.map_map] at this
  have hsub : (es.map fun e => e.ev.id.toNat) ⊆ List.range (2 ^ 32) := fun n hn => by
    obtain ⟨e, -, rfl⟩ := List.mem_map.1 hn
    exact List.mem_range.2 e.ev.id.toNat_lt
  have hle := (List.subperm_of_subset hnodup hsub).length_le
  rw [List.length_map, List.length_range] at hle
  omega

/-- The response to `ems_list_events`. -/
theorem wp_response_list (hrep : Rep m l es)
    (hrespond : wp respond (fun _ s₁ => Answered es env .emsListEvents Q s₁) E s) :
    wp (response {} respond (printError "Failed to open response pipe.\n")
      "Server couldn't list events." fun result =>
      if result = 2 then do
        let _ ← Api.printStr "No events\n"
        return 1
      else
        readOr "Failed to read num_events.\n" Locals.num_events
          (fun v b => { v with num_events := b }) fun num_events =>
        listLoop (toSize num_events) (writeNewlineOr (close {} result)) (toSize num_events).toNat 0)
      Q E s := by
  refine wp_response (wp_mono hrespond (fun _ s₁ hs₁ => ?_) fun _ he => he)
  obtain ⟨hrel, ret, hret, hbytes, hQ⟩ := hs₁
  simp only [Answers, Call.shown] at hret hQ
  cases hlock : env.lockList with
  | false =>
    simp only [hlock, Bool.false_eq_true, if_false] at hret hQ
    subst hret
    exact ⟨hrel, 1, [], by rw [hbytes, List.append_nil], fun _ => hQ, fun h1 => absurd rfl h1⟩
  | true =>
    simp only [hlock, if_true] at hret hQ
    subst hret
    cases es with
    | nil =>
      refine ⟨hrel, 2, [], by rw [hbytes, List.append_nil]; rfl,
        fun h1 => absurd h1 (by decide), fun _ s₂ h₂ => ?_⟩
      rw [if_pos rfl, wp_bind]
      refine wp_printStr h₂ fun s₃ h₃ => ?_
      exact hQ s₃ (by simpa [listReply, listing, listText] using h₃)
    | cons e es =>
      have hlen := length_lt_of_rep hrep
      have hcount : (UInt64.ofNat (es.length + 1)).toNat = es.length + 1 := by
        rw [UInt64.toNat_ofNat', Nat.mod_eq_of_lt (by simpa using hlen)]
      have hreply : listReply (e :: es) = (0, intBytes 0 ++ (sizeBytes (.ofNat (es.length + 1)) ++
          cellsBytes (e.ev.id :: es.map fun e => e.ev.id))) := by simp [listReply, listing]
      generalize UInt64.ofNat (es.length + 1) = num_events at hcount hreply
      rw [hreply] at hbytes hQ
      refine ⟨hrel, 0, _, hbytes, fun h1 => absurd h1 (by decide), fun _ s₂ h₂ => ?_⟩
      rw [if_neg (by decide)]
      refine wp_readOr h₂ (by decide) (length_sizeBytes num_events) hbytes fun s₃ h₃ => ?_
      have hcells : s₁.response_pipe.bytes = intBytes 0 ++ sizeBytes num_events ++
          (cellsBytes (e.ev.id :: es.map fun e => e.ev.id) ++ []) := by
        rw [hbytes]
        simp
      rw [toSize_sizeBytes, hcount]
      rw [← List.length_map fun e : Entry => e.ev.id] at hcount ⊢
      refine wp_listLoop e.ev.id _ 0 [] (by simpa using hcount.symm) h₃ hcells fun s₄ h₄ => ?_
      exact hQ s₄ (by simpa [listText] using h₄)

/-- Sending the request. -/
theorem wp_sendRequest {c : Call} {next : Api σ Int32} (hvalid : c.Valid) (hsmall : c.Small)
    (hs : s.Reliable)
    (hnext : ∀ s₁, Progress s (c.request s.session_id) [] [] s₁ → wp next Q E s₁) :
    wp (sendRequest {} c next) Q E s := by
  cases c with
  | emsCreate id rows cols =>
    rw [sendRequest]
    exact wp_request hs fun s₁ h₁ => wp_writeOr h₁ fun s₂ h₂ => wp_writeOr h₂ fun s₃ h₃ =>
      wp_writeOr h₃ hnext
  | emsReserve id args =>
    have hlt : args.num_seats.toNat < 2 ^ 60 := Nat.lt_of_le_of_lt hsmall (by decide)
    rw [sendRequest]
    exact wp_request hs fun s₁ h₁ => wp_writeOr h₁ fun s₂ h₂ => wp_writeOr h₂ fun s₃ h₃ =>
      wp_writeArrayOr h₃ hvalid.1 hlt fun s₄ h₄ => wp_writeArrayOr h₄ hvalid.2 hlt hnext
  | emsShow id =>
    have hid : intBytes id.toInt32 = uintBytes id := by
      rw [intBytes, UInt32.toUInt32_toInt32]
      rfl
    rw [sendRequest, hid]
    exact wp_request hs fun s₁ h₁ => wp_writeOr h₁ hnext
  | emsListEvents =>
    rw [sendRequest]
    exact wp_request hs hnext

/-- **The client's side of a call**: it sends the request, and returns the code of the answer
    when it has read and displayed all of it. -/
theorem wp_issue (env : Env) (hrep : Rep m l es) (hes : Fitting es) {c : Call} (hvalid : c.Valid)
    (hsmall : c.Small) (hs : s.Reliable)
    (hrespond : ∀ s₁, Progress s (c.request s.session_id) [] [] s₁ →
      wp respond (fun _ s₂ => Answered es env c Q s₂) E s₁) :
    wp (c.issue {} respond) Q E s := by
  rw [issue_eq]
  refine wp_sendRequest hvalid hsmall hs fun s₁ h₁ => ?_
  cases c with
  | emsCreate id rows cols =>
    exact wp_response_result (c := .emsCreate id rows cols) (fun _ h => h) rfl (hrespond s₁ h₁)
  | emsReserve id args =>
    exact wp_response_result (c := .emsReserve id args) (fun _ h => h) rfl (hrespond s₁ h₁)
  | emsShow id => exact wp_response_show hrep hes (hrespond s₁ h₁)
  | emsListEvents => exact wp_response_list hrep (hrespond s₁ h₁)

end Client

end Client

/-! ## The server's side -/

section Server

variable {l : Ptr} {es : List Entry} {E : Stop → Prop}

/-- A complete request takes exactly its own bytes, whatever the variables hold. -/
theorem receive_of_complete (v : Locals) {op_code : UInt8} {bs : Bytes} {call : Option Call}
    {n : Nat} (hcomplete : completeRequest op_code bs = some (call, n))
    (hseats : op_code = 4 → (v.receive 4 bs).seats ≤ MAX_RESERVATION_SIZE) :
    (v.receive op_code bs).operandSize op_code = n ∧ n ≤ bs.length ∧
      ((v.receive op_code bs).call op_code).map Call.cut = call.map Call.cut := by
  have hlen : (v.receive op_code bs).operandSize op_code ≤ bs.length := by
    by_contra hlt
    rw [receive_incomplete v (Nat.lt_of_not_le hlt)] at hcomplete
    cases hcomplete
  obtain ⟨call', hcomplete', hcut⟩ := receive_complete v hseats hlen
  obtain ⟨rfl, rfl⟩ := Prod.mk.inj (Option.some.inj (hcomplete.symm.trans hcomplete'))
  exact ⟨rfl, hlen, hcut⟩

/-- A client's request is complete, and asks for the client's call. -/
theorem completeRequest_request (session_id : Int32) {c : Call} (hvalid : c.Valid)
    (hsmall : c.Small) :
    ∃ op_code bs call, c.request session_id = op_code :: bs ∧ op_code ≠ 2 ∧
      completeRequest op_code bs = some (some call, bs.length) ∧ call.cut = c.cut ∧
      (op_code = 4 → 16 ≤ bs.length ∧ (toSize ((bs.drop 8).take 8)).toNat ≤ MAX_RESERVATION_SIZE) := by
  cases c with
  | emsCreate id rows cols =>
    refine ⟨3, intBytes session_id ++ uintBytes id ++ sizeBytes rows ++ sizeBytes cols,
      .emsCreate id rows cols, rfl, by decide, ?_, rfl, fun h => absurd h (by decide)⟩
    simp [completeRequest, List.drop_append, List.drop_of_length_le, List.take_of_length_le]
  | emsReserve id args =>
    obtain ⟨num_seats, xs, ys⟩ := args
    have hxlen : (xs.take num_seats.toNat).length = num_seats.toNat := by
      rw [List.length_take, Nat.min_eq_left hvalid.1]
    have hylen : (ys.take num_seats.toNat).length = num_seats.toNat := by
      rw [List.length_take, Nat.min_eq_left hvalid.2]
    generalize hbs : intBytes session_id ++ uintBytes id ++ sizeBytes num_seats ++
      sizesBytes (xs.take num_seats.toNat) ++ sizesBytes (ys.take num_seats.toNat) = bs
    have hlen : bs.length = 16 + 16 * num_seats.toNat := by
      subst hbs
      simp only [List.length_append, length_intBytes, length_uintBytes, length_sizeBytes,
        length_sizesBytes, hxlen, hylen]
      omega
    have hid : (bs.drop 4).take 4 = uintBytes id := by
      subst hbs
      simp
    have hnum : (bs.drop 8).take 8 = sizeBytes num_seats := by
      subst hbs
      simp [List.drop_append, List.drop_of_length_le]
    have hxs : bs.drop 16 = sizesBytes (xs.take num_seats.toNat) ++
        sizesBytes (ys.take num_seats.toNat) := by
      subst hbs
      simp [List.drop_append, List.drop_of_length_le]
    have hys : bs.drop (16 + 8 * num_seats.toNat) =
        sizesBytes (ys.take num_seats.toNat) ++ [] := by
      rw [← List.drop_drop, hxs, List.append_nil]
      exact List.drop_left' (by rw [length_sizesBytes, hxlen, Nat.mul_comm])
    refine ⟨4, bs, .emsReserve id ⟨num_seats, toSizes num_seats.toNat (bs.drop 16),
      toSizes num_seats.toNat (bs.drop (16 + 8 * num_seats.toNat))⟩, by rw [← hbs]; rfl, by decide,
      ?_, ?_, fun _ => ⟨by omega, by rw [hnum, toSize_sizeBytes]; exact hsmall⟩⟩
    · simp only [completeRequest, hnum, hid, toSize_sizeBytes, toUInt_uintBytes]
      rw [if_pos (by omega), hlen]
    · have hx := take_toSizes hxlen.le (sizesBytes (ys.take num_seats.toNat))
      have hy := take_toSizes hylen.le []
      rw [hxlen] at hx
      rw [hylen] at hy
      rw [hxs, hys]
      simp only [Call.cut, SeatArgs.cut, hx, hy]
  | emsShow id =>
    refine ⟨5, intBytes session_id ++ uintBytes id, .emsShow id, rfl, by decide, ?_, rfl,
      fun h => absurd h (by decide)⟩
    simp [completeRequest, List.take_of_length_le]
  | emsListEvents =>
    refine ⟨6, intBytes session_id, .emsListEvents, rfl, by decide, ?_, rfl,
      fun h => absurd h (by decide)⟩
    simp [completeRequest]

/-- `s'` is `s` after the server has made the call `c`, which has returned `ret.1`, and sent
    `ret.2`. -/
structure Performed (s : Service) (c : Call) (ret : Int32 × Bytes) (s' : Service) : Prop where
  calls : s'.calls = s.calls ++ [c.cut]
  results : s'.results = s.results ++ [ret.1]
  written : s'.world.fd.written = s.world.fd.written ++ ret.2
  calm : Calm s'.world.fd.turns

/-- A call whose result is sent behind it. -/
theorem wp_answer {s : Service} {c : Call} (hc : Calm s.world.fd.turns)
    (h : wp (c.op (s.envs.headD {})) (fun _ w => w.fd = s.world.fd) E s.world) :
    wp (Serve.answer c) (fun _ s' => ∃ code, Performed s c (code, intBytes code) s') E s := by
  rw [Serve.answer, wp_bind, Serve.wp_execute]
  refine wp_mono h (fun code w hf => ?_) fun _ he => he
  simp only [Serve.respondResult, wp_bind, wp_lift]
  refine wp_mono (wp_write _) (fun ok w' hw => ?_) fun _ he => he
  obtain ⟨rfl, hwritten, hcalm⟩ := hw.2 (hf ▸ hc)
  exact ⟨code, rfl, rfl, by rw [← hf]; exact hwritten, hcalm⟩

/-- A call that sends its reply itself. -/
theorem wp_execute_replied {s : Service} {c : Call} {ret : Int32 × Bytes}
    (hc : Calm s.world.fd.turns)
    (h : wp (c.op (s.envs.headD {})) (Replied s.world ret) E s.world) :
    wp (discard (Serve.execute c)) (fun _ s' => Performed s c ret s') E s := by
  refine (wp_map _ _).2 (Serve.wp_execute.2 (wp_mono h (fun code w hw => ?_) fun _ he => he))
  obtain ⟨rfl, hwritten, hcalm⟩ := hw.calm hc
  exact ⟨rfl, rfl, hwritten, hcalm⟩

/-- Serving a call sends an answer. -/
theorem wp_perform_answers {s : Service} {c : Call} (hrep : Rep s.world.mem l es)
    (hE : ¬ Fitting es → E .outOfBounds) (hvalid : c.Valid) (hc : Calm s.world.fd.turns) :
    wp (Serve.perform (some c)) (fun _ s' =>
      ∃ ret, Answers es (s.envs.headD {}) c ret ∧ Performed s c ret s') E s := by
  cases c with
  | emsCreate id rows cols =>
    refine wp_mono (wp_answer hc (wp_mono (wp_emsCreate hrep rows cols) (fun _ _ hw => hw.1)
      fun _ he => he)) (fun _ s' hs' => ?_) fun _ he => he
    obtain ⟨code, h⟩ := hs'
    exact ⟨(code, intBytes code), rfl, h⟩
  | emsReserve id args =>
    refine wp_mono (wp_answer hc (wp_mono (wp_emsReserve hrep (SeatArgs.Within.length_le hvalid)
      fun e he hwrap _ => hE fun hes => hwrap (hes e (findId_eq_some he).1)) (fun _ _ hw => hw.1)
      fun _ he => he)) (fun _ s' hs' => ?_) fun _ he => he
    obtain ⟨code, h⟩ := hs'
    exact ⟨(code, intBytes code), rfl, h⟩
  | emsShow id =>
    exact wp_mono (wp_execute_replied hc (wp_emsShow hrep id)) (fun _ s' h => ⟨_, rfl, h⟩)
      fun _ he => he
  | emsListEvents =>
    exact wp_mono (wp_execute_replied hc (wp_emsListEvents hrep)) (fun _ s' h => ⟨_, rfl, h⟩)
      fun _ he => he

/-- The answer to a request of which a field could not be read. -/
theorem wp_respondResult {s : Service} {result : Int32} (hc : Calm s.world.fd.turns) :
    wp (Serve.respondResult result) (fun _ s' =>
      s'.world.fd.written = s.world.fd.written ++ intBytes result) E s := by
  simp only [Serve.respondResult, wp_bind, wp_lift]
  refine wp_mono (wp_write _) (fun ok w' hw => ?_) fun _ he => he
  obtain ⟨rfl, hwritten, -⟩ := hw.2 hc
  exact hwritten

/-- The server's side of a call when reads can fail: it is performed, or the session ends with
    nothing sent, or it is answered with 1. -/
theorem wp_handleNext_any {s : Session} {c : Call} {session_id : Int32}
    (hrep : Rep s.service.world.mem l es) (hE : ¬ Fitting es → E .outOfBounds) (hvalid : c.Valid)
    (hsmall : c.Small) (hbytes : s.request_pipe.bytes = c.request session_id)
    (hc : Unsignalled s.request_pipe.turns) (hfd : Calm s.service.world.fd.turns) :
    wp handleNext (fun ending s' =>
      (ending = none ∧ s'.request_pipe.bytes = [] ∧
        s'.request_pipe.turns <:+ s.request_pipe.turns ∧
        ∃ ret, Answers es (s.service.envs.headD {}) c ret ∧
          Performed s.service c ret s'.service) ∨
      .fail ∈ s.request_pipe.turns ∧ (ending = some .returned ∨ ending = none ∧
        s'.service.world.fd.written = s.service.world.fd.written ++ intBytes 1)) E s := by
  obtain ⟨op_code, bs, call, hrequest, hop, hcomplete, hcut, hseats⟩ :=
    completeRequest_request session_id hvalid hsmall
  rw [hrequest] at hbytes
  have hroom : op_code = 4 → (s.locals.receive 4 bs).seats ≤ MAX_RESERVATION_SIZE := fun h4 => by
    rw [receive_seats _ (hseats h4).1]
    exact (hseats h4).2
  obtain ⟨hsize, -, hcall⟩ := receive_of_complete s.locals hcomplete hroom
  refine wp_handleNext_unsignalled hc hbytes hop hroom (Or.inl hsize.le)
    (fun hm _ => Or.inr ⟨hm, Or.inl rfl⟩) (fun hm _ _ _ => ?_) fun ts hts => ?_
  · refine wp_mono (wp_respondResult hfd) (fun _ service hw => ?_) fun _ he => he
    exact Or.inr ⟨hm, Or.inr ⟨rfl, hw⟩⟩
  · have hsame : Serve.perform ((s.locals.receive op_code bs).call op_code) =
        Serve.perform (some c) := by
      rw [← Serve.perform_cut, hcall, Option.map_some, hcut, ← Option.map_some, Serve.perform_cut]
    rw [hsame]
    refine wp_mono (wp_perform_answers hrep hE hvalid hfd) (fun _ service hp => ?_) fun _ he => he
    exact Or.inl ⟨rfl, by rw [hsize, List.drop_length], hts, hp⟩

/-- **The server's side of a call**: one round of the loop takes the request to its end, makes
    the call that it asks for and answers it. -/
theorem wp_handleNext_request {s : Session} {c : Call} {session_id : Int32}
    (hrep : Rep s.service.world.mem l es) (hes : Fitting es) (hvalid : c.Valid) (hsmall : c.Small)
    (hbytes : s.request_pipe.bytes = c.request session_id) (hc : Calm s.request_pipe.turns)
    (hfd : Calm s.service.world.fd.turns) :
    wp handleNext (fun ending s' => ending = none ∧ s'.request_pipe.bytes = [] ∧
      Calm s'.request_pipe.turns ∧ ∃ ret, Answers es (s.service.envs.headD {}) c ret ∧
        Performed s.service c ret s'.service) E s := by
  refine wp_mono (wp_handleNext_any hrep (absurd hes) hvalid hsmall hbytes hc.unsignalled hfd)
    (fun ending s' h => ?_) fun _ he => he
  obtain ⟨hending, hrest, hts, hret⟩ | ⟨hm, -⟩ := h
  · exact ⟨hending, hrest, hc.suffix hts, hret⟩
  · exact absurd hm hc.not_fail

end Server

end EventServer
