import EventServer.Server.Seats

/-
  What `ems_show` and `ems_list_events` send.

  Neither changes the memory or can fault, whatever the locks and the descriptor do
  (`Replied.mem`). On a descriptor without signals and errors they send the reply of the
  documented format, complete: result, dimensions and every cell of the event (`showReply`), or
  result, number and ids of all events in creation order (`listReply`).
-/

namespace EventServer

open Lib Op

/-- The cells of an event as they are sent. -/
def cellsBytes (cells : List UInt32) : Bytes := (cells.map uintBytes).flatten

theorem cellsBytes_append (cells cells' : List UInt32) :
    cellsBytes (cells ++ cells') = cellsBytes cells ++ cellsBytes cells' := by
  rw [cellsBytes, List.map_append, List.flatten_append]
  rfl

/-- Success, the dimensions and the cells of an event. -/
def showBytes (e : Entry) : Bytes :=
  intBytes 0 ++ (sizeBytes e.ev.rows ++ (sizeBytes e.ev.cols ++ cellsBytes e.cells))

/-- Return code and reply of `ems_show` when its locks do not fail. -/
def showReply (es : List Entry) (id : UInt32) : Int32 × Bytes :=
  match findId es id with
  | none => (1, intBytes 1)
  | some e => (0, showBytes e)

/-- Return code and reply of a LIST of the given ids. -/
def listing (ids : List UInt32) : Int32 × Bytes :=
  if ids = [] then (1, intBytes 2)
  else (0, intBytes 0 ++ (sizeBytes (UInt64.ofNat ids.length) ++ cellsBytes ids))

/-- Return code and reply of `ems_list_events` when its lock does not fail. -/
def listReply (es : List Entry) : Int32 × Bytes := listing (es.map fun e => e.ev.id)

/-- The operation left the memory alone, and unless the descriptor fails it has sent `reply.2`
    and returns `reply.1`. -/
structure Replied (w : World) (reply : Int32 × Bytes) (code : Int32) (w' : World) : Prop where
  mem : w'.mem = w.mem
  calm : Calm w.fd.turns →
    code = reply.1 ∧ w'.fd.written = w.fd.written ++ reply.2 ∧ Calm w'.fd.turns

variable {w : World} {l : Ptr} {es : List Entry} {env : Env} {E : Stop → Prop}

/-! ## Single writes -/

theorem wp_write (buffer : Bytes) : wp (write buffer) (fun ok w' => w'.mem = w.mem ∧
    (Calm w.fd.turns →
      ok = true ∧ w'.fd.written = w.fd.written ++ buffer ∧ Calm w'.fd.turns)) E w := by
  simp only [write, wp_bind, wp_get, wp_set, wp_pure]
  refine ⟨trivial, fun hc => ?_⟩
  obtain ⟨ts, hts, -, hw⟩ := myWrite_calm hc buffer
  rw [hw]
  exact ⟨by simp, rfl, hts⟩

theorem wp_respond (result : Int32) : wp (respond result) (fun _ w' => w'.mem = w.mem ∧
    (Calm w.fd.turns →
      w'.fd.written = w.fd.written ++ intBytes result ∧ Calm w'.fd.turns)) E w := by
  simp only [respond, wp_bind]
  refine wp_mono (wp_write _) (fun ok w' hw => ?_) fun _ he => he
  cases ok with
  | false => exact ⟨hw.1, fun hc => absurd (hw.2 hc).1 (by simp)⟩
  | true => exact ⟨hw.1, fun hc => (hw.2 hc).2⟩

/-- Answering with a failure ends the reply. -/
theorem wp_respond_return (result code : Int32) (msg : String) {w₀ : World} (hm : w.mem = w₀.mem)
    (hf : w.fd = w₀.fd) :
    wp (do printError msg; respond result; return code) (Replied w₀ (code, intBytes result)) E w := by
  simp only [wp_bind, wp_printError]
  refine wp_mono (wp_respond _) (fun _ w' hw => ?_) fun _ he => he
  exact ⟨hw.1.trans hm, fun hc => ⟨rfl, hf ▸ hw.2 (hf ▸ hc)⟩⟩

/-- One more write in front of the rest of a reply; if it fails, `stop` ends the operation. -/
theorem wp_write_then {buffer bs : Bytes} {code : Int32} {stop next : Op Int32}
    (hstop : ∀ w', w'.mem = w.mem → wp stop (fun _ w'' => w''.mem = w.mem) E w')
    (hnext : ∀ w', w'.mem = w.mem → wp next (Replied w' (code, bs)) E w') :
    wp (do if !(← write buffer) then stop else next) (Replied w (code, buffer ++ bs)) E w := by
  rw [wp_bind]
  refine wp_mono (wp_write buffer) (fun ok w₁ hw => ?_) fun _ he => he
  cases ok with
  | false =>
    refine wp_mono (hstop w₁ hw.1) (fun code' w₂ hm => ?_) fun _ he => he
    exact ⟨hm, fun hc => absurd (hw.2 hc).1 (by simp)⟩
  | true =>
    refine wp_mono (hnext w₁ hw.1) (fun code' w₂ hr => ?_) fun _ he => he
    refine ⟨hr.mem.trans hw.1, fun hc => ?_⟩
    obtain ⟨-, hwritten, hc₁⟩ := hw.2 hc
    obtain ⟨hcode, hwritten', hc₂⟩ := hr.calm hc₁
    exact ⟨hcode, by rw [hwritten', hwritten, List.append_assoc], hc₂⟩

theorem wp_writeHolding {p : Ptr} {x : Event} (hlive : w.mem.events.load p = some x)
    {buffer bs : Bytes} {code : Int32} {next : Op Int32}
    (hnext : ∀ w', w'.mem = w.mem → wp next (Replied w' (code, bs)) E w') :
    wp (writeHolding env p buffer next) (Replied w (code, buffer ++ bs)) E w := by
  refine wp_write_then (fun w' hm => ?_) hnext
  simp only [wp_bind, wp_printError]
  refine wp_leaveEvent (x := x) (by rw [← hlive, ← hm]) fun w'' hm' _ => ?_
  exact hm'.trans hm

theorem wp_writeListing (h : Rep w.mem l es) {buffer bs : Bytes} {code : Int32} {next : Op Int32}
    (hnext : ∀ w', w'.mem = w.mem → wp next (Replied w' (code, bs)) E w') :
    wp (writeListing env buffer next) (Replied w (code, buffer ++ bs)) E w := by
  refine wp_write_then (fun w' hm => ?_) hnext
  simp only [wp_bind, wp_printError]
  refine wp_leaveList (hm ▸ h.root) (hm ▸ h.list) fun w'' hm' _ => ?_
  exact hm'.trans hm

/-! ## `ems_show` -/

theorem wp_emsShowLookup (h : Rep w.mem l es) (id : UInt32) :
    wp (emsShowLookup env id) (fun r w' => w'.mem = w.mem ∧
      r = (if env.lockList then lookupResult es id else .inl 1) ∧
      (Calm w.fd.turns → w'.fd.written = w.fd.written ++ (if r.isLeft then intBytes 1 else []) ∧
        Calm w'.fd.turns)) E w := by
  unfold emsShowLookup
  refine wp_searched h (fun hlock => ?_) fun hlock h' => ?_
  · rw [wp_bind]
    refine wp_mono (wp_respond 1) (fun _ w' hw => ?_) fun _ he => he
    exact ⟨hw.1, by simp [hlock], hw.2⟩
  · rw [wp_bind]
    refine wp_leaveList h'.root h'.list fun w₂ hm hf => ?_
    rw [World.mark_mem] at hm
    rw [World.mark_fd] at hf
    cases hfind : findId es id with
    | none =>
      simp only [Option.map_none, wp_bind, wp_printError]
      refine wp_mono (wp_respond 1) (fun _ w' hw => ?_) fun _ he => he
      simp only [hm, hf] at hw
      exact ⟨hw.1, by simp [hlock, lookupResult, hfind], hw.2⟩
    | some e =>
      simp only [Option.map_some, wp_pure, hm, hf]
      exact ⟨trivial, by simp [hlock, lookupResult, hfind], fun hc => ⟨by simp, hc⟩⟩

/-- The loop that sends the cells of an event from the `i`th on. -/
theorem wp_writeCells {p : Ptr} {ev : Event} {cells : List UInt32} :
    ∀ (n i : Nat) (w : World), w.mem.events.load p = some ev →
    w.mem.cells.load ev.data = some cells → i + n = cells.length → cells.length < 2 ^ 64 →
    wp (writeCells env p ev n i) (Replied w (0, cellsBytes (cells.drop i))) E w
  | 0, i, w, hev, hcells, hn, _ => by
      rw [writeCells, wp_bind]
      refine wp_leaveEvent hev fun w' hm hf => ?_
      rw [wp_pure, List.drop_eq_nil_of_le (by omega)]
      exact ⟨hm, fun hc => ⟨rfl, by simp [hf, cellsBytes], hf ▸ hc⟩⟩
  | n + 1, i, w, hev, hcells, hn, hsize => by
      have hi : (UInt64.ofNat i).toNat = i := by
        rw [UInt64.toNat_ofNat', Nat.mod_eq_of_lt (by omega)]
      have hlt : i < cells.length := by omega
      have hcell : cells[(UInt64.ofNat i).toNat]? = some cells[i] := by
        rw [hi, List.getElem?_eq_getElem]
      rw [writeCells, wp_bind]
      refine wp_mono (wp_loadCell (p := p) hcells hcell) (fun c w₁ hc => ?_) fun _ he => he
      obtain ⟨rfl, hm₁, hf₁⟩ := hc
      have hcons : cellsBytes (cells.drop i) =
          uintBytes cells[i] ++ cellsBytes (cells.drop (i + 1)) := by
        rw [List.drop_eq_getElem_cons (by omega)]
        rfl
      have hstep : wp (writeHolding env p (uintBytes cells[i])
          (writeCells env p ev n (i + 1))) (Replied w₁ (0, cellsBytes (cells.drop i))) E w₁ := by
        rw [hcons]
        refine wp_writeHolding (x := ev) (by rwa [hm₁]) fun w' hm' => ?_
        rw [hm₁] at hm'
        exact wp_writeCells n (i + 1) w' (by rwa [hm']) (by rwa [hm']) (by omega) hsize
      refine wp_mono hstep (fun code w₂ hr => ?_) fun _ he => he
      exact ⟨hr.mem.trans hm₁, fun hc => hf₁ ▸ hr.calm (hf₁ ▸ hc)⟩

theorem wp_emsShowLocked (h : Rep w.mem l es) {e : Entry} (he : e ∈ es) :
    wp (emsShowLocked env e.event)
      (Replied w (if env.lockEvent then (0, showBytes e) else (1, intBytes 1))) E w := by
  have hev := h.event e he
  rw [emsShowLocked, wp_bind, wp_lockEvent hev]
  cases hlock : env.lockEvent with
  | false => exact wp_respond_return 1 1 _ rfl rfl
  | true =>
    simp only [Bool.not_true, Bool.false_eq_true, if_false, if_true, wp_bind, wp_deref,
      World.mark_mem, hev]
    have hsize : e.cells.length < 2 ^ 64 := by
      rw [h.size e he]
      exact UInt64.toNat_lt _
    have hsend : ∀ w₁ : World, w₁.mem = w.mem → wp (writeHolding env e.event (intBytes 0) <|
        writeHolding env e.event (sizeBytes e.ev.rows) <|
          writeHolding env e.event (sizeBytes e.ev.cols) <|
            writeCells env e.event e.ev (e.ev.rows * e.ev.cols).toNat 0)
        (Replied w₁ (0, showBytes e)) E w₁ := by
      intro w₁ hm₁
      refine wp_writeHolding (by rwa [hm₁]) fun w₂ hm₂ => ?_
      refine wp_writeHolding (by rwa [hm₂, hm₁]) fun w₃ hm₃ => ?_
      refine wp_writeHolding (by rwa [hm₃, hm₂, hm₁]) fun w₄ hm₄ => ?_
      have hm : w₄.mem = w.mem := by rw [hm₄, hm₃, hm₂, hm₁]
      have : wp (writeCells env e.event e.ev (e.ev.rows * e.ev.cols).toNat 0) _ E w₄ :=
        wp_writeCells (e.ev.rows * e.ev.cols).toNat 0 w₄
        (by rwa [hm]) (by rw [hm]; exact h.cells e he) (by rw [h.size e he]; omega) hsize
      simpa using this
    have hmark := hsend (w.mark true (.acquire (.event e.event))) (by simp)
    exact wp_mono hmark (fun code w' hr => ⟨by simpa using hr.mem, by simpa using hr.calm⟩)
      fun _ he => he

/-- **`ems_show`** sends the whole event as it stands when its mutex is taken. -/
theorem wp_emsShow (h : Rep w.mem l es) (id : UInt32) :
    wp (emsShow env id) (Replied w
      (if env.lockList && env.lockEvent then showReply es id else (1, intBytes 1))) E w := by
  rw [emsShow, wp_bind]
  refine wp_mono (wp_emsShowLookup h id) (fun r w₁ hr => ?_) fun _ he => he
  obtain ⟨hm, hr, hcalm⟩ := hr
  cases hlock : env.lockList with
  | false =>
    obtain rfl : r = .inl 1 := by simpa [hlock] using hr
    exact ⟨hm, fun hc => ⟨rfl, hcalm hc⟩⟩
  | true =>
    cases hfind : findId es id with
    | none =>
      obtain rfl : r = .inl 1 := by simpa [hlock, lookupResult, hfind] using hr
      refine ⟨hm, fun hc => ⟨?_, ?_⟩⟩
      · cases env.lockEvent <;> simp [showReply, hfind]
      · have := hcalm hc
        cases env.lockEvent <;> simpa [showReply, hfind] using this
    | some e =>
      obtain rfl : r = .inr e.event := by simpa [hlock, lookupResult, hfind] using hr
      obtain ⟨he, -⟩ := findId_eq_some hfind
      have h₁ : Rep w₁.mem l es := by rwa [hm]
      refine wp_mono (x := emsShowLocked env e.event) (wp_emsShowLocked h₁ he)
        (fun code w₂ hr => ?_) fun _ he => he
      refine ⟨hr.mem.trans hm, fun hc => ?_⟩
      obtain ⟨hwritten, hc₁⟩ := hcalm hc
      have := hr.calm hc₁
      rw [hwritten] at this
      simpa [showReply, hfind] using this

/-! ## `ems_list_events` -/

/-- Counting the nodes from an entry of the list to the tail. -/
theorem wp_countEvents (h : Rep w.mem l es) : ∀ (fuel : Nat) (pre rest : List Entry) (e : Entry)
    (n : UInt64), es = pre ++ e :: rest → rest.length < fuel →
    wp (countEvents (es.map Entry.node).getLast? fuel (some e.node) n)
      (fun k w' => k = n + UInt64.ofNat (rest.length + 1) ∧ w' = w) E w
  | 0, _, _, _, _, _, hf => by omega
  | fuel + 1, pre, rest, e, n, hes, hf => by
      have hnode := h.next_eq hes
      simp only [countEvents, wp_ite, wp_pure, wp_bind, wp_deref, hnode]
      refine ⟨fun ht => ?_, fun ht => ?_⟩
      · obtain rfl := (h.eq_tail_iff hes).1 ht
        simp
      · obtain ⟨e', rest', rfl⟩ : ∃ e' rest', rest = e' :: rest' := by
          cases rest with
          | nil => exact absurd ((h.eq_tail_iff hes).2 rfl) ht
          | cons e' rest' => exact ⟨e', rest', rfl⟩
        have hrec := wp_countEvents h fuel (pre ++ [e]) rest' e' (n + 1) (by simp [hes])
          (by simp at hf; omega)
        refine wp_mono hrec (fun k w' hk => ⟨?_, hk.2⟩) fun _ he => he
        rw [hk.1, List.length_cons, UInt64.ofNat_add (a := rest'.length + 1), UInt64.add_assoc,
          UInt64.add_comm 1]
        rfl

/-- Sending the ids from an entry of the list to the tail. -/
theorem wp_writeIds : ∀ (fuel : Nat) (w : World) (pre rest : List Entry) (e : Entry),
    Rep w.mem l es → es = pre ++ e :: rest → rest.length < fuel →
    wp (writeIds env (es.map Entry.node).getLast? fuel (some e.node))
      (Replied w (0, cellsBytes ((e :: rest).map fun e => e.ev.id))) E w
  | 0, _, _, _, _, _, _, hf => by omega
  | fuel + 1, w, pre, rest, e, h, hes, hf => by
      have hnode := h.next_eq hes
      have hev := h.event e (by simp [hes])
      simp only [writeIds, wp_bind, wp_deref, hnode, hev]
      have hcons : cellsBytes ((e :: rest).map fun e => e.ev.id) =
          uintBytes e.ev.id ++ cellsBytes (rest.map fun e => e.ev.id) := rfl
      rw [hcons]
      refine wp_writeListing h fun w₁ hm₁ => ?_
      have h₁ : Rep w₁.mem l es := by rwa [hm₁]
      simp only [wp_ite, wp_bind]
      refine ⟨fun ht => ?_, fun ht => ?_⟩
      · obtain rfl := (h.eq_tail_iff hes).1 ht
        refine wp_leaveList h₁.root h₁.list fun w₂ hm₂ hf₂ => ?_
        exact ⟨hm₂, fun hc => ⟨rfl, by simp [hf₂, cellsBytes], hf₂ ▸ hc⟩⟩
      · obtain ⟨e', rest', rfl⟩ : ∃ e' rest', rest = e' :: rest' := by
          cases rest with
          | nil => exact absurd ((h.eq_tail_iff hes).2 rfl) ht
          | cons e' rest' => exact ⟨e', rest', rfl⟩
        exact wp_writeIds fuel w₁ (pre ++ [e]) rest' e' h₁ (by simp [hes])
          (by simp at hf; omega)

/-- **`ems_list_events`** sends the ids of all events in creation order. -/
theorem wp_emsListEvents (h : Rep w.mem l es) :
    wp (emsListEvents env) (Replied w
      (if env.lockList then listReply es else (1, intBytes 1))) E w := by
  have hnn : w.mem.eventList ≠ none := by rw [h.root]; simp
  simp only [emsListEvents, wp_bind (β := World), wp_get, wp_ite]
  refine ⟨fun hn => absurd hn hnn, fun _ => ?_⟩
  rw [wp_bind, wp_lockList h.root h.list]
  cases hlock : env.lockList with
  | false => exact wp_respond_return 1 1 _ rfl rfl
  | true =>
    simp only [Bool.not_true, Bool.false_eq_true, if_false, if_true, wp_bind, wp_get, wp_deref,
      World.mark_mem, h.root, h.list, wp_ite]
    refine ⟨fun hnil => ?_, fun hne => ?_⟩
    · obtain rfl : es = [] := by simpa using hnil
      refine wp_mono (wp_write _) (fun ok w₁ hw => ?_) fun _ he => he
      rw [World.mark_mem, World.mark_fd] at hw
      refine wp_leaveList (hw.1 ▸ h.root) (hw.1 ▸ h.list) fun w₂ hm₂ hf₂ => ?_
      exact ⟨hm₂.trans hw.1, fun hc => ⟨rfl, hf₂ ▸ (hw.2 hc).2⟩⟩
    · obtain ⟨e, rest, rfl⟩ : ∃ e rest, es = e :: rest := by
        cases es with
        | nil => exact absurd rfl hne
        | cons e rest => exact ⟨e, rest, rfl⟩
      have hlen : rest.length < w.mem.nodes.fresh := by
        have := h.length_le
        simp at this
        omega
      have hhead : ((e :: rest).map Entry.node).head? = some e.node := rfl
      simp only [hhead]
      have hsend : ∀ w₁ : World, w₁.mem = w.mem → wp (writeListing env (intBytes 0) do
          let num_events ← countEvents ((e :: rest).map Entry.node).getLast?
            (← get).mem.nodes.fresh (some e.node) 0
          writeListing env (sizeBytes num_events) do
            let again ← deref Mem.lists (← get).mem.eventList
            writeIds env ((e :: rest).map Entry.node).getLast? (← get).mem.nodes.fresh again.head)
          (Replied w₁ (listReply (e :: rest))) E w₁ := by
        intro w₁ hm₁
        have h₁ : Rep w₁.mem l (e :: rest) := by rwa [hm₁]
        refine wp_writeListing h₁ fun w₂ hm₂ => ?_
        have h₂ : Rep w₂.mem l (e :: rest) := by rwa [hm₂]
        simp only [wp_bind, wp_get]
        refine wp_mono (wp_countEvents h₂ _ [] rest e 0 rfl (by rw [hm₂, hm₁]; exact hlen))
          (fun k w₃ hk => ?_) fun _ he => he
        obtain ⟨rfl, rfl⟩ := hk
        rw [UInt64.zero_add, ← List.length_cons (a := e), ← List.length_map (fun e => e.ev.id)]
        refine wp_writeListing h₂ fun w₄ hm₄ => ?_
        have h₄ : Rep w₄.mem l (e :: rest) := by rwa [hm₄]
        simp only [wp_bind, wp_get, h₄.root, wp_deref, h₄.list, hhead]
        exact wp_writeIds _ w₄ [] rest e h₄ rfl (by rw [hm₄, hm₂, hm₁]; exact hlen)
      have hmark := hsend (w.mark true (.acquire .list)) (by simp)
      exact wp_mono hmark (fun code w' hr => ⟨by simpa using hr.mem, by simpa using hr.calm⟩)
        fun _ he => he

end EventServer
