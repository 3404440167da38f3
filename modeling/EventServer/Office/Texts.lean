import EventServer.Client.Calls
import EventServer.Office.Refinement

/-
  The replies of the box office as clients print them.

  `Reply.text` is what a client prints for a reply, and `Tells` is `Says` together with what the
  client at the other end makes of the bytes. A client that receives the response to a call that
  was told a reply prints the text of that reply and returns its code (`wp_receiveResponse_told`).
-/

namespace EventServer

open Lib Op

/-! ## Texts -/

/-- A row of a venue: the reservation of each of its seats, with a space after it. -/
def Venue.rowText (v : Venue) (row : ℕ) : Bytes :=
  ((List.range' 1 v.cols).map fun col =>
    decimal (.ofNat (v.owner (row, col))) ++ ascii " ").flatten ++ ascii "\n"

/-- A venue: its rows. -/
def Venue.text (v : Venue) : Bytes := ((List.range' 1 v.rows).map v.rowText).flatten

/-- What a client prints for a reply. -/
def Reply.text : Reply → Bytes
  | .done => []
  | .refused => []
  | .venue v => v.text
  | .events ids => listText (ids.map UInt32.ofNat)

section Depicts

variable {e : Entry} {id : ℕ} {v : Venue}

/-- The cell of a seat. -/
theorem Depicts.seat_eq (h : Depicts e (id, v)) {row col : ℕ} (hs : (row, col) ∈ hall v.rows v.cols) :
    e.seat row col = .ofNat (v.owner (row, col)) := by
  have hrows : e.ev.rows.toNat = v.rows := h.rows
  have hcols : e.ev.cols.toNat = v.cols := h.cols
  have hrow := e.ev.rows.toNat_lt
  have hcol := e.ev.cols.toNat_lt
  have hs' := mem_hall.1 hs
  have hplace : place (.ofNat row, .ofNat col) = (row, col) := place_ofNat (by omega) (by omega)
  have hin : InBounds e.ev (.ofNat row, .ofNat col) := h.inBounds_iff.2 (hplace ▸ hs)
  have hcell := h.cell _ hin
  rw [hplace] at hcell
  show e.cells.getD (seatAt e.ev (.ofNat row, .ofNat col)) 0 = _
  rw [List.getD_eq_getElem?_getD, hcell]
  rfl

/-- An event and its venue have one text. -/
theorem Depicts.text_eq (h : Depicts e (id, v)) : e.text = v.text := by
  have hrows : e.ev.rows.toNat = v.rows := h.rows
  have hcols : e.ev.cols.toNat = v.cols := h.cols
  unfold Entry.text Venue.text
  rw [hrows]
  refine congrArg List.flatten (List.map_congr_left fun row hrow => ?_)
  unfold Entry.rowText Venue.rowText
  rw [hcols]
  refine congrArg (fun cells : List Bytes => cells.flatten ++ ascii "\n")
    (List.map_congr_left fun col hcol => ?_)
  rw [List.mem_range'_1] at hrow hcol
  rw [h.seat_eq (mem_hall.2 ⟨⟨hrow.1, by omega⟩, hcol.1, by omega⟩)]

end Depicts

/-! ## Both ends of a call -/

/-- What a call has returned is the reply of the office, and a client that reads it prints the
    text of the reply. -/
def Tells (task : Task) (ret : Int32 × Bytes) (reply : Reply) : Prop :=
  Says task ret reply ∧ ∃ m l es, Rep m l es ∧ Fitting es ∧
    Answers es task.env task.call (ret.1, task.call.response ret) ∧
    task.call.shown es task.env = reply.text

section Tells

variable {m m' : Mem} {l : Ptr} {es : List Entry} {o : Office} {task : Task} {ret : Int32 × Bytes}

/-- What an operation returns answers the call. -/
theorem answers_of_run (hrep : Rep m l es)
    (hrun : runOp (task.call.op task.env) m = some (ret, m')) :
    Answers es task.env task.call (ret.1, task.call.response ret) := by
  cases hcall : task.call with
  | emsCreate => rfl
  | emsReserve => rfl
  | emsShow id =>
    rw [hcall] at hrun
    obtain ⟨rfl, -⟩ :=
      Prod.mk.inj (Option.some.inj ((runOp_emsShow hrep task.env id).symm.trans hrun))
    rfl
  | emsListEvents =>
    rw [hcall] at hrun
    obtain ⟨rfl, -⟩ :=
      Prod.mk.inj (Option.some.inj ((runOp_emsListEvents hrep task.env).symm.trans hrun))
    rfl

/-- What the client is to print is the text of the office's reply. -/
theorem shown_eq (hvs : List.Forall₂ Depicts es o.venues) (task : Task) :
    task.call.shown es task.env = (task.serve o).1.text := by
  cases hh : task.call.hindered task.env with
  | true =>
    rw [serve_hindered hh]
    cases hcall : task.call with
    | emsCreate | emsReserve => rfl
    | emsShow id =>
      rw [hcall, Call.hindered, Bool.not_eq_true'] at hh
      simp only [Call.shown, hh]
      cases findId es id <;> rfl
    | emsListEvents =>
      rw [hcall, Call.hindered, Bool.not_eq_true'] at hh
      simp only [Call.shown, hh]
      rfl
  | false =>
    rw [serve_free hh]
    cases hcall : task.call with
    | emsCreate id rows cols =>
      show [] = (o.serve (.create ..)).1.text
      unfold Office.serve
      dsimp only
      split <;> rfl
    | emsReserve id args =>
      obtain hdone | hrefused := o.serve_reserve_reply id.toNat (seatSet args.seats)
      · exact (congrArg Reply.text hdone).symm
      · exact (congrArg Reply.text hrefused).symm
    | emsShow id =>
      rw [hcall, Call.hindered, Bool.not_eq_false'] at hh
      show _ = (o.serve (.display id.toNat)).1.text
      simp only [Call.shown, hh, Office.serve, Office.find]
      obtain ⟨hnone, hnone'⟩ | ⟨e, v, he, hv, hev⟩ := find_depicts hvs id
      · rw [hnone, hnone']
        rfl
      · rw [he, hv]
        exact hev.text_eq
    | emsListEvents =>
      rw [hcall, Call.hindered, Bool.not_eq_false'] at hh
      show _ = listText (o.ids.map UInt32.ofNat)
      simp only [Call.shown, hh, if_true]
      exact congrArg listText (ids_eq hvs)

/-- **Every operation tells the reply of the office.** -/
theorem implements_tells (h : Implements m o) (hsmall : Small o)
    (hrun : runOp (task.call.op task.env) m = some (ret, m')) :
    ∃ reply o', Tells task ret reply ∧ task.serve o = (reply, o') ∧ Implements m' o' := by
  obtain ⟨reply, o', hsaid, hserve, himpl⟩ := implements_step h hsmall hrun
  obtain ⟨l, es, hrep, hes, hvs⟩ := h
  refine ⟨reply, o', ⟨hsaid, m, l, es, hrep, hes, answers_of_run hrep hrun, ?_⟩, hserve, himpl⟩
  rw [shown_eq hvs, hserve]

end Tells

namespace Client

variable {σ : Type} {s : Process σ} {E : Stop → Prop} {Q : Int32 → Process σ → Prop}
  {respond : Api σ Unit}

/-- **A client that receives what a call was told** reads the response to its end, prints the text
    of the reply and returns its code. -/
theorem wp_receiveResponse_told {task : Task} {ret : Int32 × Bytes} {reply : Reply}
    (htells : Tells task ret reply) (hs : s.Reliable)
    (hbytes : s.response_pipe.bytes = task.call.response ret)
    (hQ : ∀ s', Progress s [] (task.call.response ret) reply.text s' → Q reply.code s') :
    wp (receiveResponse {} (return ()) task.call) Q E s := by
  obtain ⟨hsaid, m, l, es, hrep, hes, hans, hshown⟩ := htells
  have hanswered : wp (return () : Api σ Unit)
      (fun _ s' => Answered es task.env task.call Q s') E s := by
    refine ⟨hs, _, hans, hbytes, fun s' hs' => ?_⟩
    rw [hshown] at hs'
    exact hsaid.1 ▸ hQ s' hs'
  generalize task.call = c at hans hanswered
  cases c with
  | emsCreate => exact wp_response_result (c := .emsCreate ..) (fun _ h => h) rfl hanswered
  | emsReserve => exact wp_response_result (c := .emsReserve ..) (fun _ h => h) rfl hanswered
  | emsShow => exact wp_response_show hrep hes hanswered
  | emsListEvents => exact wp_response_list hrep hanswered

end Client

end EventServer
