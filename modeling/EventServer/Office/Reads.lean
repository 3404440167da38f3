import EventServer.Office.Runs

/-
  What a client has been told stays true.

  Of two calls of which one has returned before the other begins, whichever clients made them, the
  second one is served by an office that has everything the first one was told of (`nothing_lost`): a
  seat that was displayed as taken stays with its reservation, a list of events only gets longer at its
  end, and an event that was created is listed and displayed with its rows and columns. This is so
  as long as no event is given 2^32 reservations (`Few`).
-/

namespace EventServer

open Lib Op

/-- The second call has not missed what the first one was told. -/
structure NothingLost (d d' : Completed) : Prop where
  /-- Two SHOWs of an event. -/
  displays : ∀ id, d.op.call = .emsShow id → d.ret.1 = 0 → d'.op.call = .emsShow id → d'.ret.1 = 0 →
    ∃ v v', d.ret.2 = (Reply.venue v).wire ∧ d'.ret.2 = (Reply.venue v').wire ∧
      v'.rows = v.rows ∧ v'.cols = v.cols ∧ ∀ s, v.owner s ≠ 0 → v'.owner s = v.owner s
  /-- Two LISTs. -/
  lists : d.op.call = .emsListEvents → d.ret.1 = 0 → d'.op.call = .emsListEvents → d'.ret.1 = 0 →
    ∃ ids ids', d.ret.2 = (Reply.events ids).wire ∧ d'.ret.2 = (Reply.events ids').wire ∧ ids <+: ids'
  /-- A CREATE and a LIST. -/
  listed : ∀ id rows cols, d.op.call = .emsCreate id rows cols → d.ret.1 = 0 →
    d'.op.call = .emsListEvents → d'.ret.1 = 0 →
    ∃ ids, d'.ret.2 = (Reply.events ids).wire ∧ id.toNat ∈ ids
  /-- A CREATE and a SHOW. -/
  opened : ∀ id rows cols, d.op.call = .emsCreate id rows cols → d.ret.1 = 0 →
    d'.op.call = .emsShow id → d'.ret.1 = 0 →
    ∃ v, d'.ret.2 = (Reply.venue v).wire ∧ v.rows = rows.toNat ∧ v.cols = cols.toNat

/-- An event that can be found is listed. -/
theorem Office.mem_ids {o : Office} {id : ℕ} {v : Venue} (h : o.find id = some v) : id ∈ o.ids :=
  List.mem_map_of_mem (Office.find_eq_some h)

section Runs

variable {T : Type} [DecidableEq T] {m₀ : Mem} {env : Env} {bs : Bytes} {c : Threads T}

/-- **Nothing that a call was told is lost** to the calls that begin after it has returned. -/
theorem nothing_lost (hinit : runOp (emsInit env) {} = some ((0, bs), m₀))
    {ms : List (Move T Task)} (h : exec server.move (Conc.init m₀) ms = some c)
    (hfew : Few c.log) {d d' : Completed} (hd : d ∈ c.log) (hd' : d' ∈ c.log)
    {ret : Int32 × Bytes} {task : Task}
    (htime : [Event.ret d.id ret, Event.call d'.id task].Sublist c.history) : NothingLost d d' := by
  obtain ⟨o, o', hsaid, hsaid', hle, -⟩ := sees_what_was_done hinit h hfew hd hd' htime
  refine ⟨?_, ?_, ?_, ?_⟩
  · intro id hcall hok hcall' hok'
    obtain ⟨v, hfind, hwire, hsame⟩ := serve_displayed hcall hok hsaid
    obtain ⟨v', hfind', hwire', -⟩ := serve_displayed hcall' hok' hsaid'
    rw [hsame] at hle
    obtain ⟨w, hw, hvw⟩ := Office.find_mono hle hfind
    obtain rfl : w = v' := Option.some.inj (hw.symm.trans hfind')
    exact ⟨v, w, hwire, hwire', hvw.1.symm, hvw.2.1.symm, fun s hs => Venue.owner_mono hvw hs⟩
  · intro hcall hok hcall' hok'
    obtain ⟨hwire, hsame⟩ := serve_listed hcall hok hsaid
    obtain ⟨hwire', -⟩ := serve_listed hcall' hok' hsaid'
    rw [hsame] at hle
    exact ⟨o.ids, o'.ids, hwire, hwire', Office.ids_mono hle⟩
  · intro id rows cols hcall hok hcall' hok'
    have hfind := serve_created hcall hok hsaid
    obtain ⟨hwire', -⟩ := serve_listed hcall' hok' hsaid'
    obtain ⟨v, hv, -⟩ := Office.find_mono hle hfind
    exact ⟨o'.ids, hwire', Office.mem_ids hv⟩
  · intro id rows cols hcall hok hcall' hok'
    have hfind := serve_created hcall hok hsaid
    obtain ⟨v', hfind', hwire', -⟩ := serve_displayed hcall' hok' hsaid'
    obtain ⟨w, hw, hvw⟩ := Office.find_mono hle hfind
    obtain rfl : w = v' := Option.some.inj (hw.symm.trans hfind')
    exact ⟨w, hwire', hvw.1.symm, hvw.2.1.symm⟩

end Runs

/-- The first and the last operation of `visitRun`. -/
theorem nothing_lost_visit : ∃ (c : Threads Bool) (d d' : Completed),
    exec server.move (Conc.init freshMem) visitRun = some c ∧ d ∈ c.log ∧ d' ∈ c.log ∧
      d.op.call = .emsCreate 7 2 2 ∧ d'.op.call = .emsShow 7 ∧ NothingLost d d' := by
  obtain ⟨c, hc, hvisit⟩ := (Option.any_eq_true _ _).1 (by decide +kernel :
    (exec server.move (Conc.init freshMem) visitRun).any (fun c => c.log.length = 4 ∧
      ∃ d ∈ c.log, ∃ d' ∈ c.log, d.op.call = .emsCreate 7 2 2 ∧ d'.op.call = .emsShow 7 ∧
        [(true, d.id), (false, d'.id)].Sublist (c.history.map eventKey)) = true)
  obtain ⟨hlen, d, hd, d', hd', hcall, hcall', hkeys⟩ := of_decide_eq_true hvisit
  obtain ⟨ret, task, htime⟩ := sublist_of_keys hkeys
  exact ⟨c, d, d', hc, hd, hd', hcall, hcall', nothing_lost emsInit_freshMem hc
    (few_of_short (by rw [hlen]; decide)) hd hd' htime⟩

end EventServer
