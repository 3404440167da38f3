import EventServer.Office.Runs

/-
  Why a call was answered as it was.

  The office that serves a call is what the calls in front of it have made it, and these are the ones
  that had returned before it began and some of those that ran beside it (`served_in_run`). So a
  SHOW is a snapshot: every reservation is displayed with all its seats or not at all, and all SHOWs
  of an event agree on the order of its reservations (`shows_snapshot`). And a call that has got its
  locks and its memory is refused only for a reason that others could have seen
  (`refused_for_reason`): of two calls that want the same seat, one gets it. Both hold as long as
  no event is given 2^32 reservations (`Few`).
-/

namespace EventServer

open Lib Op

/-- The call has created the event. -/
def Created (id : UInt32) (rows cols : UInt64) (d : Completed) : Prop :=
  d.op.call = .emsCreate id rows cols ∧ d.ret.1 = 0

/-! ## What the calls have made of the office -/

section Histories

variable {d : Completed} {o o' : Office} {id : UInt32} {v : Venue} {rows cols : UInt64}

/-- Only a CREATE makes an event known. -/
theorem created_by (hsaid : Says d.op d.ret (d.op.serve o).1) (hnone : o.find id.toNat = none)
    (hv : (d.op.serve o).2.find id.toNat = some v) :
    ∃ rows cols, Created id rows cols d ∧ v = .new rows.toNat cols.toNat := by
  cases hh : d.op.call.hindered d.op.env with
  | true =>
    rw [serve_hindered hh, hnone] at hv
    cases hv
  | false =>
    have hcode := hsaid.1
    rw [serve_free hh] at hv hcode
    obtain ⟨hsame, -⟩ | ⟨id', rows', cols', hnew, hask, hserve⟩ |
      ⟨id', seats, w, hfree, -, hw, hserve⟩ := o.serve_cases d.op.call.ask
    · rw [hsame, hnone] at hv
      cases hv
    · rw [hserve] at hv hcode
      rw [Office.find_add] at hv
      split at hv
      · next hid =>
        obtain rfl := Option.some.inj hv
        cases hcall : d.op.call with
        | emsCreate id'' rows cols =>
          rw [hcall] at hask
          obtain ⟨hid', rfl, rfl⟩ := Ask.create.inj hask
          obtain rfl : id'' = id := UInt32.toNat_inj.1 (hid'.trans hid.symm)
          exact ⟨rows, cols, ⟨hcall, hcode⟩, rfl⟩
        | _ => rw [hcall] at hask; cases hask
      · rw [hnone] at hv
        cases hv
    · rw [hserve] at hv
      rw [Office.find_put hw] at hv
      split at hv
      · next hid =>
        rw [hid, hw] at hnone
        cases hnone
      · rw [hnone] at hv
        cases hv

/-- An event is known exactly if one of the calls has created it. -/
theorem find_of_history {ds : List Completed} {g : List (Task × Reply)} (hg : Reports ds g)
    (h : office.History o g o') (id : UInt32) (hnone : o.find id.toNat = none) :
    (o'.find id.toNat = none ∧ ∀ d ∈ ds, ∀ rows cols, ¬ Created id rows cols d) ∨
      ∃ d ∈ ds, ∃ rows cols v, Created id rows cols d ∧ o'.find id.toNat = some v ∧
        v.rows = rows.toNat ∧ v.cols = cols.toNat := by
  induction hg generalizing o with
  | nil =>
    cases h
    exact Or.inl ⟨hnone, List.forall_mem_nil _⟩
  | @cons d y ds g hy _ ih =>
    cases h with
    | @cons _ o₁ _ _ reply _ first rest =>
      obtain ⟨rfl, hsaid, -⟩ := hy
      have hserve : d.op.serve o = (reply, o₁) := first
      have hsaid' : Says d.op d.ret (d.op.serve o).1 := by rwa [hserve]
      cases hfind : o₁.find id.toNat with
      | none =>
        have hnot : ∀ rows cols, ¬ Created id rows cols d := by
          intro rows cols hcreated
          have hnew := serve_created hcreated.1 hcreated.2 hsaid'
          rw [hserve, hfind] at hnew
          cases hnew
        obtain ⟨hend, hnone'⟩ | ⟨d', hd', hopened⟩ := ih rest hfind
        · exact Or.inl ⟨hend, List.forall_mem_cons.2 ⟨hnot, hnone'⟩⟩
        · exact Or.inr ⟨d', List.mem_cons_of_mem _ hd', hopened⟩
      | some v =>
        obtain ⟨rows, cols, hcreated, rfl⟩ := created_by hsaid' hnone (by rw [hserve]; exact hfind)
        obtain ⟨v', hv', hle⟩ := Office.find_mono (rest.le office_le) hfind
        exact Or.inr ⟨d, List.mem_cons_self .., rows, cols, v', hcreated, hv', hle.1.symm,
          hle.2.1.symm⟩

/-- The reservations of an event that is known. -/
theorem shares_of_find {ds : List Completed} {g : List (Task × Reply)} (hg : Reports ds g)
    (h : office.History .empty g o) (hv : o.find id.toNat = some v) :
    v.booked.shares = (bookings id ds).map seatSet := by
  have hshares := shares_of_history hg h id
  unfold Office.shares at hshares
  rw [hv] at hshares
  exact hshares

/-- A reservation is refused by an event that is there because of one of its seats. -/
theorem refused_seat {o : Office} {id : ℕ} {v : Venue} (seats : List Seat)
    (hv : o.find id = some v) (hrefused : (o.serve (.reserve id (seatSet seats))).1 ≠ .done) :
    ∃ s ∈ seats, place s ∉ hall v.rows v.cols ∨ v.owner (place s) ≠ 0 := by
  have hsub : ¬ seatSet seats ⊆ v.booked.free := fun hsub =>
    hrefused (congrArg Prod.fst (Office.serve_reserve hv hsub))
  obtain ⟨x, hx, hnot⟩ := Finset.not_subset.1 hsub
  obtain ⟨s, hs, rfl⟩ := mem_seatSet.1 hx
  rw [Allotment.mem_free, not_and_or] at hnot
  exact ⟨s, hs, hnot⟩

end Histories

/-- The calls in front of a call, and the office that has served it. -/
structure ServedBy (d : Completed) (front : List Completed) (o : Office) : Prop where
  history : ∃ g, Reports front g ∧ office.History .empty g o
  said : Says d.op d.ret (d.op.serve o).1

section Runs

variable {T : Type} [DecidableEq T] {m₀ : Mem} {env : Env} {bs : Bytes} {c : Threads T}
  {d : Completed}

/-- **Every call is served by the office that the calls in front of it have made**; these had all begun
    before it returned, and whatever had returned before it began is among them. -/
theorem served_in_run (hinit : runOp (emsInit env) {} = some ((0, bs), m₀))
    {ms : List (Move T Task)} (h : exec server.move (Conc.init m₀) ms = some c)
    (hfew : Few c.log) (hd : d ∈ c.log) :
    ∃ front o, front <+: c.log ∧ ServedBy d front o ∧
      (∀ d' ∈ c.log, c.Before d' d → d' ∈ front) ∧ ∀ d' ∈ front, ¬ c.Before d d' := by
  obtain ⟨hlin, g, o, hg, hhist, -⟩ := history_of_run hinit h hfew
  obtain ⟨front, back, hlog⟩ := List.append_of_mem hd
  rw [hlog] at hlin hg ⊢
  -- the answers are split where the log is
  obtain ⟨g₁, g₂, rfl, hg₁, hg₂⟩ : ∃ g₁ g₂, g = g₁ ++ g₂ ∧ Reports front g₁ ∧
      Reports (d :: back) g₂ := by
    have htake := List.forall₂_take_append g front (d :: back) hg.flip
    have hdrop := List.forall₂_drop_append g front (d :: back) hg.flip
    exact ⟨_, _, (List.take_append_drop front.length g).symm, htake.flip, hdrop.flip⟩
  obtain ⟨u, hu, hrest⟩ := Object.history_append.1 hhist
  obtain ⟨⟨task, reply⟩, g₃, ⟨rfl, hsaid, -⟩, -, rfl⟩ := List.forall₂_cons_left_iff.1 hg₂
  cases hrest with
  | @cons _ u' _ _ _ _ first _ =>
    have hserve : d.op.serve u = (reply, u') := first
    refine ⟨front, u, List.prefix_append _ _, ⟨⟨g₁, hg₁, hu⟩, by rw [hserve]; exact hsaid⟩, ?_, ?_⟩
    · exact fun d' hd' htime => hlin.mem_front hd' htime
    · exact fun d' hd' => hlin.not_before hd'

/-! ## Snapshots -/

/-- A SHOW has displayed the event as it was after the calls in front of it. -/
structure Snapshot (c : Threads T) (d : Completed) (id : UInt32) (front : List Completed)
    (v : Venue) : Prop where
  sent : d.ret.2 = (Reply.venue v).wire
  opened : ∃ d' ∈ front, ∃ rows cols, Created id rows cols d' ∧ v.rows = rows.toNat ∧
    v.cols = cols.toNat
  /-- Every reservation in front of it has its number on all its seats and on no others. -/
  whole : ∀ k s, v.owner s = k + 1 ↔
    ∃ seats, (bookings id front)[k]? = some seats ∧ s ∈ seatSet seats
  few : (bookings id front).length < 2 ^ 32
  returned : ∀ d' ∈ c.log, c.Before d' d → d' ∈ front
  begun : ∀ d' ∈ front, ¬ c.Before d d'

/-- **A SHOW is a snapshot.** A reservation is displayed with all its seats or not at all, also while
    it runs beside the SHOW; the calls that two SHOWs have in front of them are prefixes of one order,
    so the one displays what the other does, and perhaps more. -/
theorem shows_snapshot (hinit : runOp (emsInit env) {} = some ((0, bs), m₀))
    {ms : List (Move T Task)} (h : exec server.move (Conc.init m₀) ms = some c)
    (hfew : Few c.log) (hd : d ∈ c.log) {id : UInt32} (hcall : d.op.call = .emsShow id)
    (hok : d.ret.1 = 0) : ∃ front v, front <+: c.log ∧ Snapshot c d id front v := by
  obtain ⟨front, o, hfront, ⟨⟨g, hg, hhist⟩, hsaid⟩, hreturned, hbegun⟩ :=
    served_in_run hinit h hfew hd
  obtain ⟨v, hv, hwire, -⟩ := serve_displayed hcall hok hsaid
  have hopened : ∃ d' ∈ front, ∃ rows cols, Created id rows cols d' ∧ v.rows = rows.toNat ∧
      v.cols = cols.toNat := by
    obtain ⟨hnone, -⟩ | ⟨d', hd', rows, cols, w, hcreated, hw, hrows, hcols⟩ :=
      find_of_history hg hhist id rfl
    · rw [hv] at hnone
      cases hnone
    · obtain rfl : v = w := Option.some.inj (hv.symm.trans hw)
      exact ⟨d', hd', rows, cols, hcreated, hrows, hcols⟩
  have hshares := shares_of_find hg hhist hv
  refine ⟨front, v, hfront, hwire, hopened, fun k s => ?_, hfew.of_prefix hfront id,
    hreturned, hbegun⟩
  unfold Venue.owner
  rw [Allotment.owner_eq_iff, hshares, List.getElem?_map]
  constructor
  · rintro ⟨share, hshare, hs⟩
    obtain ⟨seats, hseats, rfl⟩ := Option.map_eq_some_iff.1 hshare
    exact ⟨seats, hseats, hs⟩
  · rintro ⟨seats, hseats, hs⟩
    exact ⟨seatSet seats, by rw [hseats]; rfl, hs⟩

/-! ## Refusals -/

/-- No CREATE of the event had returned before the call began. -/
def Uncreated (c : Threads T) (d : Completed) (id : UInt32) : Prop :=
  ∀ d' ∈ c.log, ∀ rows cols, Created id rows cols d' → ¬ c.Before d' d

/-- Why a call is refused. What others have done to it had begun before the call returned. -/
inductive Reason (c : Threads T) (d : Completed) : Prop
  /-- The event is there. -/
  | known {id : UInt32} {rows cols : UInt64} (call : d.op.call = .emsCreate id rows cols)
      {d' : Completed} (log : d' ∈ c.log) {rows' cols' : UInt64} (created : Created id rows' cols' d')
      (begun : ¬ c.Before d d')
  /-- The event is not there. -/
  | unknown {id : UInt32} (call : d.op.call = .emsShow id ∨ ∃ args, d.op.call = .emsReserve id args)
      (uncreated : Uncreated c d id)
  /-- There is no such seat. -/
  | outside {id : UInt32} {args : SeatArgs} (call : d.op.call = .emsReserve id args)
      {d' : Completed} (log : d' ∈ c.log) {rows cols : UInt64} (created : Created id rows cols d')
      (begun : ¬ c.Before d d') {s : Seat} (listed : s ∈ args.seats)
      (outside : place s ∉ hall rows.toNat cols.toNat)
  /-- Somebody else has the seat. -/
  | taken {id : UInt32} {args : SeatArgs} (call : d.op.call = .emsReserve id args)
      {d' : Completed} (log : d' ∈ c.log) {seats : List Seat} (books : booking id d' = some seats)
      (begun : ¬ c.Before d d') {s : Seat} (listed : s ∈ args.seats) (taken : s ∈ seats)
  /-- There is no event. -/
  | empty (call : d.op.call = .emsListEvents) (uncreated : ∀ id, Uncreated c d id)

omit [DecidableEq T] in
/-- What is not known in front of a call has not been created before it. -/
theorem uncreated_of_find {front : List Completed} {o : Office} {g : List (Task × Reply)}
    (hg : Reports front g) (hhist : office.History .empty g o)
    (hreturned : ∀ d' ∈ c.log, c.Before d' d → d' ∈ front) {id : UInt32}
    (hnone : o.find id.toNat = none) : Uncreated c d id := by
  intro d' hd' rows cols hcreated htime
  obtain ⟨-, hnot⟩ | ⟨-, -, -, -, v, -, hv, -⟩ := find_of_history hg hhist id rfl
  · exact hnot d' (hreturned d' hd' htime) rows cols hcreated
  · rw [hv] at hnone
    cases hnone

/-- **Every refusal has a reason.** A call that gets its locks and its memory is refused only because
    the event is there already, or is not there, or has no such seat, or somebody else has the
    seat; and what others had to do with it had begun before the call returned. -/
theorem refused_for_reason (hinit : runOp (emsInit env) {} = some ((0, bs), m₀))
    {ms : List (Move T Task)} (h : exec server.move (Conc.init m₀) ms = some c)
    (hfew : Few c.log) (hd : d ∈ c.log) (hfree : d.op.call.hindered d.op.env = false)
    (hcode : d.ret.1 ≠ 0) : Reason c d := by
  obtain ⟨front, o, hfront, ⟨⟨g, hg, hhist⟩, hsaid, -⟩, hreturned, hbegun⟩ :=
    served_in_run hinit h hfew hd
  rw [serve_free hfree] at hsaid
  rw [hsaid] at hcode
  cases hcall : d.op.call with
  | emsCreate id rows cols =>
    rw [hcall] at hcode
    obtain ⟨hnone, -⟩ | ⟨d', hd', rows', cols', -, hcreated, -⟩ :=
      find_of_history hg hhist id rfl
    · have hserve := Office.serve_create rows.toNat cols.toNat hnone
      exact absurd (congrArg (fun r => r.1.code) hserve) hcode
    · exact .known hcall (hfront.subset hd') hcreated (hbegun d' hd')
  | emsReserve id args =>
    rw [hcall] at hcode
    obtain ⟨hnone, -⟩ | ⟨d', hd', rows, cols, v, hcreated, hv, hrows, hcols⟩ :=
      find_of_history hg hhist id rfl
    · exact .unknown (Or.inr ⟨args, hcall⟩) (uncreated_of_find hg hhist hreturned hnone)
    · obtain ⟨s, hs, houtside | htaken⟩ := refused_seat args.seats hv
        fun hdone => hcode (congrArg Reply.code hdone)
      · rw [hrows, hcols] at houtside
        exact .outside hcall (hfront.subset hd') hcreated (hbegun d' hd') hs houtside
      · -- the owner of the seat is a reservation in front of the call
        obtain ⟨k, hk⟩ := Nat.exists_eq_succ_of_ne_zero htaken
        obtain ⟨share, hshare, hmem⟩ := Allotment.owner_eq_iff.1 hk
        rw [shares_of_find hg hhist hv, List.getElem?_map] at hshare
        obtain ⟨seats, hseats, rfl⟩ := Option.map_eq_some_iff.1 hshare
        obtain ⟨d₁, hd₁, hbooks⟩ := List.mem_filterMap.1 (List.mem_of_getElem? hseats)
        obtain ⟨s', hs', heq⟩ := mem_seatSet.1 hmem
        obtain rfl := place_inj.1 heq
        exact .taken hcall (hfront.subset hd₁) hbooks (hbegun d₁ hd₁) hs hs'
  | emsShow id =>
    rw [hcall] at hcode
    cases hv : o.find id.toNat with
    | none => exact .unknown (Or.inl hcall) (uncreated_of_find hg hhist hreturned hv)
    | some v =>
      refine absurd ?_ hcode
      simp only [Call.ask, Office.serve, hv]
      rfl
  | emsListEvents =>
    rw [hcall] at hcode
    refine .empty hcall fun id => uncreated_of_find hg hhist hreturned ?_
    have hids : o.ids = [] := by
      by_contra hne
      exact hcode (if_neg hne)
    rw [Office.find, findVenue_eq_none]
    show id.toNat ∉ o.ids
    rw [hids]
    exact List.not_mem_nil

end Runs

/-! ## Two visits -/

/-- The SHOW of `visitRun` that runs beside the reservation. -/
theorem shows_snapshot_visit : ∃ (c : Threads Bool) (d : Completed) (front : List Completed)
    (v : Venue), exec server.move (Conc.init freshMem) visitRun = some c ∧ d ∈ c.log ∧ d.id = 2 ∧
      front <+: c.log ∧ Snapshot c d 7 front v := by
  obtain ⟨c, hc, hvisit⟩ := (Option.any_eq_true _ _).1 (by decide +kernel :
    (exec server.move (Conc.init freshMem) visitRun).any (fun c => c.log.length = 4 ∧
      ∃ d ∈ c.log, d.id = 2 ∧ d.op.call = .emsShow 7 ∧ d.ret.1 = 0) = true)
  obtain ⟨hlen, d, hd, hid, hcall, hok⟩ := of_decide_eq_true hvisit
  obtain ⟨front, v, hfront, hshown⟩ := shows_snapshot emsInit_freshMem hc
    (few_of_short (by rw [hlen]; decide)) hd hcall hok
  exact ⟨c, d, front, v, hc, hd, hid, hfront, hshown⟩

/-- `visitRun`, and a reservation that comes too late. -/
def lateRun : List (Move Bool Task) :=
  visitRun ++ [.call true ⟨.emsReserve 7 (.ofSeats [(1, 2), (1, 1)]), {}, SeatArgs.within_ofSeats _,
    trivial⟩, .step true, .step true]

theorem refused_for_reason_late : ∃ (c : Threads Bool) (d : Completed),
    exec server.move (Conc.init freshMem) lateRun = some c ∧ d ∈ c.log ∧
      d.op.call = .emsReserve 7 (.ofSeats [(1, 2), (1, 1)]) ∧ d.ret.1 = 1 ∧ Reason c d := by
  obtain ⟨c, hc, hlate⟩ := (Option.any_eq_true _ _).1 (by decide +kernel :
    (exec server.move (Conc.init freshMem) lateRun).any (fun c => c.log.length = 5 ∧
      ∃ d ∈ c.log, d.op.call = .emsReserve 7 (.ofSeats [(1, 2), (1, 1)]) ∧ d.ret.1 = 1 ∧
        d.op.call.hindered d.op.env = false) = true)
  obtain ⟨hlen, d, hd, hcall, hcode, hfree⟩ := of_decide_eq_true hlate
  have hreason := refused_for_reason emsInit_freshMem hc (few_of_short (by rw [hlen]; decide)) hd
    hfree (by rw [hcode]; decide)
  exact ⟨c, d, hc, hd, hcall, hcode, hreason⟩

end EventServer
