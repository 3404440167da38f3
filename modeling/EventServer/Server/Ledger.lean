import EventServer.Server.Threads

/-
  The seats are a ledger of the successful reservations.

  `bookings id log` lists the seats of the successful reservations of an event, in the order
  they went through. `Booked` says that the store is the ledger of a log: each event's counter
  is the number of its bookings, each of its cells holds the ordinal of the last booking that
  lists the seat (both modulo 2^32). Every completed call extends log and ledger together
  (`Booked.did`), so the store is the ledger of the log in every run of any number of threads
  (`booked_of_run`), and a SHOW displays the bookings before it, each of them whole.
-/

namespace EventServer

open Lib Op

/-! ## Ordinals -/

section Ordinals

variable {α : Type} (p : α → Prop) [DecidablePred p]

/-- The place, counted from 1, of the last element with `p`; 0 when there is none. -/
def lastOrdinal : List α → Nat
  | [] => 0
  | a :: l => if lastOrdinal l ≠ 0 then lastOrdinal l + 1 else if p a then 1 else 0

theorem lastOrdinal_snoc (l : List α) (a : α) :
    lastOrdinal p (l ++ [a]) = if p a then l.length + 1 else lastOrdinal p l := by
  induction l with
  | nil => simp [lastOrdinal]
  | cons b l ih =>
    simp only [List.cons_append, lastOrdinal, ih, List.length_cons]
    by_cases ha : p a <;> simp [ha]

theorem lastOrdinal_le (l : List α) : lastOrdinal p l ≤ l.length := by
  induction l with
  | nil => simp [lastOrdinal]
  | cons a l ih =>
    simp only [lastOrdinal, List.length_cons]
    split
    · omega
    · split <;> omega

/-- No element with `p` comes after the last one. -/
theorem lt_lastOrdinal {l : List α} {j : Nat} {a : α} (hj : l[j]? = some a) (ha : p a) :
    j < lastOrdinal p l := by
  induction l generalizing j with
  | nil => simp at hj
  | cons b l ih =>
    simp only [lastOrdinal]
    cases j with
    | zero =>
      obtain rfl : b = a := by simpa using hj
      split
      · omega
      · simp
    | succ j =>
      have := ih (by simpa using hj)
      rw [if_pos (by omega)]
      omega

end Ordinals

/-! ## Bookings -/

/-- A worker's completed call. -/
abbrev Completed := Done Task (Int32 × Bytes)

/-- The seats that a completed call booked in the event with the given id. -/
def booking (id : UInt32) (d : Completed) : Option (List Seat) :=
  match d.op.call with
  | .emsReserve id' args => if id' = id ∧ d.ret.1 = 0 then some args.seats else none
  | _ => none

/-- The seats of the successful reservations of an event, in order. -/
def bookings (id : UInt32) (log : List Completed) : List (List Seat) := log.filterMap (booking id)

theorem bookings_snoc (id : UInt32) (log : List Completed) (d : Completed) :
    bookings id (log ++ [d]) = bookings id log ++ (booking id d).toList := by
  simp [bookings, List.filterMap_append, List.filterMap_cons]
  cases booking id d <;> rfl

/-- The cells of `e` hold exactly the given bookings. -/
def Shows (e : Entry) (bs : List (List Seat)) : Prop :=
  ∀ s, InBounds e.ev s → e.cells[seatAt e.ev s]? = some (UInt32.ofNat (lastOrdinal (s ∈ ·) bs))

/-- The events are the ledger of the log. -/
structure Booked (es : List Entry) (log : List Completed) : Prop where
  counter : ∀ e ∈ es, e.ev.reservations = UInt32.ofNat (bookings e.ev.id log).length
  shows : ∀ e ∈ es, Shows e (bookings e.ev.id log)
  missing : ∀ id, findId es id = none → bookings id log = []

variable {m m₀ : Mem} {l : Ptr} {es es' : List Entry} {log : List Completed} {d : Completed}

theorem booked_nil : Booked [] [] := ⟨by simp, by simp, by simp [bookings]⟩

/-- A call that books nothing and leaves the events alone. -/
theorem Booked.idle (h : Booked es log) (hd : ∀ id, booking id d = none) :
    Booked es (log ++ [d]) := by
  have hb : ∀ id, bookings id (log ++ [d]) = bookings id log := fun id => by
    rw [bookings_snoc, hd]
    simp
  exact ⟨fun e he => by rw [hb]; exact h.counter e he, fun e he => by rw [hb]; exact h.shows e he,
    fun id hid => by rw [hb]; exact h.missing id hid⟩

/-- The ledger of a new event is empty. -/
theorem Booked.create (h : Booked es log) (hd : ∀ id, booking id d = none) {id : UInt32}
    (hid : findId es id = none) (m : Mem) {rows cols : UInt64} (hfit : NoWrap rows cols) :
    Booked (es ++ [newEntry m id rows cols]) (log ++ [d]) := by
  have hold := h.idle hd
  have hnew : bookings id (log ++ [d]) = [] := hold.missing id hid
  refine ⟨fun e he => ?_, fun e he => ?_, fun id' hid' => ?_⟩
  · rcases List.mem_append.1 he with he | he
    · exact hold.counter e he
    · obtain rfl := List.mem_singleton.1 he
      simp [newEntry, hnew]
  · rcases List.mem_append.1 he with he | he
    · exact hold.shows e he
    · obtain rfl := List.mem_singleton.1 he
      intro s hs
      have hlt := seatAt_lt hfit hs
      simp only [newEntry] at hlt ⊢
      rw [hnew, List.getElem?_replicate, if_pos hlt]
      rfl
  · refine hold.missing id' (findId_eq_none.2 fun e he => ?_)
    exact findId_eq_none.1 hid' e (List.mem_append_left _ he)

/-- In an accepted reservation a cell is written exactly when its seat is listed. -/
theorem Shows.reserved {e : Entry} {bs : List (List Seat)} {seats : List Seat} (h : Shows e bs)
    (hcounter : e.ev.reservations = UInt32.ofNat bs.length)
    (hfit : NoWrap e.ev.rows e.ev.cols) (hsize : e.cells.length = (e.ev.rows * e.ev.cols).toNat)
    (hseats : ∀ s ∈ seats, InBounds e.ev s) : Shows (e.reserved seats) (bs ++ [seats]) := by
  intro s hs
  have hs' : InBounds e.ev s := hs
  have hlt : seatAt e.ev s < e.cells.length := hsize ▸ seatAt_lt hfit hs'
  have hcell : (bookCells e.ev (e.ev.reservations + 1) e.cells seats)[seatAt e.ev s]? =
      if s ∈ seats then some (e.ev.reservations + 1) else e.cells[seatAt e.ev s]? := by
    rw [getElem?_bookCells hlt]
    refine if_congr ⟨?_, fun hm => ⟨s, hm, rfl⟩⟩ rfl rfl
    rintro ⟨s', hm, he⟩
    exact seatAt_inj hfit (hseats s' hm) hs' he ▸ hm
  refine hcell.trans ?_
  rw [lastOrdinal_snoc]
  split
  · rw [hcounter, UInt32.ofNat_add]
    rfl
  · exact h s hs'

/-- **Every completed call extends log and ledger together.** -/
theorem Booked.did (h : Booked es log) (hrep : Rep m l es) (hes : Fitting es)
    (hd : Did d.op.call d.ret es es') : Booked es' (log ++ [d]) := by
  unfold Did at hd
  cases hcall : d.op.call with
  | emsCreate id rows cols =>
    rw [hcall] at hd
    have hnone : ∀ id', booking id' d = none := fun id' => by simp [booking, hcall]
    obtain ⟨-, ⟨-, rfl⟩ | ⟨-, hid, m', rfl⟩⟩ := hd
    · exact h.idle hnone
    · refine h.create hnone hid m' ?_
      have hfits := d.op.fits
      rwa [hcall] at hfits
  | emsReserve id args =>
    rw [hcall] at hd
    obtain ⟨-, ⟨hcode, rfl⟩ | ⟨hcode, e, hfind, hacc, rfl⟩⟩ := hd
    · refine h.idle fun id' => ?_
      simp [booking, hcall, hcode]
    · obtain ⟨he, hid⟩ := findId_eq_some hfind
      have hsame : bookings e.ev.id (log ++ [d]) = bookings e.ev.id log ++ [args.seats] := by
        rw [bookings_snoc]
        simp [booking, hcall, hcode, hid]
      have hother : ∀ id', id' ≠ id → bookings id' (log ++ [d]) = bookings id' log := by
        intro id' hne
        rw [bookings_snoc]
        simp [booking, hcall, Ne.symm hne]
      -- the entries after the call: the reserved one, and the others as they were
      have hcases : ∀ e' ∈ reserveAt es e.event args.seats,
          e' = e.reserved args.seats ∨ e' ∈ es ∧ e'.ev.id ≠ id := by
        intro e' he'
        obtain ⟨x, hx, -, ⟨hp, rfl⟩ | ⟨hp, rfl⟩⟩ := mem_reserveAt he'
        · exact Or.inl (by rw [hrep.event_inj hx he hp])
        · refine Or.inr ⟨hx, fun hxid => hp ?_⟩
          rw [List.inj_on_of_nodup_map hrep.ids hx he (hxid.trans hid.symm)]
      refine ⟨fun e' he' => ?_, fun e' he' => ?_, fun id' hid' => ?_⟩
      · rcases hcases e' he' with rfl | ⟨hx, hne⟩
        · refine (congrArg (· + 1) (h.counter e he)).trans ?_
          rw [show (e.reserved args.seats).ev.id = e.ev.id from rfl, hsame, List.length_append,
            UInt32.ofNat_add]
          rfl
        · rw [hother _ hne]
          exact h.counter e' hx
      · rcases hcases e' he' with rfl | ⟨hx, hne⟩
        · rw [show (e.reserved args.seats).ev.id = e.ev.id from rfl, hsame]
          exact (h.shows e he).reserved (h.counter e he) (hes e he) (hrep.size e he) hacc.1
        · rw [hother _ hne]
          exact h.shows e' hx
      · have hin : e.reserved args.seats ∈ reserveAt es e.event args.seats :=
          List.mem_map.2 ⟨e, he, if_pos rfl⟩
        have hne : id' ≠ id := fun heq =>
          findId_eq_none.1 hid' _ hin (hid.trans heq.symm)
        rw [hother _ hne]
        refine h.missing id' (findId_eq_none.2 fun x hx hxid => ?_)
        have hx' : (if x.event = e.event then x.reserved args.seats else x) ∈
            reserveAt es e.event args.seats := List.mem_map_of_mem hx
        refine findId_eq_none.1 hid' _ hx' ?_
        split <;> exact hxid
  | emsShow id =>
    rw [hcall] at hd
    rw [hd.1]
    exact h.idle fun id' => by simp [booking, hcall]
  | emsListEvents =>
    rw [hcall] at hd
    rw [hd.1]
    exact h.idle fun id' => by simp [booking, hcall]

/-! ## Cells that are taken -/

/-- Every event is still there, and its taken cells are unchanged. -/
def Kept (es es' : List Entry) : Prop :=
  ∀ e ∈ es, ∃ e' ∈ es', e'.key = e.key ∧
    ∀ (i : Nat) (c : UInt32), e.cells[i]? = some c → c ≠ 0 → e'.cells[i]? = some c

theorem Kept.refl (es : List Entry) : Kept es es := fun e he => ⟨e, he, rfl, fun _ _ hc _ => hc⟩

theorem Kept.trans {es₁ es₂ es₃ : List Entry} (h : Kept es₁ es₂) (h' : Kept es₂ es₃) :
    Kept es₁ es₃ := by
  intro e he
  obtain ⟨e₂, he₂, hk₂, hc₂⟩ := h e he
  obtain ⟨e₃, he₃, hk₃, hc₃⟩ := h' e₂ he₂
  exact ⟨e₃, he₃, hk₃.trans hk₂, fun i c hc hne => hc₃ i c (hc₂ i c hc hne) hne⟩

theorem Did.kept {call : Call} {ret : Int32 × Bytes} (hrep : Rep m l es)
    (h : Did call ret es es') : Kept es es' := by
  cases call with
  | emsCreate id rows cols =>
    obtain ⟨-, ⟨-, rfl⟩ | ⟨-, -, m', rfl⟩⟩ := h
    · exact Kept.refl _
    · exact fun e he => ⟨e, List.mem_append_left _ he, rfl, fun _ _ hc _ => hc⟩
  | emsReserve id args =>
    obtain ⟨-, ⟨-, rfl⟩ | ⟨-, e, hfind, hacc, rfl⟩⟩ := h
    · exact Kept.refl _
    · obtain ⟨he, -⟩ := findId_eq_some hfind
      intro x hx
      refine ⟨if x.event = e.event then x.reserved args.seats else x, List.mem_map_of_mem hx, ?_, ?_⟩
      · split <;> rfl
      · intro i c hc hne
        split
        · next hp =>
          obtain rfl := hrep.event_inj hx he hp
          -- a listed cell was free, so a taken one is not listed
          refine (getElem?_bookCells (List.getElem?_eq_some_iff.1 hc).1).trans ?_
          rw [if_neg, hc]
          rintro ⟨s, hs, rfl⟩
          have hfree : x.cells[seatAt x.ev s]?.getD 0 = 0 := hacc.2 s hs
          rw [hc] at hfree
          exact hne hfree
        · exact hc
  | emsShow id => exact h.1 ▸ Kept.refl _
  | emsListEvents => exact h.1 ▸ Kept.refl _

/-! ## Runs of the threads -/

/-- The server with its worker threads. -/
abbrev Threads (T : Type) := Conc Mem T Task Ptr (Int32 × Bytes)

section Runs

variable {T : Type} [DecidableEq T] {c c' : Threads T}

/-- One move either leaves memory and log alone, or completes one call. -/
theorem move_did (hok : c.Ok server (Sound l) m₀) (h : Rep c.shared l es) (hes : Fitting es)
    {mv : Move T Task} (hm : server.move c mv = some c') :
    c'.shared = c.shared ∧ c'.log = c.log ∨
      ∃ d es', c'.log = c.log ++ [d] ∧ Rep c'.shared l es' ∧ Fitting es' ∧
        Did d.op.call d.ret es es' := by
  obtain ⟨t, op, rfl, hp, rfl⟩ | ⟨t, k, op, p, rfl, hp, hl, rfl⟩ | ⟨t, k, op, r, rfl, hp, hr, rfl⟩ |
    ⟨t, k, op, p, r, rfl, hp, hr, rfl⟩ | ⟨t, k, op, r, rfl, hp, rfl⟩ := TwoStep.move_cases hm
  · exact Or.inl ⟨rfl, rfl⟩
  · exact Or.inl ⟨rfl, rfl⟩
  · obtain ⟨ret, m'⟩ := r
    obtain ⟨es', h', hdid⟩ := first_did_of h hr
    exact Or.inr ⟨_, es', rfl, h', hdid.fitting op.fits hes, hdid⟩
  · obtain ⟨ret, m'⟩ := r
    obtain ⟨es', h', hdid⟩ := second_did_of h hes (hok.found t k op p hp).2.2 hr
    exact Or.inr ⟨_, es', rfl, h', hdid.fitting op.fits hes, hdid⟩
  · exact Or.inl ⟨rfl, rfl⟩

/-- What completed calls keep holds after every run. -/
theorem invariant_of_run {I : List Entry → List Completed → Prop} (hinit : Rep m₀ l [])
    (hnil : I [] [])
    (hstep : ∀ m es es' log d, Rep m l es → Fitting es → I es log →
      Did d.op.call d.ret es es' → I es' (log ++ [d]))
    {ms : List (Move T Task)} (h : exec server.move (Conc.init m₀) ms = some c) :
    c.Ok server (Sound l) m₀ ∧ ∃ es, Rep c.shared l es ∧ Fitting es ∧ I es c.log := by
  have hs : Sound l m₀ := ⟨[], hinit, by simp [Fitting]⟩
  refine exec_invariant (I := fun c : Threads T => c.Ok server (Sound l) m₀ ∧
    ∃ es, Rep c.shared l es ∧ Fitting es ∧ I es c.log) (fun c mv c' hc hm => ?_)
    ⟨Conc.ok_init server hs, [], hinit, by simp [Fitting], hnil⟩ h
  obtain ⟨hok, es, hrep, hes, hI⟩ := hc
  refine ⟨hok.move (server_stable l) hm, ?_⟩
  obtain ⟨hsh, hlog⟩ | ⟨d, es', hlog, hrep', hes', hdid⟩ := move_did hok hrep hes hm
  · exact ⟨es, hsh ▸ hrep, hes, hlog ▸ hI⟩
  · exact ⟨es', hrep', hes', hlog ▸ hstep _ es es' c.log d hrep hes hI hdid⟩

theorem booked_of_run (hinit : Rep m₀ l []) {ms : List (Move T Task)}
    (h : exec server.move (Conc.init m₀) ms = some c) :
    c.Ok server (Sound l) m₀ ∧ ∃ es, Rep c.shared l es ∧ Fitting es ∧ Booked es c.log :=
  invariant_of_run hinit booked_nil
    (fun _ _ _ _ _ hrep hes hb hdid => hb.did hrep hes hdid) h

/-- From any state of a run on, taken cells stay as they are. -/
theorem kept_of_run (hok : c.Ok server (Sound l) m₀) (hrep : Rep c.shared l es) (hes : Fitting es)
    {ms : List (Move T Task)} (h : exec server.move c ms = some c') :
    ∃ es', Rep c'.shared l es' ∧ Fitting es' ∧ Kept es es' := by
  refine (exec_invariant (I := fun c' : Threads T => c'.Ok server (Sound l) m₀ ∧
    ∃ es', Rep c'.shared l es' ∧ Fitting es' ∧ Kept es es') (fun c mv c' hc hm => ?_)
    ⟨hok, es, hrep, hes, Kept.refl es⟩ h).2
  obtain ⟨hok, es₁, hrep₁, hes₁, hk⟩ := hc
  refine ⟨hok.move (server_stable l) hm, ?_⟩
  obtain ⟨hsh, -⟩ | ⟨d, es₂, -, hrep₂, hes₂, hdid⟩ := move_did hok hrep₁ hes₁ hm
  · exact ⟨es₁, hsh ▸ hrep₁, hes₁, hk⟩
  · exact ⟨es₂, hrep₂, hes₂, hk.trans (hdid.kept hrep₁)⟩

/-- **The seats are an exact ledger of the successful reservations**, and a taken seat stays
    as it is for the rest of the run. -/
theorem seats_are_ledger {env : Env} {bs : Bytes}
    (hinit : runOp (emsInit env) {} = some ((0, bs), m₀)) {ms ms' : List (Move T Task)}
    (h : exec server.move (Conc.init m₀) ms = some c) (h' : exec server.move c ms' = some c') :
    ∃ l es es', Rep c.shared l es ∧ Rep c'.shared l es' ∧
      (∀ e ∈ es, e.ev.reservations = UInt32.ofNat (bookings e.ev.id c.log).length ∧
        ∀ s, InBounds e.ev s → e.cells[seatAt e.ev s]? =
          some (UInt32.ofNat (lastOrdinal (s ∈ ·) (bookings e.ev.id c.log)))) ∧
      ∀ e ∈ es, ∃ e' ∈ es', e'.key = e.key ∧
        ∀ (i : Nat) (cell : UInt32), e.cells[i]? = some cell → cell ≠ 0 → e'.cells[i]? = some cell := by
  obtain ⟨l, hrep₀⟩ := rep_of_emsInit hinit
  obtain ⟨hok, es, hrep, hes, hbooked⟩ := booked_of_run hrep₀ h
  obtain ⟨es', hrep', -, hkept⟩ := kept_of_run hok hrep hes h'
  exact ⟨l, es, es', hrep, hrep', fun e he => ⟨hbooked.counter e he, hbooked.shows e he⟩, hkept⟩

end Runs

/-- Two threads: one reserves two seats of a new event, the other shows the event meanwhile. -/
def sampleRun : List (Move Bool Task) :=
  let create : Task := ⟨.emsCreate 7 2 2, {}, trivial, by show NoWrap 2 2; decide⟩
  let reserve : Task :=
    ⟨.emsReserve 7 (.ofSeats [(1, 1), (2, 2)]), {}, SeatArgs.within_ofSeats _, trivial⟩
  let look : Task := ⟨.emsShow 7, {}, trivial, trivial⟩
  [.call true create, .step true, .ret true, .call true reserve, .call false look, .step false,
    .step true, .step true, .step false, .ret true, .ret false]

/-- The ledger after the reservation of `sampleRun`, and at its end. -/
theorem seats_are_ledger_sample : ∃ c c' : Threads Bool,
    exec server.move (Conc.init freshMem) (sampleRun.take 8) = some c ∧
    exec server.move c (sampleRun.drop 8) = some c' ∧
    ∃ l es es', Rep c.shared l es ∧ Rep c'.shared l es' ∧
      (∀ e ∈ es, e.ev.reservations = UInt32.ofNat (bookings e.ev.id c.log).length ∧
        ∀ s, InBounds e.ev s → e.cells[seatAt e.ev s]? =
          some (UInt32.ofNat (lastOrdinal (s ∈ ·) (bookings e.ev.id c.log)))) ∧
      ∀ e ∈ es, ∃ e' ∈ es', e'.key = e.key ∧
        ∀ (i : Nat) (cell : UInt32), e.cells[i]? = some cell → cell ≠ 0 →
          e'.cells[i]? = some cell := by
  have hrun : (exec server.move (Conc.init freshMem) (sampleRun.take 8 ++ sampleRun.drop 8)).isSome =
      true := by decide +kernel
  rw [exec_append] at hrun
  obtain ⟨c', hc'⟩ := Option.isSome_iff_exists.1 hrun
  obtain ⟨c, hc, hcc'⟩ := Option.bind_eq_some_iff.1 hc'
  exact ⟨c, c', hc, hcc', seats_are_ledger emsInit_freshMem hc hcc'⟩

end EventServer
