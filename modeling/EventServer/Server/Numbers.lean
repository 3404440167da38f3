import EventServer.Server.Ledger

/-
  Reservation numbers and double booking.

  `NoDoubleBooking`: no seat is listed by two successful reservations, and an event never gives
  out 0 or one number twice. The code keeps it exactly as long as no event whose counter is
  `UINT_MAX` accepts a reservation (`noDoubleBooking_iff`): such a reservation is given the
  number 0, which marks a free seat, so the seats it lists can be reserved again
  (`double_booking`). Reservations of no seats count too, so a 1 by 1 event gets there.
-/

namespace EventServer

open Lib Op

def UINT_MAX : UInt32 := 0xffffffff

section

variable {T : Type} [DecidableEq T]

/-- The number a move gives out, with the id of its event: the counter right after the step in
    which a reservation succeeds. -/
def givenOut (c c' : Threads T) : Move T Task → Option (UInt32 × UInt32)
  | .step t =>
    match c.phase t, c'.phase t with
    | .found _ ⟨.emsReserve _ _, _, _, _⟩ p, .finished _ _ ret =>
      if ret.1 = 0 then (c'.shared.events.load p).map fun ev => (ev.id, ev.reservations)
      else none
    | _, _ => none
  | _ => none

/-- The threads, with the numbers given out so far. -/
structure Numbered (T : Type) where
  threads : Threads T
  numbers : List (UInt32 × UInt32)

def numberedStep (n : Numbered T) (mv : Move T Task) : Option (Numbered T) :=
  (server.move n.threads mv).map fun c' =>
    ⟨c', n.numbers ++ (givenOut n.threads c' mv).toList⟩

/-- The numbers an event has given out. -/
def Numbered.of (n : Numbered T) (id : UInt32) : List UInt32 :=
  n.numbers.filterMap fun x => if x.1 = id then some x.2 else none

/-- Each seat is listed by at most one successful reservation, and the numbers an event gives
    out are different and not 0. -/
def NoDoubleBooking (n : Numbered T) : Prop :=
  (∀ id s, (bookings id n.threads.log).countP (s ∈ ·) ≤ 1) ∧
    ∀ id, (n.of id).Nodup ∧ 0 ∉ n.of id

/-- The move is the step in which an event whose counter is `UINT_MAX` accepts a reservation. -/
def Overflows (n : Numbered T) (mv : Move T Task) : Prop :=
  ∃ t k task p id args ev cells, mv = .step t ∧ n.threads.phase t = .found k task p ∧
    task.call = .emsReserve id args ∧ task.env.lockEvent = true ∧
    n.threads.shared.events.load p = some ev ∧ n.threads.shared.cells.load ev.data = some cells ∧
    ev.reservations = UINT_MAX ∧ (∀ s ∈ args.seats, InBounds ev s) ∧
    ∀ s ∈ args.seats, Free ev cells s

/-! ## As long as no counter overflows -/

/-- The numbers that `n` reservations of an event get when its counter does not overflow. -/
def upTo (n : Nat) : List UInt32 := (List.range n).map fun j => UInt32.ofNat (j + 1)

theorem upTo_succ (n : Nat) : upTo (n + 1) = upTo n ++ [UInt32.ofNat (n + 1)] := by
  simp [upTo, List.range_succ]

theorem upTo_sound {n : Nat} (hn : n < 2 ^ 32) : (upTo n).Nodup ∧ 0 ∉ upTo n := by
  have hval : ∀ j < n, (UInt32.ofNat (j + 1)).toNat = j + 1 := fun j hj => by
    rw [UInt32.toNat_ofNat', Nat.mod_eq_of_lt (by omega)]
  constructor
  · refine List.Nodup.map_on (fun i hi j hj heq => ?_) List.nodup_range
    have := congrArg UInt32.toNat heq
    rw [hval i (List.mem_range.1 hi), hval j (List.mem_range.1 hj)] at this
    omega
  · intro hmem
    obtain ⟨j, hj, hz⟩ := List.mem_map.1 hmem
    have := congrArg UInt32.toNat hz
    rw [hval j (List.mem_range.1 hj)] at this
    simp at this

theorem lastOrdinal_eq_zero {α : Type} {p : α → Prop} [DecidablePred p] {l : List α}
    (h : lastOrdinal p l = 0) : l.countP p = 0 := by
  rw [List.countP_eq_zero]
  intro a ha hp
  obtain ⟨j, hj⟩ := List.getElem?_of_mem ha
  have := lt_lastOrdinal p hj (by simpa using hp)
  omega

variable {l : Ptr} {m₀ : Mem} {es : List Entry} {c c' : Threads T} {n n' : Numbered T}
  {mv : Move T Task}

/-- A move books nothing, or it is the step in which an event accepts a reservation. -/
theorem move_books (hok : c.Ok server (Sound l) m₀) (h : Rep c.shared l es) (hes : Fitting es)
    (hm : server.move c mv = some c') :
    (∀ id, bookings id c'.log = bookings id c.log) ∧ givenOut c c' mv = none ∨
      ∃ t k task e args, mv = .step t ∧ c.phase t = .found k task e.event ∧ e ∈ es ∧
        task.call = .emsReserve e.ev.id args ∧ task.env.lockEvent = true ∧
        Accepts e args.seats ∧ c' = c.finish t k task ((0, []), c.shared.reserve e args.seats) := by
  have hlog : ∀ {t : T} {k : Nat} {task : Task} {r : (Int32 × Bytes) × Mem},
      (∀ id, booking id ⟨k, task, r.1⟩ = none) →
      ∀ id, bookings id (c.finish t k task r).log = bookings id c.log := by
    intro t k task r hb id
    rw [Conc.finish, bookings_snoc, hb]
    simp
  obtain ⟨t, op, rfl, hp, rfl⟩ | ⟨t, k, op, p, rfl, hp, hl, rfl⟩ | ⟨t, k, op, r, rfl, hp, hr, rfl⟩ |
    ⟨t, k, op, p, r, rfl, hp, hr, rfl⟩ | ⟨t, k, op, r, rfl, hp, rfl⟩ := TwoStep.move_cases hm
  · exact Or.inl ⟨fun _ => rfl, rfl⟩
  · exact Or.inl ⟨fun _ => rfl, by simp [givenOut, hp]⟩
  · obtain ⟨ret, m'⟩ := r
    refine Or.inl ⟨hlog fun id => ?_, by simp [givenOut, hp]⟩
    cases hcall : op.call with
    | emsReserve id' args =>
      have := first_reserve_fails h hcall hr
      simp [booking, hcall, this]
    | _ => simp [booking, hcall]
  · obtain ⟨call, env, valid, fits⟩ := op
    cases call with
    | emsReserve id args =>
      obtain ⟨e, hfind, rfl, hsecond⟩ := second_reserve h hes rfl (hok.found t k _ p hp).2.2
      obtain ⟨he, rfl⟩ := findId_eq_some hfind
      obtain rfl := Option.some.inj (hsecond.symm.trans hr)
      by_cases hacc : env.lockEvent = true ∧ Accepts e args.seats
      · refine Or.inr ⟨t, k, _, e, args, rfl, hp, he, rfl, hacc.1, hacc.2, ?_⟩
        rw [reserveOutcome, if_pos hacc]
      · refine Or.inl ⟨hlog fun id => ?_, ?_⟩
        · simp [booking, reserveOutcome, if_neg hacc]
        · simp [givenOut, hp, Conc.finish, Conc.setPhase, reserveOutcome, if_neg hacc]
    | _ => exact Or.inl ⟨hlog fun id => rfl, by simp [givenOut, hp]⟩
  · exact Or.inl ⟨fun _ => rfl, rfl⟩

/-- The number that an accepted reservation is given. -/
theorem givenOut_accepted (h : Rep c.shared l es) {t : T} {k : Nat} {task : Task} {e : Entry}
    {args : SeatArgs} (he : e ∈ es) (hp : c.phase t = .found k task e.event)
    (hcall : task.call = .emsReserve e.ev.id args) :
    givenOut c (c.finish t k task ((0, []), c.shared.reserve e args.seats)) (.step t) =
      some (e.ev.id, e.ev.reservations + 1) := by
  have hload : (c.shared.reserve e args.seats).events.load e.event =
      some (e.reserved args.seats).ev :=
    (Heap.load_set (h.event e he) _ _).trans (if_pos rfl)
  obtain ⟨call, env, valid, fits⟩ := task
  obtain rfl : call = .emsReserve e.ev.id args := hcall
  simp only [givenOut, hp, Conc.finish, Conc.setPhase, Function.update_self, if_true, hload,
    Option.map_some]
  rfl

/-- The invariant of the runs in which no counter overflows. -/
structure Counting (l : Ptr) (m₀ : Mem) (es : List Entry) (n : Numbered T) : Prop where
  ok : n.threads.Ok server (Sound l) m₀
  rep : Rep n.threads.shared l es
  fitting : Fitting es
  booked : Booked es n.threads.log
  few : ∀ id, (bookings id n.threads.log).length < 2 ^ 32
  numbers : ∀ id, n.of id = upTo (bookings id n.threads.log).length
  once : ∀ id s, (bookings id n.threads.log).countP (s ∈ ·) ≤ 1

omit [DecidableEq T] in
theorem Counting.noDoubleBooking (h : Counting l m₀ es n) : NoDoubleBooking n :=
  ⟨h.once, fun id => h.numbers id ▸ upTo_sound (h.few id)⟩

omit [DecidableEq T] in
/-- As long as no counter has overflowed, a free seat is listed by no booking. -/
theorem Counting.unlisted (h : Counting l m₀ es n) {e : Entry} (he : e ∈ es) {s : Seat}
    (hs : InBounds e.ev s) (hfree : Free e.ev e.cells s) :
    (bookings e.ev.id n.threads.log).countP (s ∈ ·) = 0 := by
  have hcell := h.booked.shows e he s hs
  have hle := lastOrdinal_le (s ∈ ·) (bookings e.ev.id n.threads.log)
  have hlt := h.few e.ev.id
  rw [Free, hcell, Option.getD_some] at hfree
  have hz := congrArg UInt32.toNat hfree
  rw [UInt32.toNat_ofNat', Nat.mod_eq_of_lt (by omega)] at hz
  exact lastOrdinal_eq_zero hz

omit [DecidableEq T] in
/-- The counter of an event that is not at `UINT_MAX` has room for one more booking. -/
theorem Counting.room (h : Counting l m₀ es n) {e : Entry} (he : e ∈ es)
    (hne : e.ev.reservations ≠ UINT_MAX) :
    (bookings e.ev.id n.threads.log).length + 1 < 2 ^ 32 := by
  have hlt := h.few e.ev.id
  by_contra hge
  refine hne ?_
  rw [h.booked.counter e he, show (bookings e.ev.id n.threads.log).length = 2 ^ 32 - 1 by omega]
  rfl

/-- Moves that do not overflow a counter keep the invariant. -/
theorem Counting.step (h : Counting l m₀ es n) (hm : numberedStep n mv = some n')
    (hg : ¬ Overflows n mv) : ∃ es', Counting l m₀ es' n' := by
  obtain ⟨c', hmove, rfl⟩ := Option.map_eq_some_iff.1 hm
  have hok := h.ok.move (server_stable l) hmove
  obtain ⟨es', hrep, hes, hbooked⟩ : ∃ es', Rep c'.shared l es' ∧ Fitting es' ∧
      Booked es' c'.log := by
    obtain ⟨hsh, hlog⟩ | ⟨d, es', hlog, hrep', hes', hdid⟩ := move_did h.ok h.rep h.fitting hmove
    · exact ⟨es, hsh ▸ h.rep, h.fitting, hlog ▸ h.booked⟩
    · exact ⟨es', hrep', hes', hlog ▸ h.booked.did h.rep h.fitting hdid⟩
  refine ⟨es', ?_⟩
  obtain ⟨hsame, hnone⟩ | ⟨t, k, task, e, args, rfl, hp, he, hcall, hlock, hacc, rfl⟩ :=
    move_books h.ok h.rep h.fitting hmove
  · -- nothing is booked
    refine ⟨hok, hrep, hes, hbooked, fun id => ?_, fun id => ?_, fun id s => ?_⟩
    · exact (hsame id).symm ▸ h.few id
    · rw [Numbered.of, hnone, Option.toList_none, List.append_nil]
      exact (h.numbers id).trans (congrArg (fun bs => upTo bs.length) (hsame id).symm)
    · exact (hsame id).symm ▸ h.once id s
  · -- one more booking of `e`
    have hne : e.ev.reservations ≠ UINT_MAX := fun hmax =>
      hg ⟨t, k, task, e.event, e.ev.id, args, e.ev, e.cells, rfl, hp, hcall, hlock,
        h.rep.event e he, h.rep.cells e he, hmax, hacc.1, hacc.2⟩
    have hroom := h.room he hne
    have hbook : ∀ id, bookings id (n.threads.finish t k task
        ((0, []), n.threads.shared.reserve e args.seats)).log =
        bookings id n.threads.log ++ if e.ev.id = id then [args.seats] else [] := by
      intro id
      rw [Conc.finish, bookings_snoc]
      by_cases hid : e.ev.id = id <;> simp [booking, hcall, hid]
    have hnum : givenOut n.threads (n.threads.finish t k task
        ((0, []), n.threads.shared.reserve e args.seats)) (.step t) =
        some (e.ev.id, UInt32.ofNat ((bookings e.ev.id n.threads.log).length + 1)) := by
      rw [givenOut_accepted h.rep he hp hcall, h.booked.counter e he, UInt32.ofNat_add]
      rfl
    refine ⟨hok, hrep, hes, hbooked, fun id => ?_, fun id => ?_, fun id s => ?_⟩
    · rw [hbook]
      by_cases hid : e.ev.id = id
      · subst hid
        simpa using hroom
      · simpa [hid] using h.few id
    · have hof := h.numbers id
      rw [Numbered.of] at hof ⊢
      simp only [hbook, hnum, List.filterMap_append, hof]
      by_cases hid : e.ev.id = id
      · subst hid
        simp [upTo_succ]
      · simp [hid]
    · rw [hbook, List.countP_append]
      by_cases hid : e.ev.id = id
      · subst hid
        by_cases hs : s ∈ args.seats
        · rw [h.unlisted he (hacc.1 s hs) (hacc.2 s hs)]
          simp [hs]
        · simpa [hs] using h.once e.ev.id s
      · simpa [hid] using h.once id s

/-- A move that overflows a counter gives out the number 0. -/
theorem Counting.overflow (h : Counting l m₀ es n) (hm : numberedStep n mv = some n')
    (ho : Overflows n mv) : ¬ NoDoubleBooking n' := by
  obtain ⟨c', hmove, rfl⟩ := Option.map_eq_some_iff.1 hm
  obtain ⟨t, k, task, p, id, args, ev, cells, rfl, hp, hcall, hlock, hev, hcells, hmax, hbounds,
    hfree⟩ := ho
  obtain ⟨e, hfind, rfl, hsecond⟩ :=
    second_reserve h.rep h.fitting hcall (h.ok.found t k task p hp).2.2
  obtain ⟨he, rfl⟩ := findId_eq_some hfind
  obtain rfl : e.ev = ev := Option.some.inj ((h.rep.event e he).symm.trans hev)
  obtain rfl : e.cells = cells := Option.some.inj ((h.rep.cells e he).symm.trans hcells)
  have hacc : task.env.lockEvent = true ∧ Accepts e args.seats := ⟨hlock, hbounds, hfree⟩
  obtain rfl : c' = n.threads.finish t k task ((0, []), n.threads.shared.reserve e args.seats) := by
    rw [reserveOutcome, if_pos hacc] at hsecond
    simpa [TwoStep.move, hp, hsecond] using hmove.symm
  refine fun hnd => (hnd.2 e.ev.id).2 ?_
  rw [Numbered.of, givenOut_accepted h.rep he hp hcall, hmax]
  exact List.mem_filterMap.2 ⟨(e.ev.id, 0), by simp; exact Or.inr rfl, by simp⟩

/-- **No double booking, exactly as long as no counter overflows**: all along a run of the
    server seats are listed at most once and numbers are fresh and not 0, if and only if no
    move of the run is an event at `UINT_MAX` accepting a reservation. -/
theorem noDoubleBooking_iff {env : Env} {bs : Bytes}
    (hinit : runOp (emsInit env) {} = some ((0, bs), m₀)) (ms : List (Move T Task)) :
    Along numberedStep NoDoubleBooking ⟨Conc.init m₀, []⟩ ms ↔
      Guarded numberedStep (fun n mv => ¬ Overflows n mv) ⟨Conc.init m₀, []⟩ ms := by
  obtain ⟨l, hrep⟩ := rep_of_emsInit hinit
  have hs : Sound l m₀ := ⟨[], hrep, by simp [Fitting]⟩
  refine along_iff_guarded (J := fun n => ∃ es, Counting l m₀ es n) (fun n h => ?_)
    (fun n mv n' h hm hg => ?_) (fun n mv n' h hm hg => ?_) ⟨[], ?_⟩
  · obtain ⟨es, h⟩ := h
    exact h.noDoubleBooking
  · obtain ⟨es, h⟩ := h
    exact h.step hm hg
  · obtain ⟨es, h⟩ := h
    exact h.overflow hm (not_not.1 hg)
  · exact ⟨Conc.ok_init server hs, hrep, by simp [Fitting], booked_nil, by simp [bookings, Conc.init],
      fun id => rfl, by simp [bookings, Conc.init]⟩

/-- The equivalence for the threads of `sampleRun`. -/
theorem noDoubleBooking_sample :
    Along numberedStep NoDoubleBooking ⟨Conc.init freshMem, []⟩ sampleRun ↔
      Guarded numberedStep (fun n mv => ¬ Overflows n mv) ⟨Conc.init freshMem, []⟩ sampleRun :=
  noDoubleBooking_iff emsInit_freshMem sampleRun

end

/-! ## A run that overflows -/

/-- The moves of one thread that makes one reservation. -/
def reserveMoves (task : Task) : List (Move Unit Task) :=
  [.call () task, .step (), .step (), .ret ()]

/-- A reservation of the given seats of event 1. -/
def reserveTask (seats : List Seat) : Task :=
  ⟨.emsReserve 1 (.ofSeats seats), {}, SeatArgs.within_ofSeats seats, trivial⟩

/-- A reservation of no seats. -/
def seatless : Task := reserveTask []

/-- A reservation of the only seat of a 1 by 1 event. -/
def firstSeat : Task := reserveTask [(1, 1)]

/-- One client creates a 1 by 1 event, makes `n` reservations of no seats and then reserves the
    seat twice. -/
def overflowRun (n : Nat) : List (Move Unit Task) :=
  [.call () ⟨.emsCreate 1 1 1, {}, trivial, by show NoWrap 1 1; decide⟩, .step (), .ret ()] ++
    (List.replicate n (reserveMoves seatless)).flatten ++ reserveMoves firstSeat ++
      reserveMoves firstSeat

theorem seats_ofSeats {seats : List Seat} (h : seats.length < 2 ^ 64) :
    (SeatArgs.ofSeats seats).seats = seats := by
  have hn : (UInt64.ofNat seats.length).toNat = seats.length := by
    rw [UInt64.toNat_ofNat', Nat.mod_eq_of_lt h]
  rw [SeatArgs.seats, listed, SeatArgs.ofSeats, hn, List.zip_map', List.map_id', List.take_length]

/-- The thread is idle and the store holds just the event of `e`, which has id 1. -/
structure Alone (l : Ptr) (e : Entry) (c : Threads Unit) : Prop where
  idle : c.phase () = .idle
  store : Rep c.shared l [e]
  id : e.ev.id = 1
  fits : NoWrap e.ev.rows e.ev.cols

/-- A reservation that is accepted goes through in four moves. -/
theorem Alone.reserve {l : Ptr} {e : Entry} {c : Threads Unit} (h : Alone l e c)
    {seats : List Seat} (hlen : seats.length < 2 ^ 64) (hacc : Accepts e seats) :
    ∃ c', exec server.move c (reserveMoves (reserveTask seats)) = some c' ∧
      Alone l (e.reserved seats) c' ∧ bookings 1 c'.log = bookings 1 c.log ++ [seats] := by
  have hfind : findId [e] 1 = some e := by simp [findId, h.id]
  have hfirst : server.first (reserveTask seats) c.shared = some (.inr e.event) :=
    (first_found_iff h.store).2 ⟨1, rfl, by simp [lookupResult, hfind]⟩
  have hsecond : server.second (reserveTask seats) e.event c.shared =
      some ((0, []), c.shared.reserve e seats) := by
    have hfit : Fitting [e] := by simpa [Fitting] using h.fits
    obtain ⟨e', he', -, hs⟩ := second_reserve h.store hfit rfl hfirst
    obtain rfl : e = e' := Option.some.inj (hfind.symm.trans he')
    rw [hs, reserveOutcome, seats_ofSeats hlen, if_pos ⟨rfl, hacc⟩]
  obtain ⟨c', hrun, hidle, hshared, hlog⟩ := TwoStep.exec_two_steps h.idle hfirst hsecond
  refine ⟨c', hrun, ⟨hidle, ?_, h.id, h.fits⟩, ?_⟩
  · have := h.store.reserve (e := e) (by simp) seats
    rw [hshared]
    simpa [reserveAt] using this
  · rw [hlog, bookings_snoc]
    simp [booking, reserveTask, seats_ofSeats hlen]

/-- `n` reservations of no seats move the counter by `n` and nothing else. -/
theorem Alone.seatless {l : Ptr} : ∀ (n : Nat) {e : Entry} {c : Threads Unit}, Alone l e c →
    ∃ c' e', exec server.move c (List.replicate n (reserveMoves seatless)).flatten = some c' ∧
      Alone l e' c' ∧ e'.key = e.key ∧ e'.cells = e.cells ∧
      e'.ev.reservations = e.ev.reservations + UInt32.ofNat n ∧
      bookings 1 c'.log = bookings 1 c.log ++ List.replicate n []
  | 0, e, c, h => ⟨c, e, rfl, h, rfl, rfl, by simp, by simp⟩
  | n + 1, e, c, h => by
      obtain ⟨c₁, hrun, h₁, hlog₁⟩ := h.reserve (show ([] : List Seat).length < 2 ^ 64 by decide)
        (by simp [Accepts])
      obtain ⟨c₂, e₂, hrun₂, h₂, hkey, hcells, hres, hlog₂⟩ := Alone.seatless n h₁
      refine ⟨c₂, e₂, ?_, h₂, hkey, hcells, ?_, ?_⟩
      · rw [List.replicate_succ, List.flatten_cons]
        exact exec_append_of_eq hrun hrun₂
      · rw [hres, Nat.add_comm n 1, UInt32.ofNat_add, ← UInt32.add_assoc]
        rfl
      · rw [hlog₂, hlog₁, List.append_assoc, List.replicate_succ, List.singleton_append]

/-- One client creates an event and makes reservations of no seats until its counter is
    `UINT_MAX`. -/
theorem alone_full {n : Nat} (hn : UInt32.ofNat n = UINT_MAX) {rows cols : UInt64}
    (hfit : NoWrap rows cols) :
    ∃ c e, exec server.move (Conc.init freshMem)
        ([.call () ⟨.emsCreate 1 rows cols, {}, trivial, hfit⟩, .step (), .ret ()] ++
          (List.replicate n (reserveMoves seatless)).flatten) = some c ∧
      Alone 0 e c ∧ e.key = (newEntry freshMem 1 rows cols).key ∧
      e.cells = (newEntry freshMem 1 rows cols).cells ∧ e.ev.reservations = UINT_MAX ∧
      bookings 1 c.log = List.replicate n [] := by
  obtain ⟨m', hcreate, hrep⟩ := runOp_emsCreate_first rep_freshMem 1 rows cols
  have hfirst : server.first ⟨.emsCreate 1 rows cols, {}, trivial, hfit⟩
      (Conc.init freshMem : Threads Unit).shared = some (.inl ((0, []), m')) := by
    simp [server, Conc.init, hcreate]
  obtain ⟨c₁, hrun₁, hidle, hshared, hlog₁⟩ :=
    TwoStep.exec_one_step (M := server) (c := (Conc.init freshMem : Threads Unit)) (t := ()) rfl hfirst
  have h₁ : Alone 0 (newEntry freshMem 1 rows cols) c₁ :=
    ⟨hidle, by rw [hshared]; exact hrep, rfl, hfit⟩
  obtain ⟨c₂, e, hrun₂, h₂, hkey, hcells, hres, hlog₂⟩ := Alone.seatless n h₁
  refine ⟨c₂, e, exec_append_of_eq hrun₁ hrun₂, h₂, hkey, hcells, ?_, ?_⟩
  · rw [hres, hn, show (newEntry freshMem 1 rows cols).ev.reservations = 0 from rfl,
      UInt32.zero_add]
  · rw [hlog₂, hlog₁]
    rfl

/-- The threads and the numbered threads take the same moves. -/
theorem exec_numbered {T : Type} [DecidableEq T] {c c' : Threads T} {ms : List (Move T Task)}
    (h : exec server.move c ms = some c') (ns : List (UInt32 × UInt32)) :
    ∃ ns', exec numberedStep ⟨c, ns⟩ ms = some ⟨c', ns'⟩ := by
  induction ms generalizing c ns with
  | nil => exact ⟨ns, by rw [exec_nil, Option.some.inj h]⟩
  | cons m ms ih =>
    obtain ⟨c₁, hm, hms⟩ := exec_cons_eq_some.1 h
    obtain ⟨ns', hrun⟩ := ih hms (ns ++ (givenOut c c₁ m).toList)
    exact ⟨ns', exec_cons_eq_some.2 ⟨_, by simp [numberedStep, hm], hrun⟩⟩

/-- Reserving the free seat of an event whose counter is `UINT_MAX` leaves it free. -/
theorem reserved_free {e : Entry} (hmax : e.ev.reservations = UINT_MAX) (hrows : e.ev.rows = 1)
    (hcols : e.ev.cols = 1) (hcells : e.cells = [0]) :
    Accepts e [(1, 1)] ∧ Accepts (e.reserved [(1, 1)]) [(1, 1)] := by
  have hat : seatAt e.ev (1, 1) = 0 := by
    rw [seatAt, seatIndex, hcols]
    rfl
  have hbounds : InBounds e.ev (1, 1) := by
    rw [InBounds, hrows, hcols]
    decide
  have hbooked : (e.reserved [(1, 1)]).cells = [0] := by
    show bookCells e.ev (e.ev.reservations + 1) e.cells [(1, 1)] = [0]
    rw [hmax, hcells, bookCells_cons, hat]
    rfl
  have hfree : ∀ (ev : Event), seatAt ev (1, 1) = 0 → Free ev [0] (1, 1) := fun ev h => by
    rw [Free, h]
    rfl
  constructor
  · exact ⟨by simpa using hbounds, by simpa [hcells] using hfree e.ev hat⟩
  · have hbounds' : InBounds (e.reserved [(1, 1)]).ev (1, 1) := hbounds
    refine ⟨by simpa using hbounds', ?_⟩
    rw [hbooked]
    simpa using hfree (e.reserved [(1, 1)]).ev hat

/-- The seat is reserved twice when `k` reservations of no seats bring the counter to `UINT_MAX`. -/
theorem overflowRun_books_twice {k : Nat} (hk : UInt32.ofNat k = UINT_MAX) : ∃ n : Numbered Unit,
    exec numberedStep ⟨Conc.init freshMem, []⟩ (overflowRun k) = some n ∧
      2 ≤ (bookings 1 n.threads.log).countP ((1, 1) ∈ ·) ∧ ¬ NoDoubleBooking n := by
  obtain ⟨c₁, e, hrun₁, h₁, hkey, hcells, hmax, -⟩ := alone_full hk (by decide : NoWrap 1 1)
  obtain ⟨hacc, hacc'⟩ := reserved_free hmax
    (congrArg Entry.Key.rows hkey) (congrArg Entry.Key.cols hkey) hcells
  obtain ⟨c₂, hrun₂, h₂, hlog₂⟩ := h₁.reserve (by decide) hacc
  obtain ⟨c₃, hrun₃, -, hlog₃⟩ := h₂.reserve (by decide) hacc'
  have hrun := exec_append_of_eq (exec_append_of_eq hrun₁ hrun₂) hrun₃
  obtain ⟨ns, hnumbered⟩ := exec_numbered hrun []
  have htwice : 2 ≤ (bookings 1 c₃.log).countP ((1, 1) ∈ ·) := by
    rw [hlog₃, hlog₂, List.countP_append, List.countP_append]
    simp
  refine ⟨⟨c₃, ns⟩, hnumbered, htwice, fun hnd => ?_⟩
  exact absurd (Nat.le_trans htwice (hnd.1 1 (1, 1))) (by decide)

/-- After `2 ^ 32 - 1` reservations of no seats two clients reserve the same seat: both calls
    return success. -/
theorem double_booking : ∃ n : Numbered Unit,
    exec numberedStep ⟨Conc.init freshMem, []⟩ (overflowRun (2 ^ 32 - 1)) = some n ∧
      2 ≤ (bookings 1 n.threads.log).countP ((1, 1) ∈ ·) ∧ ¬ NoDoubleBooking n :=
  overflowRun_books_twice rfl

end EventServer
