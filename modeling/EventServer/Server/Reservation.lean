import EventServer.Server.Threads

/-
  `ems_reserve` against its purpose.

  A seat's cell is the one at its place in row-major order, counted in natural numbers
  (`rowMajor`). `emsReserve_exact`: whatever the store, the event and the listed seats, the call
  gives 0 exactly when the event exists and every listed seat exists and is free; then the
  listed seats hold the new value of the counter (`Reserved`) and no other block of the memory
  changes (`OnlyChanges`), else the memory is as before.
-/

namespace EventServer

open Lib Op

/-! ## Seats in row-major order -/

/-- The number of seats before a seat, row by row. -/
def rowMajor (event : Event) (s : Seat) : Nat :=
  (s.1.toNat - 1) * event.cols.toNat + (s.2.toNat - 1)

/-- A seat of a well-formed event is free when its cell holds 0. -/
theorem Free.iff_rowMajor {e : Entry} {s : Seat} (hfit : NoWrap e.ev.rows e.ev.cols)
    (hsize : e.cells.length = (e.ev.rows * e.ev.cols).toNat) (hs : InBounds e.ev s) :
    Free e.ev e.cells s ↔ e.cells[rowMajor e.ev s]? = some 0 := by
  have hlt : seatAt e.ev s < e.cells.length := hsize ▸ seatAt_lt hfit hs
  have heq : seatAt e.ev s = rowMajor e.ev s := seatAt_eq hfit hs
  rw [Free, ← heq, List.getElem?_eq_getElem hlt, Option.getD_some, Option.some.injEq]

theorem accepts_iff_rowMajor {e : Entry} {seats : List Seat} (hfit : NoWrap e.ev.rows e.ev.cols)
    (hsize : e.cells.length = (e.ev.rows * e.ev.cols).toNat) :
    Accepts e seats ↔
      ∀ s ∈ seats, InBounds e.ev s ∧ e.cells[rowMajor e.ev s]? = some 0 := by
  constructor
  · rintro ⟨hin, hfree⟩ s hs
    exact ⟨hin s hs, (Free.iff_rowMajor hfit hsize (hin s hs)).1 (hfree s hs)⟩
  · intro h
    exact ⟨fun s hs => (h s hs).1,
      fun s hs => (Free.iff_rowMajor hfit hsize (h s hs).1).2 (h s hs).2⟩

/-! ## What a reservation changes -/

/-- `e'` is the event `e` after a reservation of the listed seats. -/
structure Reserved (e e' : Entry) (seats : List Seat) : Prop where
  ev : e'.ev = { e.ev with reservations := e.ev.reservations + 1 }
  size : e'.cells.length = e.cells.length
  listed : ∀ s ∈ seats, e'.cells[rowMajor e.ev s]? = some (e.ev.reservations + 1)
  others : ∀ i, (∀ s ∈ seats, rowMajor e.ev s ≠ i) → e'.cells[i]? = e.cells[i]?

/-- From `m` to `m'` only the event of `e` changes, and it becomes `e'`. -/
structure OnlyChanges (m m' : Mem) (e e' : Entry) : Prop where
  eventList : m'.eventList = m.eventList
  lists : m'.lists = m.lists
  nodes : m'.nodes = m.nodes
  event : m'.events.load e.event = some e'.ev
  events : ∀ p, p ≠ e.event → m'.events.load p = m.events.load p
  seats : m'.cells.load e.ev.data = some e'.cells
  cells : ∀ p, p ≠ e.ev.data → m'.cells.load p = m.cells.load p

theorem Entry.isReserved {e : Entry} {seats : List Seat} (hfit : NoWrap e.ev.rows e.ev.cols)
    (hsize : e.cells.length = (e.ev.rows * e.ev.cols).toNat)
    (hin : ∀ s ∈ seats, InBounds e.ev s) : Reserved e (e.reserved seats) seats := by
  refine ⟨rfl, length_bookCells .., fun s hs => ?_, fun i hi => ?_⟩
  · have hlt : seatAt e.ev s < e.cells.length := hsize ▸ seatAt_lt hfit (hin s hs)
    have heq : seatAt e.ev s = rowMajor e.ev s := seatAt_eq hfit (hin s hs)
    rw [Entry.reserved, ← heq, getElem?_bookCells hlt, if_pos ⟨s, hs, rfl⟩]
  · show (bookCells e.ev (e.ev.reservations + 1) e.cells seats)[i]? = e.cells[i]?
    rcases Nat.lt_or_ge i e.cells.length with hlt | hge
    · rw [getElem?_bookCells hlt, if_neg]
      rintro ⟨s, hs, hsi⟩
      exact hi s hs ((seatAt_eq hfit (hin s hs)).symm.trans hsi)
    · rw [List.getElem?_eq_none hge,
        List.getElem?_eq_none ((length_bookCells e.ev _ e.cells seats).symm ▸ hge)]

variable {m : Mem} {l : Ptr} {es : List Entry}

theorem Rep.onlyChanges (h : Rep m l es) {e : Entry} (he : e ∈ es) (seats : List Seat) :
    OnlyChanges m (m.reserve e seats) e (e.reserved seats) := by
  have hevents := Heap.load_set (h.event e he) (e.reserved seats).ev
  have hcells := Heap.load_set (h.cells e he) (e.reserved seats).cells
  refine ⟨rfl, rfl, rfl, ?_, fun p hp => ?_, ?_, fun p hp => ?_⟩
  · exact (hevents _).trans (if_pos rfl)
  · exact (hevents p).trans (if_neg hp)
  · exact (hcells _).trans (if_pos rfl)
  · exact (hcells p).trans (if_neg hp)

/-! ## The specification -/

/-- The store holds the events `es`; before `ems_init` there are none. -/
def Holds (m : Mem) (es : List Entry) : Prop := m.eventList = none ∧ es = [] ∨ ∃ l, Rep m l es

/-- Before `ems_init` no reservation succeeds. -/
theorem runOp_emsReserve_none (hroot : m.eventList = none) (env : Env) (id : UInt32)
    (num_seats : UInt64) (xs ys : List UInt64) :
    runOp (emsReserve env id num_seats xs ys) m = some ((1, []), m) := by
  have hwp : wp (emsReserve env id num_seats xs ys)
      (fun code w => code = 1 ∧ w.fd = {} ∧ w.mem = m) (fun _ => False) { mem := m } := by
    simp only [emsReserve, emsReserveLookup, wp_bind, wp_get, wp_ite, hroot, wp_printError, wp_pure]
    exact ⟨fun _ => ⟨trivial, trivial, trivial⟩, fun hn => absurd trivial hn⟩
  obtain ⟨code, w, hrun, rfl, hf, rfl⟩ := runOp_of_wp hwp
  rw [hrun, hf]

/-- **`ems_reserve`, exactly.** It gives 0 if and only if the event exists and every listed seat
    exists and is free (and its locks can be had); on 0 the counter goes up, the listed seats hold
    its new value and nothing else changes; on 1 nothing changes at all. -/
theorem emsReserve_exact (h : Holds m es) (env : Env) (id : UInt32) {args : SeatArgs}
    (hargs : args.Within)
    (hfit : ∀ e, findId es id = some e → NoWrap e.ev.rows e.ev.cols) :
    ∃ code m', runOp (emsReserve env id args.num_seats args.xs args.ys) m =
        some ((code, []), m') ∧
      (code = 0 ∨ code = 1) ∧
      (code = 0 ↔ env.reserves = true ∧ ∃ e, findId es id = some e ∧
        ∀ s ∈ args.seats, InBounds e.ev s ∧ e.cells[rowMajor e.ev s]? = some 0) ∧
      (code = 0 → ∃ e e', findId es id = some e ∧ Reserved e e' args.seats ∧ OnlyChanges m m' e e') ∧
      (code = 1 → m' = m) := by
  obtain ⟨hroot, rfl⟩ | ⟨l, h⟩ := h
  · refine ⟨1, m, runOp_emsReserve_none hroot .., Or.inr rfl, ?_, fun h => absurd h (by decide),
      fun _ => rfl⟩
    simp [findId]
  obtain ⟨code, w, hrun, hf, hcase⟩ :=
    runOp_of_wp (x := emsReserve env id args.num_seats args.xs args.ys)
      (wp_emsReserve (w := { mem := m }) h hargs.length_le fun e he hn _ => absurd (hfit e he) hn)
  have haccepts : ∀ e, findId es id = some e → (Accepts e args.seats ↔
      ∀ s ∈ args.seats, InBounds e.ev s ∧ e.cells[rowMajor e.ev s]? = some 0) := fun e he =>
    accepts_iff_rowMajor (hfit e he) (h.size e (findId_eq_some he).1)
  refine ⟨code, w.mem, by rw [hrun, hf], ?_⟩
  obtain ⟨rfl, hm, hrej⟩ | ⟨rfl, hok, e, hfind, hacc, hm, -⟩ := hcase
  · refine ⟨Or.inr rfl, iff_of_false (by decide) ?_, fun h => absurd h (by decide), fun _ => hm⟩
    rintro ⟨hok, e, hfind, hfree⟩
    exact hrej hok e hfind ((haccepts e hfind).2 hfree)
  · have he := (findId_eq_some hfind).1
    refine ⟨Or.inl rfl, iff_of_true rfl ⟨hok, e, hfind, (haccepts e hfind).1 hacc⟩, fun _ => ?_,
      fun h => absurd h (by decide)⟩
    exact ⟨e, e.reserved args.seats, hfind, Entry.isReserved (hfit e hfind) (h.size e he) hacc.1,
      hm ▸ h.onlyChanges he args.seats⟩

/-- Two seats of an event of two rows and three columns, one of them listed twice. -/
theorem emsReserve_exact_sample : ∃ m, runOp (emsCreate {} 7 2 3) freshMem = some ((0, []), m) ∧
    ∃ code m', runOp (emsReserve {} 7 3 [1, 2, 1] [1, 3, 1]) m = some ((code, []), m') ∧
      (code = 0 ∨ code = 1) ∧
      (code = 0 ↔ ({} : Env).reserves = true ∧
        ∃ e, findId [newEntry freshMem 7 2 3] 7 = some e ∧
        ∀ s ∈ listed 3 [1, 2, 1] [1, 3, 1],
          InBounds e.ev s ∧ e.cells[rowMajor e.ev s]? = some 0) ∧
      (code = 0 → ∃ e e', findId [newEntry freshMem 7 2 3] 7 = some e ∧
        Reserved e e' (listed 3 [1, 2, 1] [1, 3, 1]) ∧ OnlyChanges m m' e e') ∧
      (code = 1 → m' = m) := by
  obtain ⟨m, hrun, hrep⟩ := runOp_emsCreate_first rep_freshMem 7 2 3
  have hargs : SeatArgs.Within ⟨3, [1, 2, 1], [1, 3, 1]⟩ := ⟨by decide, by decide⟩
  refine ⟨m, hrun, @emsReserve_exact m _ (Or.inr ⟨0, hrep⟩) {} 7 ⟨3, [1, 2, 1], [1, 3, 1]⟩ hargs
    fun e he => ?_⟩
  obtain rfl := List.mem_singleton.1 (findId_eq_some he).1
  decide

end EventServer
