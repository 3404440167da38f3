import EventServer.Lib.Objects
import EventServer.Office.Spec
import EventServer.Server.Ledger

/-
  The store refines the box office.

  `Depicts` relates an event of the store to a venue: dimensions as they are, the counter and
  the cells modulo 2^32. As long as no venue has 2^32 reservations a cell of 0 means a free
  seat, so the store accepts what the office accepts (`Depicts.accepts_iff`), and every operation
  does what the office does and sends the reply of the office (`implements_step`). Of a run of any
  number of threads the same holds in the order of their linearization
  (`server_refines_office`).
-/

namespace EventServer

open Lib Op

/-! ## Calls and replies -/

def place (s : Seat) : ℕ × ℕ := (s.1.toNat, s.2.toNat)

/-- The listed seats as a set. -/
def seatSet (seats : List Seat) : Finset (ℕ × ℕ) := (seats.map place).toFinset

theorem mem_seatSet {seats : List Seat} {x : ℕ × ℕ} :
    x ∈ seatSet seats ↔ ∃ s ∈ seats, place s = x := by
  rw [seatSet, List.mem_toFinset, List.mem_map]

theorem place_inj {s s' : Seat} : place s = place s' ↔ s = s' := by
  rw [place, place, Prod.mk.injEq, UInt64.toNat_inj, UInt64.toNat_inj, Prod.ext_iff]

theorem place_ofNat {i j : ℕ} (hi : i < 2 ^ 64) (hj : j < 2 ^ 64) :
    place (.ofNat i, .ofNat j) = (i, j) := by
  simp only [place, UInt64.toNat_ofNat', Prod.mk.injEq]
  exact ⟨Nat.mod_eq_of_lt hi, Nat.mod_eq_of_lt hj⟩

/-- What a call asks of the office. -/
def Call.ask : Call → Ask
  | .emsCreate event_id num_rows num_cols =>
    .create event_id.toNat num_rows.toNat num_cols.toNat
  | .emsReserve event_id args => .reserve event_id.toNat (seatSet args.seats)
  | .emsShow event_id => .display event_id.toNat
  | .emsListEvents => .list

/-- A lock or an allocation that the call needs fails. -/
def Call.hindered (env : Env) : Call → Bool
  | .emsCreate _ _ _ => !(env.lockList && env.allocates)
  | .emsReserve _ _ => !env.reserves
  | .emsShow _ => !(env.lockList && env.lockEvent)
  | .emsListEvents => !env.lockList

/-- What the worker sends to the client. -/
def Call.response : Call → Int32 × Bytes → Bytes
  | .emsCreate _ _ _, ret => intBytes ret.1
  | .emsReserve _ _, ret => intBytes ret.1
  | .emsShow _, ret => ret.2
  | .emsListEvents, ret => ret.2

/-- The answer of the office to a call, and the office after it: without its locks and allocations
    a call is refused. -/
def Task.serve (task : Task) (o : Office) : Reply × Office :=
  if task.call.hindered task.env then (.refused, o) else o.serve task.call.ask

/-- The office as an object with the calls as its operations. -/
def office : Object Office Task Reply := fun o task reply o' => task.serve o = (reply, o')

theorem office_le {o o' : Office} {task : Task} {reply : Reply} (h : office o task reply o') :
    o ≤ o' := by
  unfold office Task.serve at h
  split at h
  · obtain ⟨-, rfl⟩ := Prod.mk.inj h
    exact le_refl o
  · have hle := o.serve_le task.call.ask
    rw [h] at hle
    exact hle

/-- The reservations of a venue, seat by seat, row by row. -/
def Venue.cells (v : Venue) : List UInt32 :=
  (List.range (v.rows * v.cols)).map fun k => .ofNat (v.owner (k / v.cols + 1, k % v.cols + 1))

namespace Reply

def code : Reply → Int32
  | done => 0
  | refused => 1
  | venue _ => 0
  | events ids => if ids = [] then 1 else 0

/-- The bytes of a reply. -/
def wire : Reply → Bytes
  | done => intBytes 0
  | refused => intBytes 1
  | venue v => intBytes 0 ++
      (sizeBytes (.ofNat v.rows) ++ (sizeBytes (.ofNat v.cols) ++ cellsBytes v.cells))
  | events ids => (listing (ids.map UInt32.ofNat)).2

end Reply

/-- What a call has returned, and what is sent for it, is the reply of the office. -/
def Says (task : Task) (ret : Int32 × Bytes) (reply : Reply) : Prop :=
  ret.1 = reply.code ∧ task.call.response ret = reply.wire

theorem says_refused {task : Task} {ret : Int32 × Bytes} (h : ret = (1, []) ∧
    ((∃ id rows cols, task.call = .emsCreate id rows cols) ∨
      ∃ id args, task.call = .emsReserve id args) ∨ ret = (1, intBytes 1)) :
    Says task ret .refused := by
  obtain ⟨rfl, ⟨id, rows, cols, hcall⟩ | ⟨id, args, hcall⟩⟩ | rfl := h
  · rw [Says, hcall]
    exact ⟨rfl, rfl⟩
  · rw [Says, hcall]
    exact ⟨rfl, rfl⟩
  · refine ⟨rfl, ?_⟩
    cases task.call <;> rfl

/-! ## Events and venues -/

/-- The event shows the venue with the given id. -/
structure Depicts (e : Entry) (x : ℕ × Venue) : Prop where
  id : e.ev.id.toNat = x.1
  rows : e.ev.rows.toNat = x.2.rows
  cols : e.ev.cols.toNat = x.2.cols
  counter : e.ev.reservations = .ofNat x.2.booked.shares.length
  cell : ∀ s, InBounds e.ev s → e.cells[seatAt e.ev s]? = some (.ofNat (x.2.owner (place s)))

variable {e : Entry} {id : ℕ} {v : Venue} {es : List Entry} {vs : List (ℕ × Venue)}

theorem Depicts.inBounds_iff (h : Depicts e (id, v)) {s : Seat} :
    InBounds e.ev s ↔ place s ∈ hall v.rows v.cols := by
  rw [mem_hall, ← h.rows, ← h.cols]
  simp only [InBounds, UInt64.le_iff_toNat_le, place, UInt64.toNat_one, and_assoc]

/-- With fewer than 2^32 reservations only a free seat has a cell of 0. -/
theorem Depicts.free_iff (h : Depicts e (id, v)) (hfew : v.booked.shares.length < 2 ^ 32)
    {s : Seat} (hs : InBounds e.ev s) : Free e.ev e.cells s ↔ v.owner (place s) = 0 := by
  have hle : v.owner (place s) ≤ v.booked.shares.length := v.booked.owner_le (place s)
  have hval : (UInt32.ofNat (v.owner (place s))).toNat = v.owner (place s) := by
    rw [UInt32.toNat_ofNat', Nat.mod_eq_of_lt (Nat.lt_of_le_of_lt hle hfew)]
  rw [Free, h.cell s hs, Option.getD_some, ← UInt32.toNat_inj, hval]
  rfl

/-- The store accepts the reservations that the office accepts. -/
theorem Depicts.accepts_iff (h : Depicts e (id, v)) (hfew : v.booked.shares.length < 2 ^ 32)
    (seats : List Seat) : Accepts e seats ↔ seatSet seats ⊆ v.booked.free := by
  constructor
  · rintro ⟨hin, hfree⟩ x hx
    obtain ⟨s, hs, rfl⟩ := mem_seatSet.1 hx
    exact Allotment.mem_free.2
      ⟨h.inBounds_iff.1 (hin s hs), (h.free_iff hfew (hin s hs)).1 (hfree s hs)⟩
  · intro hsub
    have hmem : ∀ s ∈ seats, place s ∈ hall v.rows v.cols ∧ v.owner (place s) = 0 :=
      fun s hs => Allotment.mem_free.1 (hsub (mem_seatSet.2 ⟨s, hs, rfl⟩))
    have hin : ∀ s ∈ seats, InBounds e.ev s := fun s hs => h.inBounds_iff.2 (hmem s hs).1
    exact ⟨hin, fun s hs => (h.free_iff hfew (hin s hs)).2 (hmem s hs).2⟩

theorem depicts_new (m : Mem) (id : UInt32) {rows cols : UInt64} (hfit : NoWrap rows cols) :
    Depicts (newEntry m id rows cols) (id.toNat, .new rows.toNat cols.toNat) := by
  refine ⟨rfl, rfl, rfl, rfl, fun s hs => ?_⟩
  have hlt := seatAt_lt hfit hs
  exact List.getElem?_replicate.trans (if_pos hlt)

/-- A reservation in the store and in the office. -/
theorem Depicts.reserved (h : Depicts e (id, v)) (hfit : NoWrap e.ev.rows e.ev.cols)
    (hsize : e.cells.length = (e.ev.rows * e.ev.cols).toNat) {seats : List Seat}
    (hin : ∀ s ∈ seats, InBounds e.ev s) (hfree : seatSet seats ⊆ v.booked.free) :
    Depicts (e.reserved seats) (id, v.book (seatSet seats) hfree) := by
  have hnext : e.ev.reservations + 1 = .ofNat (v.booked.shares.length + 1) := by
    rw [h.counter, UInt32.ofNat_add]
    rfl
  refine ⟨h.id, h.rows, h.cols, ?_, fun s hs => ?_⟩
  · exact hnext.trans (congrArg UInt32.ofNat (Allotment.length_grant hfree).symm)
  · have hs' : InBounds e.ev s := hs
    have hlt : seatAt e.ev s < e.cells.length := hsize ▸ seatAt_lt hfit hs'
    have howner : (v.book (seatSet seats) hfree).owner (place s) =
        if place s ∈ seatSet seats then v.booked.shares.length + 1 else v.owner (place s) :=
      Allotment.owner_grant hfree (place s)
    -- the cell is written for a listed seat that is this one
    have hlisted : (∃ s' ∈ seats, seatAt e.ev s' = seatAt e.ev s) ↔ place s ∈ seatSet seats := by
      rw [mem_seatSet]
      constructor
      · rintro ⟨s', hm, heq⟩
        exact ⟨s', hm, place_inj.2 (seatAt_inj hfit (hin s' hm) hs' heq)⟩
      · rintro ⟨s', hm, heq⟩
        exact ⟨s', hm, by rw [place_inj.1 heq]⟩
    refine (getElem?_bookCells hlt).trans ?_
    rw [howner, if_congr hlisted rfl rfl]
    split
    · exact congrArg some hnext
    · exact h.cell s hs'

theorem find_depicts (h : List.Forall₂ Depicts es vs) (id : UInt32) :
    findId es id = none ∧ findVenue vs id.toNat = none ∨
      ∃ e v, findId es id = some e ∧ findVenue vs id.toNat = some v ∧ Depicts e (id.toNat, v) := by
  induction h with
  | nil => exact Or.inl ⟨rfl, rfl⟩
  | @cons e x es vs hex _ ih =>
    rw [findVenue_cons]
    by_cases hid : e.ev.id = id
    · have hx : x.1 = id.toNat := by rw [← hex.id, hid]
      refine Or.inr ⟨e, x.2, by simp [findId, hid], if_pos hx, ?_⟩
      rw [← hx]
      exact hex
    · have hx : x.1 ≠ id.toNat := fun hx => hid (UInt32.toNat_inj.1 (hex.id.trans hx))
      rw [if_neg hx]
      have hfind : findId (e :: es) id = findId es id := by simp [findId, hid]
      rw [hfind]
      exact ih

/-! ## The store and the office -/

/-- The memory holds the venues of the office. -/
def Implements (m : Mem) (o : Office) : Prop :=
  ∃ l es, Rep m l es ∧ Fitting es ∧ List.Forall₂ Depicts es o.venues

/-- No counter has come round. -/
def Small (o : Office) : Prop := ∀ x ∈ o.venues, x.2.booked.shares.length < 2 ^ 32

variable {m : Mem} {l : Ptr} {o : Office}

theorem implements_empty (h : Rep m l []) : Implements m .empty :=
  ⟨l, [], h, by simp [Fitting], .nil⟩

theorem Fitting.snoc (hes : Fitting es) (hfit : NoWrap e.ev.rows e.ev.cols) : Fitting (es ++ [e]) := by
  intro x hx
  rcases List.mem_append.1 hx with hx | hx
  · exact hes x hx
  · exact List.mem_singleton.1 hx ▸ hfit

theorem Fitting.reserveAt (hes : Fitting es) (p : Ptr) (seats : List Seat) :
    Fitting (reserveAt es p seats) := by
  intro x hx
  obtain ⟨y, hy, rfl⟩ := List.mem_map.1 hx
  have hfit := hes y hy
  by_cases hp : y.event = p
  · rw [if_pos hp]
    exact hfit
  · rw [if_neg hp]
    exact hfit

/-- The reserved event is the one with its id, in the store as in the office. -/
theorem depicts_reserveAt (hrep : Rep m l es) (h : List.Forall₂ Depicts es vs) (he : e ∈ es)
    {seats : List Seat} {v : Venue} (hv : Depicts (e.reserved seats) (e.ev.id.toNat, v)) :
    List.Forall₂ Depicts (reserveAt es e.event seats) (putVenue vs e.ev.id.toNat v) := by
  rw [reserveAt, putVenue, List.forall₂_map_left_iff, List.forall₂_map_right_iff]
  have hmem : List.Forall₂ (fun x y => x ∈ es ∧ Depicts x y) es vs :=
    (List.forall₂_and_left es vs).2 ⟨fun _ hx => hx, h⟩
  refine hmem.imp fun x y hxy => ?_
  obtain ⟨hx, hxy⟩ := hxy
  by_cases hp : x.event = e.event
  · obtain rfl := hrep.event_inj hx he hp
    rw [if_pos hp, if_pos hxy.id.symm]
    exact hv
  · have hy : y.1 ≠ e.ev.id.toNat := fun hy => hp <| by
      rw [List.inj_on_of_nodup_map hrep.ids hx he (UInt32.toNat_inj.1 (hxy.id.trans hy))]
    rw [if_neg hp, if_neg hy]
    exact hxy

/-! ## What is sent -/

/-- The cells of an event are those of the venue. -/
theorem Depicts.cells_eq (h : Depicts e (id, v)) (hfit : NoWrap e.ev.rows e.ev.cols)
    (hsize : e.cells.length = (e.ev.rows * e.ev.cols).toNat) : e.cells = v.cells := by
  have hrows : e.ev.rows.toNat = v.rows := h.rows
  have hcols : e.ev.cols.toNat = v.cols := h.cols
  have hlen : v.cells.length = v.rows * v.cols := by simp [Venue.cells]
  rw [size_toNat hfit, hrows, hcols] at hsize
  refine List.ext_getElem? fun k => ?_
  by_cases hk : k < v.rows * v.cols
  · have hpos : 0 < v.cols := Nat.pos_of_ne_zero fun h0 => by simp [h0] at hk
    have hrow : k / v.cols < v.rows := Nat.div_lt_of_lt_mul (by rwa [Nat.mul_comm])
    have hcol : k % v.cols < v.cols := Nat.mod_lt _ hpos
    have hat : v.cols * (k / v.cols) + k % v.cols = k := Nat.div_add_mod k v.cols
    have hcell : v.cells[k]? = some (.ofNat (v.owner (k / v.cols + 1, k % v.cols + 1))) := by
      simp [Venue.cells, List.getElem?_range hk]
    rw [hcell]
    generalize k / v.cols = i at hrow hat
    generalize k % v.cols = j at hcol hat
    -- the seat in row i + 1 and column j + 1 has the cell k
    have hrow' := e.ev.rows.toNat_lt
    have hcol' := e.ev.cols.toNat_lt
    have hplace : place (.ofNat (i + 1), .ofNat (j + 1)) = (i + 1, j + 1) :=
      place_ofNat (by omega) (by omega)
    generalize ((.ofNat (i + 1), .ofNat (j + 1)) : Seat) = s at hplace
    have hin : InBounds e.ev s := by
      rw [h.inBounds_iff, mem_hall, hplace]
      exact ⟨⟨Nat.succ_pos i, hrow⟩, Nat.succ_pos j, hcol⟩
    have hseat : seatAt e.ev s = k := by
      have hi : s.1.toNat = i + 1 := congrArg Prod.fst hplace
      have hj : s.2.toNat = j + 1 := congrArg Prod.snd hplace
      rw [seatAt_eq hfit hin, hi, hj, hcols, Nat.add_sub_cancel, Nat.add_sub_cancel, Nat.mul_comm]
      exact hat
    rw [← hseat, h.cell s hin, hplace]
  · rw [List.getElem?_eq_none (by omega), List.getElem?_eq_none (by omega)]

theorem Depicts.showBytes_eq (h : Depicts e (id, v)) (hfit : NoWrap e.ev.rows e.ev.cols)
    (hsize : e.cells.length = (e.ev.rows * e.ev.cols).toNat) :
    showBytes e = (Reply.venue v).wire := by
  rw [showBytes, Reply.wire, h.cells_eq hfit hsize, ← h.rows, ← h.cols, UInt64.ofNat_toNat,
    UInt64.ofNat_toNat]

theorem ids_eq (h : List.Forall₂ Depicts es vs) :
    es.map (fun e => e.ev.id) = (vs.map Prod.fst).map UInt32.ofNat := by
  induction h with
  | nil => rfl
  | cons hex _ ih => rw [List.map_cons, List.map_cons, List.map_cons, ih, ← hex.id,
      UInt32.ofNat_toNat]

theorem says_events (h : List.Forall₂ Depicts es o.venues) {task : Task}
    (hcall : task.call = .emsListEvents) : Says task (listReply es) (.events o.ids) := by
  have hids : es.map (fun e => e.ev.id) = o.ids.map UInt32.ofNat := ids_eq h
  rw [Says, hcall]
  refine ⟨?_, congrArg (fun ids => (listing ids).2) hids⟩
  rw [listReply, hids, listing, Reply.code]
  cases o.ids <;> rfl

/-! ## One operation -/

/-- A refused call leaves the office alone. -/
theorem serve_hindered {task : Task} (h : task.call.hindered task.env = true) (o : Office) :
    task.serve o = (.refused, o) := if_pos h

theorem serve_free {task : Task} (h : task.call.hindered task.env = false) (o : Office) :
    task.serve o = o.serve task.call.ask := if_neg (by rw [h]; exact Bool.false_ne_true)

section Steps

variable {m m' : Mem} {task : Task} {ret : Int32 × Bytes}

theorem implements_create (hrep : Rep m l es) (hes : Fitting es)
    (hvs : List.Forall₂ Depicts es o.venues) {id : UInt32} {rows cols : UInt64}
    (hcall : task.call = .emsCreate id rows cols)
    (hrun : runOp (emsCreate task.env id rows cols) m = some (ret, m')) :
    ∃ reply o', Says task ret reply ∧ task.serve o = (reply, o') ∧ Implements m' o' := by
  obtain ⟨code, w, hret, hf, hcase⟩ := wp_of_runOp hrun
    (wp_emsCreate (w := { mem := m }) hrep rows cols (E := fun _ => True))
  obtain ⟨rfl, rfl⟩ := Prod.mk.inj hret
  rw [hf]
  have hask : task.call.ask = .create id.toNat rows.toNat cols.toNat := by rw [hcall]; rfl
  have hhind : task.call.hindered task.env = !(task.env.lockList && task.env.allocates) := by
    rw [hcall]
    rfl
  obtain ⟨rfl, hrep', hwhy⟩ | ⟨rfl, hnew, hlock, halloc, hrep'⟩ := hcase
  · refine ⟨.refused, o, says_refused (Or.inl ⟨rfl, Or.inl ⟨id, rows, cols, hcall⟩⟩), ?_,
      l, es, hrep', hes, hvs⟩
    cases hh : task.call.hindered task.env with
    | true => exact serve_hindered hh o
    | false =>
      rw [serve_free hh, hask]
      have hknown : (findId es id).isSome := by
        rw [hhind] at hh
        simp only [Bool.not_eq_false', Bool.and_eq_true] at hh
        simpa [hh.1, hh.2] using hwhy
      obtain ⟨hnone, -⟩ | ⟨e, v, -, hv, -⟩ := find_depicts hvs id
      · rw [hnone] at hknown
        cases hknown
      · refine dif_neg fun hnone => ?_
        rw [Office.find, hv] at hnone
        cases hnone
  · have hfit : NoWrap rows cols := by
      have := task.fits
      rwa [hcall] at this
    have hnone : o.find id.toNat = none := by
      obtain ⟨-, hnone⟩ | ⟨e, v, he, -⟩ := find_depicts hvs id
      · exact hnone
      · rw [hnew] at he
        cases he
    refine ⟨.done, o.add id.toNat (.new rows.toNat cols.toNat) hnone, ?_, ?_, l, _, hrep',
      hes.snoc hfit, List.rel_append hvs (.cons (depicts_new m id hfit) .nil)⟩
    · rw [Says, hcall]
      exact ⟨rfl, rfl⟩
    · rw [serve_free (by rw [hhind, hlock, halloc]; rfl), hask]
      exact Office.serve_create _ _ hnone

theorem implements_reserve (hrep : Rep m l es) (hes : Fitting es)
    (hvs : List.Forall₂ Depicts es o.venues) (hsmall : Small o) {id : UInt32} {args : SeatArgs}
    (hcall : task.call = .emsReserve id args)
    (hrun : runOp (emsReserve task.env id args.num_seats args.xs args.ys) m = some (ret, m')) :
    ∃ reply o', Says task ret reply ∧ task.serve o = (reply, o') ∧ Implements m' o' := by
  have hvalid : args.Within := by
    have := task.valid
    rwa [hcall] at this
  obtain ⟨code, w, hret, hf, hcase⟩ := wp_of_runOp hrun (wp_emsReserve (w := { mem := m }) hrep
    hvalid.length_le (E := fun _ => True) fun _ _ _ _ => trivial)
  obtain ⟨rfl, rfl⟩ := Prod.mk.inj hret
  rw [hf]
  have hask : task.call.ask = .reserve id.toNat (seatSet args.seats) := by rw [hcall]; rfl
  have hhind : task.call.hindered task.env = !task.env.reserves := by rw [hcall]; rfl
  have hfew : ∀ v, o.find id.toNat = some v → v.booked.shares.length < 2 ^ 32 :=
    fun v hv => hsmall _ (Office.find_eq_some hv)
  obtain ⟨rfl, hm, hrej⟩ | ⟨rfl, hlocks, e, hfind, hacc, hm, -⟩ := hcase
  · refine ⟨.refused, o, says_refused (Or.inl ⟨rfl, Or.inr ⟨id, args, hcall⟩⟩), ?_,
      l, es, hm ▸ hrep, hes, hvs⟩
    cases hh : task.call.hindered task.env with
    | true => exact serve_hindered hh o
    | false =>
      rw [serve_free hh, hask]
      rw [hhind, Bool.not_eq_false'] at hh
      obtain ⟨-, hnone⟩ | ⟨e, v, he, hv, hev⟩ := find_depicts hvs id
      · simp only [Office.serve, Office.find, hnone]
      · have hno : ¬ seatSet args.seats ⊆ v.booked.free := fun hsub =>
          hrej hh e he ((hev.accepts_iff (hfew v hv) args.seats).2 hsub)
        simp only [Office.serve, Office.find, hv]
        exact dif_neg hno
  · obtain ⟨hnone, -⟩ | ⟨e', v, he', hv, hev⟩ := find_depicts hvs id
    · rw [hfind] at hnone
      cases hnone
    · obtain rfl : e = e' := Option.some.inj (hfind.symm.trans he')
      obtain ⟨he, rfl⟩ := findId_eq_some hfind
      have hfree : seatSet args.seats ⊆ v.booked.free :=
        (hev.accepts_iff (hfew v hv) args.seats).1 hacc
      refine ⟨.done, o.put e.ev.id.toNat (v.book (seatSet args.seats) hfree), ?_, ?_, l, _,
        hm ▸ hrep.reserve he args.seats, hes.reserveAt e.event args.seats,
        depicts_reserveAt hrep hvs he (hev.reserved (hes e he) (hrep.size e he) hacc.1 hfree)⟩
      · rw [Says, hcall]
        exact ⟨rfl, rfl⟩
      · rw [serve_free (by rw [hhind, hlocks]; rfl), hask]
        exact Office.serve_reserve hv hfree

theorem implements_show (hrep : Rep m l es) (hes : Fitting es)
    (hvs : List.Forall₂ Depicts es o.venues) {id : UInt32} (hcall : task.call = .emsShow id)
    (hrun : runOp (emsShow task.env id) m = some (ret, m')) :
    ∃ reply o', Says task ret reply ∧ task.serve o = (reply, o') ∧ Implements m' o' := by
  rw [runOp_emsShow hrep] at hrun
  obtain ⟨rfl, rfl⟩ := Prod.mk.inj (Option.some.inj hrun)
  have hask : task.call.ask = .display id.toNat := by rw [hcall]; rfl
  have hhind : task.call.hindered task.env = !(task.env.lockList && task.env.lockEvent) := by
    rw [hcall]
    rfl
  cases hlocks : task.env.lockList && task.env.lockEvent with
  | false =>
    rw [hlocks] at hhind
    exact ⟨.refused, o, says_refused (Or.inr rfl), serve_hindered hhind o, l, es, hrep, hes, hvs⟩
  | true =>
    rw [hlocks] at hhind
    rw [serve_free hhind, hask, if_pos rfl, showReply]
    obtain ⟨hnone, hnone'⟩ | ⟨e, v, he, hv, hev⟩ := find_depicts hvs id
    · refine ⟨.refused, o, says_refused (Or.inr (by rw [hnone])), ?_, l, es, hrep, hes, hvs⟩
      simp only [Office.serve, Office.find, hnone']
    · obtain ⟨hmem, -⟩ := findId_eq_some he
      refine ⟨.venue v, o, ?_, ?_, l, es, hrep, hes, hvs⟩
      · rw [he, Says, hcall]
        exact ⟨rfl, hev.showBytes_eq (hes e hmem) (hrep.size e hmem)⟩
      · simp only [Office.serve, Office.find, hv]

theorem implements_list (hrep : Rep m l es) (hes : Fitting es)
    (hvs : List.Forall₂ Depicts es o.venues) (hcall : task.call = .emsListEvents)
    (hrun : runOp (emsListEvents task.env) m = some (ret, m')) :
    ∃ reply o', Says task ret reply ∧ task.serve o = (reply, o') ∧ Implements m' o' := by
  rw [runOp_emsListEvents hrep] at hrun
  obtain ⟨rfl, rfl⟩ := Prod.mk.inj (Option.some.inj hrun)
  have hhind : task.call.hindered task.env = !task.env.lockList := by rw [hcall]; rfl
  cases hlock : task.env.lockList with
  | false =>
    rw [hlock] at hhind
    exact ⟨.refused, o, says_refused (Or.inr rfl), serve_hindered hhind o, l, es, hrep, hes, hvs⟩
  | true =>
    rw [hlock] at hhind
    refine ⟨.events o.ids, o, says_events hvs hcall, ?_, l, es, hrep, hes, hvs⟩
    rw [serve_free hhind, hcall]
    rfl

/-- **Every operation does what the office does**, and says so. -/
theorem implements_step (h : Implements m o) (hsmall : Small o)
    (hrun : runOp (task.call.op task.env) m = some (ret, m')) :
    ∃ reply o', Says task ret reply ∧ task.serve o = (reply, o') ∧ Implements m' o' := by
  obtain ⟨l, es, hrep, hes, hvs⟩ := h
  cases hcall : task.call with
  | emsCreate id rows cols =>
    rw [hcall] at hrun
    exact implements_create hrep hes hvs hcall hrun
  | emsReserve id args =>
    rw [hcall] at hrun
    exact implements_reserve hrep hes hvs hsmall hcall hrun
  | emsShow id =>
    rw [hcall] at hrun
    exact implements_show hrep hes hvs hcall hrun
  | emsListEvents =>
    rw [hcall] at hrun
    exact implements_list hrep hes hvs hcall hrun

end Steps

end EventServer
