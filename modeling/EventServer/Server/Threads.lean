import EventServer.Lib.Linearizability
import EventServer.Server.Replies

/-
  The operations as worker threads run them.

  `server` is the store as an object with one- and two-step operations: `ems_create` and
  `ems_list_events` are one step under the list's lock, `ems_reserve` and `ems_show` look the
  event up under that lock and go on under the event's mutex. A step that faults has no result.
  `Did` says once what a completed call can do to the events; `first_did` and `second_did` prove
  it of the two steps, and every invariant of the store is derived from it. What a look-up
  found stays where it was (`server_stable`), so runs of any number of threads are
  linearizable, and run whole the two steps are the function itself (`whole_eq`).
-/

namespace EventServer

open Lib Op

/-! ## Calls -/

/-- The listed seats. -/
def SeatArgs.seats (args : SeatArgs) : List Seat := listed args.num_seats args.xs args.ys

/-- Both arrays hold at least `num_seats` elements. -/
def SeatArgs.Within (args : SeatArgs) : Prop :=
  args.num_seats.toNat ≤ args.xs.length ∧ args.num_seats.toNat ≤ args.ys.length

theorem SeatArgs.Within.length_le {args : SeatArgs} (h : args.Within) :
    args.num_seats.toNat ≤ (args.xs.zip args.ys).length := by
  rw [List.length_zip]
  exact Nat.le_min.2 h

/-- The arguments that list the given seats. -/
def SeatArgs.ofSeats (seats : List Seat) : SeatArgs :=
  ⟨UInt64.ofNat seats.length, seats.map Prod.fst, seats.map Prod.snd⟩

theorem SeatArgs.within_ofSeats (seats : List Seat) : (SeatArgs.ofSeats seats).Within := by
  constructor <;>
  · rw [SeatArgs.ofSeats, List.length_map, UInt64.toNat_ofNat']
    exact Nat.mod_le _ _

/-- The argument arrays of a reservation are long enough. -/
def Call.Valid : Call → Prop
  | .emsReserve _ args => args.Within
  | _ => True

/-- The number of seats of a new event fits `size_t`. -/
def Call.Fits : Call → Prop
  | .emsCreate _ num_rows num_cols => NoWrap num_rows num_cols
  | _ => True

/-- A call with the outcomes of its locks and allocations. -/
structure Task where
  call : Call
  env : Env := {}
  valid : call.Valid
  fits : call.Fits

/-- Run an operation on a memory with a fresh descriptor: its result, what it wrote and the
    memory after it. -/
def runOp {α : Type} (x : Op α) (m : Mem) : Option ((α × Bytes) × Mem) :=
  match x.run { mem := m } with
  | .ok (a, w) => some ((a, w.fd.written), w.mem)
  | .error _ => none

/-- A look-up that does not end the call passes on the event it found. -/
def looked : ((Int32 ⊕ Ptr) × Bytes) × Mem → ((Int32 × Bytes) × Mem) ⊕ Ptr
  | ((.inl code, bs), m) => .inl ((code, bs), m)
  | ((.inr event, _), _) => .inr event

/-- The store as an object whose operations take one or two atomic steps. -/
def server : TwoStep Mem Task Ptr (Int32 × Bytes) where
  first task m :=
    match task.call with
    | .emsCreate event_id num_rows num_cols =>
      (runOp (emsCreate task.env event_id num_rows num_cols) m).map .inl
    | .emsListEvents => (runOp (emsListEvents task.env) m).map .inl
    | .emsReserve event_id _ => (runOp (emsReserveLookup task.env event_id) m).map looked
    | .emsShow event_id => (runOp (emsShowLookup task.env event_id) m).map looked
  second task event m :=
    match task.call with
    | .emsReserve _ args =>
      runOp (emsReserveLocked task.env event args.num_seats args.xs args.ys) m
    | .emsShow _ => runOp (emsShowLocked task.env event) m
    | _ => none

section RunOp

variable {α : Type} {x : Op α} {m : Mem} {Q : α → World → Prop}

/-- A total specification gives the result of `runOp`. -/
theorem runOp_of_wp (h : wp x Q (fun _ => False) { mem := m }) :
    ∃ a w, runOp x m = some ((a, w.fd.written), w.mem) ∧ Q a w := by
  obtain ⟨a, w, hrun, hq⟩ := run_of_wp h
  exact ⟨a, w, by simp [runOp, hrun], hq⟩

theorem wp_of_runOp {E : Stop → Prop} {r : (α × Bytes) × Mem} (hr : runOp x m = some r)
    (h : wp x Q E { mem := m }) : ∃ a w, r = ((a, w.fd.written), w.mem) ∧ Q a w := by
  unfold runOp at hr
  split at hr
  · next a w hrun => exact ⟨a, w, (Option.some.inj hr).symm, wp_run_ok h hrun⟩
  · cases hr

end RunOp

/-! ## What a call does -/

/-- Every event is small enough for its seats to have their own cells. -/
def Fitting (es : List Entry) : Prop := ∀ e ∈ es, NoWrap e.ev.rows e.ev.cols

/-- What a completed call can have done to the events, with its return code and reply. -/
def Did : Call → Int32 × Bytes → List Entry → List Entry → Prop
  | .emsCreate id rows cols, ret, es, es' => ret.2 = [] ∧
      (ret.1 = 1 ∧ es' = es ∨
        ret.1 = 0 ∧ findId es id = none ∧ ∃ m, es' = es ++ [newEntry m id rows cols])
  | .emsReserve id args, ret, es, es' => ret.2 = [] ∧
      (ret.1 = 1 ∧ es' = es ∨
        ret.1 = 0 ∧ ∃ e, findId es id = some e ∧ Accepts e args.seats ∧
          es' = reserveAt es e.event args.seats)
  | .emsShow id, ret, es, es' => es' = es ∧ (ret = showReply es id ∨ ret = (1, intBytes 1))
  | .emsListEvents, ret, es, es' => es' = es ∧ (ret = listReply es ∨ ret = (1, intBytes 1))

/-- No call moves, resizes or removes an event. -/
theorem Did.keys_prefix {call : Call} {ret : Int32 × Bytes} {es es' : List Entry}
    (h : Did call ret es es') : es.map Entry.key <+: es'.map Entry.key := by
  cases call with
  | emsCreate id rows cols =>
    obtain ⟨-, ⟨-, rfl⟩ | ⟨-, -, m, rfl⟩⟩ := h
    · exact List.prefix_refl _
    · rw [List.map_append]
      exact List.prefix_append _ _
  | emsReserve id args =>
    obtain ⟨-, ⟨-, rfl⟩ | ⟨-, e, -, -, rfl⟩⟩ := h
    · exact List.prefix_refl _
    · exact reserveAt_keys es e.event args.seats ▸ List.prefix_refl _
  | emsShow id => exact h.1 ▸ List.prefix_refl _
  | emsListEvents => exact h.1 ▸ List.prefix_refl _

/-- The entries of a reserved event differ from those before only in counter and cells. -/
theorem mem_reserveAt {es : List Entry} {p : Ptr} {seats : List Seat} {e' : Entry}
    (h : e' ∈ reserveAt es p seats) :
    ∃ e ∈ es, e'.key = e.key ∧ (e.event = p ∧ e' = e.reserved seats ∨ e.event ≠ p ∧ e' = e) := by
  obtain ⟨e, he, rfl⟩ := List.mem_map.1 h
  refine ⟨e, he, ?_⟩
  by_cases hp : e.event = p
  · simp [hp]
  · simp [hp]

theorem Did.fitting {call : Call} {ret : Int32 × Bytes} {es es' : List Entry}
    (h : Did call ret es es') (hfits : call.Fits) (hes : Fitting es) : Fitting es' := by
  cases call with
  | emsCreate id rows cols =>
    obtain ⟨-, ⟨-, rfl⟩ | ⟨-, -, m, rfl⟩⟩ := h
    · exact hes
    · intro e he
      rcases List.mem_append.1 he with he | he
      · exact hes e he
      · rw [List.mem_singleton.1 he]
        exact hfits
  | emsReserve id args =>
    obtain ⟨-, ⟨-, rfl⟩ | ⟨-, e, -, -, rfl⟩⟩ := h
    · exact hes
    · intro e' he'
      obtain ⟨x, hx, hkey, -⟩ := mem_reserveAt he'
      have hrows : e'.ev.rows = x.ev.rows := congrArg Entry.Key.rows hkey
      have hcols : e'.ev.cols = x.ev.cols := congrArg Entry.Key.cols hkey
      rw [hrows, hcols]
      exact hes x hx
  | emsShow id => exact h.1 ▸ hes
  | emsListEvents => exact h.1 ▸ hes

/-- A look-up that found an event finds it at the same place as long as no event moves. -/
theorem lookupResult_stable {es es' : List Entry} {id : UInt32} {p : Ptr}
    (hids : (es'.map fun e => e.ev.id).Nodup) (hkeys : es.map Entry.key <+: es'.map Entry.key)
    (h : lookupResult es id = .inr p) : lookupResult es' id = .inr p := by
  unfold lookupResult at h ⊢
  cases hf : findId es id with
  | none => rw [hf] at h; cases h
  | some e =>
    rw [hf] at h
    obtain ⟨he, hid⟩ := findId_eq_some hf
    obtain ⟨e', he', hkey⟩ : ∃ e' ∈ es', e'.key = e.key :=
      List.mem_map.1 (hkeys.subset (List.mem_map_of_mem he))
    have hid' : e'.ev.id = id := (congrArg Entry.Key.id hkey).trans hid
    rw [← hid', findId_of_mem hids he']
    exact (congrArg (fun k => (Sum.inr k.event : Int32 ⊕ Ptr)) hkey).trans h

/-! ## The two steps -/

variable {m : Mem} {l : Ptr} {es : List Entry}

/-- The memory represents some fitting events. -/
def Sound (l : Ptr) (m : Mem) : Prop := ∃ es, Rep m l es ∧ Fitting es

/-- After `ems_init` the list is there and empty. -/
theorem rep_of_emsInit {env : Env} {bs : Bytes}
    (h : runOp (emsInit env) {} = some ((0, bs), m)) : ∃ l, Rep m l [] := by
  have hwp : wp (emsInit env) (fun code w => code = 0 → ∃ l, Rep w.mem l [])
      (fun _ => True) ({ mem := {} } : World) := by
    simp only [emsInit, createList, wp_bind, wp_get, wp_ite, wp_allocate, wp_setMem, wp_pure]
    refine ⟨by simp, fun _ => ⟨fun _ => ?_, fun _ => by simp⟩⟩
    simp only [wp_release]
    refine ⟨fun _ _ => ⟨0, rfl, rfl, rfl, ?_, ?_, ?_, ?_, List.nodup_nil, List.nodup_nil⟩, fun _ => ?_⟩
    all_goals simp [Heap.free, Heap.fresh, Heap.alloc, Heap.load]
  obtain ⟨code, w, hr, hpost⟩ := wp_of_runOp h hwp
  cases hr
  exact hpost rfl

/-- The memory after `ems_init`. -/
def freshMem : Mem := { eventList := some 0, lists := ⟨[some ⟨none, none⟩]⟩ }

theorem emsInit_freshMem : runOp (emsInit {}) {} = some ((0, []), freshMem) := rfl

theorem rep_freshMem : Rep freshMem 0 [] := by
  obtain ⟨l, h⟩ := rep_of_emsInit emsInit_freshMem
  obtain rfl : 0 = l := Option.some.inj h.root
  exact h

theorem runOp_emsReserveLookup (h : Rep m l es) (env : Env) (id : UInt32) :
    runOp (emsReserveLookup env id) m = some
      ((if env.lockList && env.unlockList then lookupResult es id else .inl 1, []), m) := by
  obtain ⟨r, w, hrun, hm, hf, rfl⟩ := runOp_of_wp (x := emsReserveLookup env id)
    (wp_emsReserveLookup (w := { mem := m }) h id)
  rw [hrun, hm, hf]

theorem runOp_emsShowLookup (h : Rep m l es) (env : Env) (id : UInt32) :
    ∃ r, r = (if env.lockList then lookupResult es id else .inl 1) ∧
      runOp (emsShowLookup env id) m =
        some ((r, if r.isLeft then intBytes 1 else []), m) := by
  obtain ⟨r, w, hrun, hm, hr, hcalm⟩ :=
    runOp_of_wp (x := emsShowLookup env id) (wp_emsShowLookup (w := { mem := m }) h id)
  refine ⟨r, hr, ?_⟩
  rw [hrun, hm, (hcalm calm_nil).1]
  rfl

theorem runOp_emsShowLocked (h : Rep m l es) (env : Env) {e : Entry} (he : e ∈ es) :
    runOp (emsShowLocked env e.event) m =
      some (if env.lockEvent then (0, showBytes e) else (1, intBytes 1), m) := by
  obtain ⟨code, w, hrun, hr⟩ := runOp_of_wp (x := emsShowLocked env e.event)
    (wp_emsShowLocked (w := { mem := m }) h he)
  obtain ⟨hcode, hwritten, -⟩ := hr.calm calm_nil
  rw [hrun, hr.mem, hcode, hwritten]
  rfl

theorem runOp_emsShow (h : Rep m l es) (env : Env) (id : UInt32) :
    runOp (emsShow env id) m = some
      (if env.lockList && env.lockEvent then showReply es id else (1, intBytes 1), m) := by
  obtain ⟨code, w, hrun, hr⟩ := runOp_of_wp (x := emsShow env id)
    (wp_emsShow (w := { mem := m }) h id)
  obtain ⟨hcode, hwritten, -⟩ := hr.calm calm_nil
  rw [hrun, hr.mem, hcode, hwritten]
  rfl

theorem runOp_emsListEvents (h : Rep m l es) (env : Env) :
    runOp (emsListEvents env) m = some
      (if env.lockList then listReply es else (1, intBytes 1), m) := by
  obtain ⟨code, w, hrun, hr⟩ := runOp_of_wp (x := emsListEvents env)
    (wp_emsListEvents (w := { mem := m }) h)
  obtain ⟨hcode, hwritten, -⟩ := hr.calm calm_nil
  rw [hrun, hr.mem, hcode, hwritten]
  rfl

/-- `ems_create` never faults. -/
theorem runOp_emsCreate (h : Rep m l es) (env : Env) (id : UInt32) (rows cols : UInt64) :
    ∃ ret m' es', runOp (emsCreate env id rows cols) m = some (ret, m') ∧ Rep m' l es' ∧
      Did (.emsCreate id rows cols) ret es es' := by
  obtain ⟨code, w, hrun, hf, ⟨rfl, hrep, -⟩ | ⟨rfl, hnew, -, -, hrep⟩⟩ :=
    runOp_of_wp (x := emsCreate env id rows cols) (wp_emsCreate (w := { mem := m }) h rows cols)
  · exact ⟨_, _, es, hrun, hrep, by rw [hf], Or.inl ⟨rfl, rfl⟩⟩
  · exact ⟨_, _, _, hrun, hrep, by rw [hf], Or.inr ⟨rfl, hnew, m, rfl⟩⟩

/-- The first event can be created. -/
theorem runOp_emsCreate_first (h : Rep m l []) (id : UInt32) (rows cols : UInt64) :
    ∃ m', runOp (emsCreate {} id rows cols) m = some ((0, []), m') ∧
      Rep m' l [newEntry m id rows cols] := by
  obtain ⟨code, w, hrun, hf, ⟨-, -, hno⟩ | ⟨rfl, -, -, -, hrep⟩⟩ :=
    runOp_of_wp (x := emsCreate {} id rows cols) (wp_emsCreate (w := { mem := m }) h rows cols)
  · simp [findId, Env.allocates] at hno
  · exact ⟨w.mem, by rw [hrun, hf], hrep⟩

/-- The code and the memory after `ems_reserve` has had the mutex of an event. -/
def reserveOutcome (m : Mem) (env : Env) (e : Entry) (args : SeatArgs) : (Int32 × Bytes) × Mem :=
  if env.lockEvent = true ∧ Accepts e args.seats then ((0, []), m.reserve e args.seats)
  else ((1, []), m)

/-- What `emsReserveLocked` does, from a world that may carry messages and accesses already. -/
theorem wp_reserveOutcome {w : World} (h : Rep w.mem l es) (env : Env) {e : Entry} (he : e ∈ es)
    {args : SeatArgs} (hargs : args.Within) (hfit : NoWrap e.ev.rows e.ev.cols)
    {E : Stop → Prop} :
    wp (emsReserveLocked env e.event args.num_seats args.xs args.ys) (fun code w' =>
      w'.fd = w.fd ∧ ((code, []), w'.mem) = reserveOutcome w.mem env e args) E w := by
  refine wp_mono (wp_emsReserveLocked h he hargs.length_le fun hn _ => absurd hfit hn)
    (fun code w' hpost => ?_) fun _ he => he
  obtain ⟨hf, ⟨rfl, hm, hrej⟩ | ⟨rfl, hlock, hacc, hm, -⟩⟩ := hpost
  · refine ⟨hf, ?_⟩
    rw [reserveOutcome, if_neg fun hc => hrej hc.1 hc.2, hm]
  · refine ⟨hf, ?_⟩
    rw [reserveOutcome, if_pos ⟨hlock, hacc⟩, hm]
    rfl

theorem runOp_emsReserveLocked (h : Rep m l es) (env : Env) {e : Entry} (he : e ∈ es)
    {args : SeatArgs} (hargs : args.Within) (hfit : NoWrap e.ev.rows e.ev.cols) :
    runOp (emsReserveLocked env e.event args.num_seats args.xs args.ys) m =
      some (reserveOutcome m env e args) := by
  obtain ⟨code, w, hrun, hf, hout⟩ :=
    runOp_of_wp (wp_reserveOutcome (w := { mem := m }) h env he hargs hfit)
  rw [hrun, ← hout, hf]

theorem reserveOutcome_did (h : Rep m l es) (env : Env) {e : Entry} {id : UInt32}
    (hfind : findId es id = some e) (args : SeatArgs) :
    ∃ es', Rep (reserveOutcome m env e args).2 l es' ∧
      Did (.emsReserve id args) (reserveOutcome m env e args).1 es es' := by
  unfold reserveOutcome
  split
  · next hacc =>
    exact ⟨_, h.reserve (findId_eq_some hfind).1 args.seats, rfl,
      Or.inr ⟨rfl, e, hfind, hacc.2, rfl⟩⟩
  · exact ⟨es, h, rfl, Or.inl ⟨rfl, rfl⟩⟩

/-- Every first step has a result: it ends the call, or it has found the event. -/
theorem first_did (h : Rep m l es) (task : Task) :
    (∃ ret m' es', server.first task m = some (.inl (ret, m')) ∧ Rep m' l es' ∧
      Did task.call ret es es') ∨
    ∃ id e, server.first task m = some (.inr e.event) ∧ findId es id = some e ∧
      (task.call = .emsShow id ∨ ∃ args, task.call = .emsReserve id args) := by
  obtain ⟨call, env, valid, fits⟩ := task
  cases call with
  | emsCreate id rows cols =>
    obtain ⟨ret, m', es', hrun, hrep, hdid⟩ := runOp_emsCreate h env id rows cols
    exact Or.inl ⟨ret, m', es', by simp [server, hrun], hrep, hdid⟩
  | emsListEvents =>
    have hrun := runOp_emsListEvents h env
    refine Or.inl ⟨if env.lockList then listReply es else (1, intBytes 1), m, es,
      by simp [server, hrun], h, rfl, ?_⟩
    cases env.lockList
    · exact Or.inr rfl
    · exact Or.inl rfl
  | emsReserve id args =>
    have hrun := runOp_emsReserveLookup h env id
    rcases lookup_cases es id (env.lockList && env.unlockList) with hr | ⟨e, hfind, hr⟩
    · rw [hr] at hrun
      exact Or.inl ⟨(1, []), m, es, by simp [server, hrun, looked], h, rfl, Or.inl ⟨rfl, rfl⟩⟩
    · rw [hr] at hrun
      exact Or.inr ⟨id, e, by simp [server, hrun, looked], hfind, Or.inr ⟨args, rfl⟩⟩
  | emsShow id =>
    obtain ⟨r, hr', hrun⟩ := runOp_emsShowLookup h env id
    rcases lookup_cases es id env.lockList with hr | ⟨e, hfind, hr⟩
    · rw [hr'.trans hr] at hrun
      exact Or.inl ⟨(1, intBytes 1), m, es, by simp [server, hrun, looked], h, rfl, Or.inr rfl⟩
    · rw [hr'.trans hr] at hrun
      exact Or.inr ⟨id, e, by simp [server, hrun, looked], hfind, Or.inl rfl⟩

/-- Every second step at an event that was found has a result. -/
theorem second_did (h : Rep m l es) (hes : Fitting es) {task : Task} {p : Ptr}
    (hp : server.first task m = some (.inr p)) :
    ∃ ret m' es', server.second task p m = some (ret, m') ∧ Rep m' l es' ∧
      Did task.call ret es es' := by
  obtain ⟨ret, m', es', hfirst, -⟩ | ⟨id, e, hfirst, hfind, hcall⟩ := first_did h task
  · rw [hfirst] at hp
    cases hp
  · rw [hfirst] at hp
    cases hp
    obtain ⟨he, hid⟩ := findId_eq_some hfind
    rcases hcall with hcall | ⟨args, hcall⟩
    · have hrun := runOp_emsShowLocked h task.env he
      refine ⟨_, m, es, by simp only [server, hcall]; exact hrun, h, ?_⟩
      rw [hcall]
      refine ⟨rfl, ?_⟩
      cases task.env.lockEvent
      · exact Or.inr rfl
      · exact Or.inl (by simp [showReply, hfind])
    · have hargs : args.Within := by
        have := task.valid
        rwa [hcall] at this
      have hrun := runOp_emsReserveLocked h task.env he hargs (hes e he)
      obtain ⟨es', hrep, hdid⟩ := reserveOutcome_did h task.env hfind args
      refine ⟨_, _, es', by simp only [server, hcall]; exact hrun, hrep, ?_⟩
      rw [hcall]
      exact hdid

theorem first_did_of (h : Rep m l es) {task : Task} {ret : Int32 × Bytes} {m' : Mem}
    (hr : server.first task m = some (.inl (ret, m'))) :
    ∃ es', Rep m' l es' ∧ Did task.call ret es es' := by
  obtain ⟨_, _, es', hfirst, h', hdid⟩ | ⟨_, _, hfirst, -⟩ := first_did h task
  · rw [hfirst] at hr
    cases hr
    exact ⟨es', h', hdid⟩
  · rw [hfirst] at hr
    cases hr

theorem second_did_of (h : Rep m l es) (hes : Fitting es) {task : Task} {p : Ptr}
    {ret : Int32 × Bytes} {m' : Mem} (hp : server.first task m = some (.inr p))
    (hr : server.second task p m = some (ret, m')) :
    ∃ es', Rep m' l es' ∧ Did task.call ret es es' := by
  obtain ⟨_, _, es', hsecond, h', hdid⟩ := second_did h hes hp
  rw [hsecond] at hr
  cases hr
  exact ⟨es', h', hdid⟩

/-- No reservation succeeds before it has had the mutex. -/
theorem first_reserve_fails (h : Rep m l es) {task : Task} {id : UInt32} {args : SeatArgs}
    (hcall : task.call = .emsReserve id args) {ret : Int32 × Bytes} {m' : Mem}
    (hr : server.first task m = some (.inl (ret, m'))) : ret.1 = 1 := by
  simp only [server, hcall, runOp_emsReserveLookup h, Option.map_some, Option.some.injEq] at hr
  rcases lookup_cases es id (task.env.lockList && task.env.unlockList) with hl | ⟨e, -, hl⟩
  · rw [hl] at hr
    cases hr
    rfl
  · rw [hl] at hr
    cases hr

/-- The second step of a reservation, at the event that its first step found. -/
theorem second_reserve (h : Rep m l es) (hes : Fitting es) {task : Task} {id : UInt32}
    {args : SeatArgs} (hcall : task.call = .emsReserve id args) {p : Ptr}
    (hp : server.first task m = some (.inr p)) :
    ∃ e, findId es id = some e ∧ p = e.event ∧
      server.second task p m = some (reserveOutcome m task.env e args) := by
  obtain ⟨_, _, _, hfirst, -⟩ | ⟨id', e, hfirst, hfind, hcall'⟩ := first_did h task
  · rw [hfirst] at hp
    cases hp
  · rw [hfirst] at hp
    cases hp
    obtain ⟨args', rfl, rfl⟩ : ∃ args', id' = id ∧ args' = args := by
      rcases hcall' with hcall' | ⟨args', hcall'⟩
      · rw [hcall] at hcall'
        cases hcall'
      · rw [hcall] at hcall'
        cases hcall'
        exact ⟨args, rfl, rfl⟩
    obtain ⟨he, -⟩ := findId_eq_some hfind
    have hargs : args'.Within := by
      have := task.valid
      rwa [hcall] at this
    exact ⟨e, hfind, rfl, by
      simp only [server, hcall]
      exact runOp_emsReserveLocked h task.env he hargs (hes e he)⟩

/-- Run whole, the two steps of an operation are the operation. -/
theorem whole_eq (h : Rep m l es) (hes : Fitting es) (task : Task) :
    server.whole task m = runOp (task.call.op task.env) m := by
  obtain ⟨call, env, valid, fits⟩ := task
  cases call with
  | emsCreate id rows cols =>
    simp only [TwoStep.whole, server, Call.op]
    cases runOp (emsCreate env id rows cols) m <;> rfl
  | emsListEvents =>
    simp only [TwoStep.whole, server, Call.op]
    cases runOp (emsListEvents env) m <;> rfl
  | emsReserve id args =>
    have hrun := runOp_emsReserveLookup h env id
    have hwp : wp (emsReserveLookup env id) _ (fun _ => False) { mem := m } :=
      wp_emsReserveLookup h id
    simp only [TwoStep.whole, server, Call.op, hrun, Option.map_some]
    rcases lookup_cases es id (env.lockList && env.unlockList) with hr | ⟨e, hfind, hr⟩
    · rw [hr] at hwp ⊢
      have : wp (emsReserve env id args.num_seats args.xs args.ys)
          (fun code w' => code = 1 ∧ w'.mem = m ∧ w'.fd = {}) (fun _ => False) { mem := m } := by
        rw [emsReserve, wp_bind]
        refine wp_mono hwp (fun r w' hpost => ?_) fun _ he => he
        obtain ⟨hm, hf, rfl⟩ := hpost
        exact ⟨rfl, hm, hf⟩
      obtain ⟨code, w', hop, rfl, hm, hf⟩ := runOp_of_wp this
      rw [hop, hm, hf]
      rfl
    · rw [hr] at hwp ⊢
      obtain ⟨he, -⟩ := findId_eq_some hfind
      have : wp (emsReserve env id args.num_seats args.xs args.ys) (fun code w' => w'.fd = {} ∧
          ((code, []), w'.mem) = reserveOutcome m env e args) (fun _ => False) { mem := m } := by
        rw [emsReserve, wp_bind]
        refine wp_mono hwp (fun r w' hpost => ?_) fun _ he => he
        obtain ⟨hm, hf, rfl⟩ := hpost
        have := wp_reserveOutcome (w := w') (by rwa [hm]) env he valid (hes e he) (E := fun _ => False)
        rw [hm, hf] at this
        exact this
      obtain ⟨code, w', hop, hf, hout⟩ := runOp_of_wp this
      rw [hop, hf]
      exact (runOp_emsReserveLocked h env he valid (hes e he)).trans (congrArg some hout.symm)
  | emsShow id =>
    obtain ⟨r, hr', hrun⟩ := runOp_emsShowLookup h env id
    simp only [TwoStep.whole, server, Call.op, hrun, Option.map_some, runOp_emsShow h]
    cases hlock : env.lockList with
    | false =>
      obtain rfl : r = .inl 1 := by simpa [hlock] using hr'
      rfl
    | true =>
      cases hfind : findId es id with
      | none =>
        obtain rfl : r = .inl 1 := by simpa [hlock, lookupResult, hfind] using hr'
        cases env.lockEvent <;> simp [looked, showReply, hfind]
      | some e =>
        obtain rfl : r = .inr e.event := by simpa [hlock, lookupResult, hfind] using hr'
        have hrun := runOp_emsShowLocked h env (findId_eq_some hfind).1
        simp only [looked, Option.bind_some, hrun]
        cases env.lockEvent <;> simp [showReply, hfind]

/-- The id of the event that a task goes on with after its first step, if its locks hold. -/
def Task.looksUp (task : Task) : Option UInt32 :=
  match task.call with
  | .emsReserve id _ => if task.env.lockList && task.env.unlockList then some id else none
  | .emsShow id => if task.env.lockList then some id else none
  | _ => none

/-- A first step leads to an event exactly when the look-up of its id does. -/
theorem first_found_iff (h : Rep m l es) {task : Task} {p : Ptr} :
    server.first task m = some (.inr p) ↔
      ∃ id, task.looksUp = some id ∧ lookupResult es id = .inr p := by
  have hlooked : ∀ (r : Int32 ⊕ Ptr) (bs : Bytes), looked ((r, bs), m) = .inr p ↔ r = .inr p := by
    intro r bs
    cases r <;> simp [looked]
  obtain ⟨call, env, valid, fits⟩ := task
  cases call with
  | emsCreate id rows cols => simp [server, Task.looksUp]
  | emsListEvents => simp [server, Task.looksUp]
  | emsReserve id args =>
    simp only [server, runOp_emsReserveLookup h, Option.map_some, Option.some.injEq, hlooked,
      Task.looksUp]
    cases env.lockList && env.unlockList <;> simp
  | emsShow id =>
    obtain ⟨r, hr, hrun⟩ := runOp_emsShowLookup h env id
    simp only [server, hrun, Option.map_some, Option.some.injEq, hlooked, Task.looksUp, hr]
    cases env.lockList <;> simp

/-- **What a look-up found stays found**, whatever step another call takes. -/
theorem server_stable (l : Ptr) : server.Stable (Sound l) := by
  have found : ∀ {m m' : Mem} {es es' : List Entry} {task : Task} {p : Ptr}, Rep m l es →
      Rep m' l es' → es.map Entry.key <+: es'.map Entry.key →
      server.first task m = some (.inr p) → server.first task m' = some (.inr p) := by
    intro m m' es es' task p h h' hkeys hp
    obtain ⟨id, hid, hl⟩ := (first_found_iff h).1 hp
    exact (first_found_iff h').2 ⟨id, hid, lookupResult_stable h'.ids hkeys hl⟩
  refine ⟨?_, ?_, ?_, ?_⟩
  · rintro m task ret m' ⟨es, h, hes⟩ hr
    obtain ⟨es', h', hdid⟩ := first_did_of h hr
    exact ⟨es', h', hdid.fitting task.fits hes⟩
  · rintro m task p ret m' ⟨es, h, hes⟩ hp hr
    obtain ⟨es', h', hdid⟩ := second_did_of h hes hp hr
    exact ⟨es', h', hdid.fitting task.fits hes⟩
  · rintro m task p task' ret m' ⟨es, h, hes⟩ hp hr
    obtain ⟨es', h', hdid⟩ := first_did_of h hr
    exact found h h' hdid.keys_prefix hp
  · rintro m task p task' p' ret m' ⟨es, h, hes⟩ hp hp' hr
    obtain ⟨es', h', hdid⟩ := second_did_of h hes hp' hr
    exact found h h' hdid.keys_prefix hp

end EventServer
