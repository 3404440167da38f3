import EventServer.Server.Renaming
import EventServer.Server.Threads

/-
  Which operations may be exchanged.

  `Exchange` says that two calls give the same codes in either order, and stores that are related.
  Calls with different ids that reserve or create may be exchanged: the store is the same
  (`SameStore`), or, for two creates, the same up to the order of the two new events
  (`SameButOrder`). Reservations of one event that share no seat may be run in any order: each is
  accepted or not by itself, and the final cells are the same up to a renaming of the numbers
  that were given out (`Renamed`). Everything is in `independent_operations_commute`.
-/

namespace EventServer

open Lib Op

/-- Run calls one after the other, none of whose locks and allocations fail: their codes and
    replies, and the memory after them. -/
def runCalls : Mem → List Call → Option (List (Int32 × Bytes) × Mem)
  | m, [] => some ([], m)
  | m, c :: cs => (runOp (c.op {}) m).bind fun r =>
      (runCalls r.2 cs).map fun q => (r.1 :: q.1, q.2)

/-- Both calls give the same results in either order, and the two memories are related by `R`. -/
def Exchange (m : Mem) (c₁ c₂ : Call) (R : Mem → Mem → Prop) : Prop :=
  ∃ r₁ r₂ m₁ m₂, runCalls m [c₁, c₂] = some ([r₁, r₂], m₁) ∧
    runCalls m [c₂, c₁] = some ([r₂, r₁], m₂) ∧ R m₁ m₂

/-- The two memories hold the same events at the same places. -/
def SameStore (m m' : Mem) : Prop := ∃ l es, Rep m l es ∧ Rep m' l es

/-- The two memories hold the events `es` and behind them at most two more, the same in both, which
    may be in the other order. -/
def SameButOrder (es : List Entry) (m m' : Mem) : Prop :=
  ∃ l xs ys xs' ys', Rep m l (es ++ xs ++ ys) ∧ Rep m' l (es ++ ys' ++ xs') ∧
    xs.length ≤ 1 ∧ ys.length ≤ 1 ∧
    xs'.map Entry.contents = xs.map Entry.contents ∧ ys'.map Entry.contents = ys.map Entry.contents

variable {m m' : Mem} {l : Ptr} {es : List Entry}

theorem runCalls_pair {c₁ c₂ : Call} {r₁ r₂ : Int32 × Bytes} {m₁ m₂ : Mem}
    (h₁ : runOp (c₁.op {}) m = some (r₁, m₁)) (h₂ : runOp (c₂.op {}) m₁ = some (r₂, m₂)) :
    runCalls m [c₁, c₂] = some ([r₁, r₂], m₂) := by
  simp [runCalls, h₁, h₂]

/-! ## One call -/

/-- The event that accepts a reservation, if there is one. -/
def accepting (es : List Entry) (id : UInt32) (seats : List Seat) : Option Entry :=
  (findId es id).filter fun e => Accepts e seats

/-- The code of a reservation that `o` accepts, and the events after it. -/
def bookIn (es : List Entry) (o : Option Entry) (seats : List Seat) : Int32 × List Entry :=
  match o with
  | none => (1, es)
  | some e => (0, reserveAt es e.event seats)

theorem bookIn_code (es es' : List Entry) (o : Option Entry) (seats : List Seat) :
    (bookIn es' o seats).1 = (bookIn es o seats).1 := by
  cases o <;> rfl

/-- The code of a reservation and the events after it, when no lock fails. -/
def reserveIn (es : List Entry) (id : UInt32) (seats : List Seat) : Int32 × List Entry :=
  bookIn es (accepting es id seats) seats

/-- What a creation adds to the events, when no lock or allocation fails. -/
def newIn (es : List Entry) (e : Entry) : List Entry :=
  if (findId es e.ev.id).isSome then [] else [e]

/-- The code of a creation and the events after it, when no lock or allocation fails. -/
def createIn (es : List Entry) (e : Entry) : Int32 × List Entry :=
  (if (findId es e.ev.id).isSome then 1 else 0, es ++ newIn es e)

theorem accepting_eq_some {id : UInt32} {seats : List Seat} {e : Entry} :
    accepting es id seats = some e ↔ findId es id = some e ∧ Accepts e seats := by
  simp [accepting, Option.filter_eq_some_iff]

theorem accepting_eq_none {id : UInt32} {seats : List Seat} :
    accepting es id seats = none ↔ ∀ e, findId es id = some e → ¬ Accepts e seats := by
  simp [accepting, Option.filter_eq_none_iff]

/-- `m'` has handed out as many blocks as `m`. -/
def SameFresh (m m' : Mem) : Prop :=
  m'.nodes.fresh = m.nodes.fresh ∧ m'.events.fresh = m.events.fresh ∧ m'.cells.fresh = m.cells.fresh

theorem newEntry_congr (h : SameFresh m m') (id : UInt32) (rows cols : UInt64) :
    newEntry m' id rows cols = newEntry m id rows cols := by
  rw [newEntry, newEntry, h.1, h.2.1, h.2.2]

theorem runOp_reserve (h : Rep m l es) (id : UInt32) {args : SeatArgs} (hargs : args.Within)
    (hfit : ∀ e, findId es id = some e → NoWrap e.ev.rows e.ev.cols) :
    ∃ m', Rep m' l (reserveIn es id args.seats).2 ∧ SameFresh m m' ∧
      runOp ((Call.emsReserve id args).op {}) m =
        some (((reserveIn es id args.seats).1, []), m') := by
  obtain ⟨code, w, hrun, hf, hcase⟩ :=
    runOp_of_wp (x := emsReserve {} id args.num_seats args.xs args.ys)
      (wp_emsReserve (w := { mem := m }) h hargs.length_le fun e he hn _ => absurd (hfit e he) hn)
  refine ⟨w.mem, ?_⟩
  rw [hf] at hrun
  obtain ⟨rfl, hm, hrej⟩ | ⟨rfl, -, e, hfind, hacc, hm, -⟩ := hcase
  · have hnone : accepting es id args.seats = none := accepting_eq_none.2 (hrej rfl)
    rw [reserveIn, hnone]
    exact ⟨hm ▸ h, hm ▸ ⟨rfl, rfl, rfl⟩, hrun⟩
  · have hsome : accepting es id args.seats = some e := accepting_eq_some.2 ⟨hfind, hacc⟩
    rw [reserveIn, hsome]
    refine ⟨hm ▸ h.reserve (findId_eq_some hfind).1 args.seats, ?_, hrun⟩
    rw [hm]
    exact ⟨rfl, List.length_set .., List.length_set ..⟩

theorem runOp_create (h : Rep m l es) (id : UInt32) (rows cols : UInt64) :
    ∃ m', Rep m' l (createIn es (newEntry m id rows cols)).2 ∧
      runOp ((Call.emsCreate id rows cols).op {}) m =
        some (((createIn es (newEntry m id rows cols)).1, []), m') := by
  obtain ⟨code, w, hrun, hf, hcase⟩ := runOp_of_wp (x := emsCreate {} id rows cols)
    (wp_emsCreate (w := { mem := m }) h rows cols)
  rw [hf] at hrun
  refine ⟨w.mem, ?_⟩
  have hid : (newEntry m id rows cols).ev.id = id := rfl
  rw [createIn, newIn, hid]
  obtain ⟨rfl, hrep, hwhy⟩ | ⟨rfl, hnew, -, -, hrep⟩ := hcase
  · have hsome : (findId es id).isSome = true := by simpa [Env.allocates] using hwhy
    rw [if_pos hsome, if_pos hsome, List.append_nil]
    exact ⟨hrep, hrun⟩
  · rw [hnew]
    exact ⟨hrep, hrun⟩

/-! ## What a call leaves alone -/

/-- A reservation makes no difference to the look-up of another event. -/
theorem findId_reserveAt (h : Rep m l es) {e : Entry} (he : e ∈ es) (seats : List Seat)
    {id : UInt32} (hne : e.ev.id ≠ id) : findId (reserveAt es e.event seats) id = findId es id := by
  have hids : ∀ x : Entry, (if x.event = e.event then x.reserved seats else x).ev.id = x.ev.id :=
    fun x => by split <;> rfl
  rw [findId, reserveAt, List.find?_map]
  simp only [Function.comp_def, hids]
  rw [← findId]
  cases hf : findId es id with
  | none => rfl
  | some x =>
    obtain ⟨hx, hid⟩ := findId_eq_some hf
    rw [Option.map_some, if_neg]
    intro hp
    obtain rfl := h.event_inj hx he hp
    exact hne hid

theorem findId_reserveIn (h : Rep m l es) {id id' : UInt32} (hne : id ≠ id') (seats : List Seat) :
    findId (reserveIn es id seats).2 id' = findId es id' := by
  rw [reserveIn]
  cases hacc : accepting es id seats with
  | none => rfl
  | some e =>
    obtain ⟨he, hid⟩ := findId_eq_some (accepting_eq_some.1 hacc).1
    exact findId_reserveAt h he seats (hid ▸ hne)

theorem findId_createIn {e : Entry} {id : UInt32} (hne : e.ev.id ≠ id) :
    findId (createIn es e).2 id = findId es id := by
  rw [createIn, newIn]
  split
  · rw [List.append_nil]
  · simp [findId, List.find?_append, hne]

theorem reserveAt_comm {p q : Ptr} (hne : p ≠ q) (a b : List Seat) :
    reserveAt (reserveAt es p a) q b = reserveAt (reserveAt es q b) p a := by
  rw [reserveAt, reserveAt, List.map_map, reserveAt, reserveAt, List.map_map]
  refine List.map_congr_left fun x _ => ?_
  have hev : ∀ s, (x.reserved s).event = x.event := fun _ => rfl
  simp only [Function.comp_def]
  by_cases hp : x.event = p
  · have hq : ¬ x.event = q := fun hq => hne (hp.symm.trans hq)
    simp only [if_pos hp, if_neg hq, hev]
  · by_cases hq : x.event = q
    · simp only [if_neg hp, if_pos hq, hev]
    · simp only [if_neg hp, if_neg hq]

theorem length_newIn (es : List Entry) (x : Entry) : (newIn es x).length ≤ 1 := by
  rw [newIn]
  split <;> simp

/-- Code and contents of a creation depend only on the id, wherever the new event is. -/
theorem createIn_congr (es es' : List Entry) {x x' : Entry} (hx : x'.contents = x.contents)
    (hfind : findId es' x.ev.id = findId es x.ev.id) :
    (createIn es' x').1 = (createIn es x).1 ∧
      (newIn es' x').map Entry.contents = (newIn es x).map Entry.contents := by
  have hid : x'.ev.id = x.ev.id := congrArg Contents.id hx
  rw [createIn, createIn, newIn, newIn, hid, hfind]
  refine ⟨rfl, ?_⟩
  split
  · rfl
  · rw [List.map_singleton, List.map_singleton, hx]

/-! ## Different events -/

section Exchange

variable (h : Rep m l es) {id₁ id₂ : UInt32} (hne : id₁ ≠ id₂)

include h hne

theorem accepting_ne {a b : List Seat} {e₁ e₂ : Entry} (h₁ : accepting es id₁ a = some e₁)
    (h₂ : accepting es id₂ b = some e₂) : e₁.event ≠ e₂.event := by
  obtain ⟨he₁, hid₁⟩ := findId_eq_some (accepting_eq_some.1 h₁).1
  obtain ⟨he₂, hid₂⟩ := findId_eq_some (accepting_eq_some.1 h₂).1
  intro hp
  obtain rfl := h.event_inj he₁ he₂ hp
  exact hne (hid₁.symm.trans hid₂)

/-- A reservation of another event makes no difference to a reservation. -/
theorem accepting_reserveIn (a b : List Seat) :
    accepting (reserveIn es id₁ a).2 id₂ b = accepting es id₂ b := by
  rw [accepting, findId_reserveIn h hne, ← accepting]

theorem reserveIn_comm (a b : List Seat) :
    (reserveIn (reserveIn es id₁ a).2 id₂ b).1 = (reserveIn es id₂ b).1 ∧
      (reserveIn (reserveIn es id₁ a).2 id₂ b).2 = (reserveIn (reserveIn es id₂ b).2 id₁ a).2 := by
  rw [reserveIn, accepting_reserveIn h hne, reserveIn.eq_def (reserveIn es id₂ b).2,
    accepting_reserveIn h hne.symm, reserveIn, reserveIn]
  refine ⟨bookIn_code .., ?_⟩
  cases hc₁ : accepting es id₁ a with
  | none => rfl
  | some e₁ =>
    cases hc₂ : accepting es id₂ b with
    | none => rfl
    | some e₂ => exact reserveAt_comm (accepting_ne h hne hc₁ hc₂) a b

theorem exchange_reservations (hes : Fitting es) {args₁ args₂ : SeatArgs} (h₁ : args₁.Within)
    (h₂ : args₂.Within) :
    Exchange m (.emsReserve id₁ args₁) (.emsReserve id₂ args₂) SameStore := by
  have hfit : ∀ id e, findId es id = some e → NoWrap e.ev.rows e.ev.cols :=
    fun id e he => hes e (findId_eq_some he).1
  obtain ⟨m₁, hrep₁, -, hrun₁⟩ := runOp_reserve h id₁ h₁ (hfit id₁)
  obtain ⟨m₂, hrep₂, -, hrun₂⟩ := runOp_reserve h id₂ h₂ (hfit id₂)
  obtain ⟨m₁₂, hrep₁₂, -, hrun₁₂⟩ := runOp_reserve hrep₁ id₂ h₂ (by
    rw [findId_reserveIn h hne]
    exact hfit id₂)
  obtain ⟨m₂₁, hrep₂₁, -, hrun₂₁⟩ := runOp_reserve hrep₂ id₁ h₁ (by
    rw [findId_reserveIn h hne.symm]
    exact hfit id₁)
  obtain ⟨hcode₂, hstore⟩ := reserveIn_comm h hne args₁.seats args₂.seats
  obtain ⟨hcode₁, -⟩ := reserveIn_comm h hne.symm args₂.seats args₁.seats
  rw [hcode₂] at hrun₁₂
  rw [hcode₁] at hrun₂₁
  rw [hstore] at hrep₁₂
  exact ⟨_, _, m₁₂, m₂₁, runCalls_pair hrun₁ hrun₁₂, runCalls_pair hrun₂ hrun₂₁, l, _,
    hrep₁₂, hrep₂₁⟩

/-- A creation and a reservation of another event. -/
theorem createIn_reserveIn {x : Entry} (hid : x.ev.id = id₁) (hx : ∀ e ∈ es, x.event ≠ e.event)
    (b : List Seat) :
    (reserveIn (createIn es x).2 id₂ b).1 = (reserveIn es id₂ b).1 ∧
      (createIn (reserveIn es id₂ b).2 x).1 = (createIn es x).1 ∧
      (reserveIn (createIn es x).2 id₂ b).2 = (createIn (reserveIn es id₂ b).2 x).2 := by
  have hacc : accepting (createIn es x).2 id₂ b = accepting es id₂ b := by
    rw [accepting, findId_createIn (hid ▸ hne), ← accepting]
  have hfind : findId (reserveIn es id₂ b).2 x.ev.id = findId es x.ev.id := by
    rw [hid, findId_reserveIn h hne.symm]
  rw [reserveIn, hacc, createIn, createIn, newIn, newIn, hfind, reserveIn]
  refine ⟨bookIn_code .., rfl, ?_⟩
  cases hc : accepting es id₂ b with
  | none => rfl
  | some e =>
    have hne' := hx e (findId_eq_some (accepting_eq_some.1 hc).1).1
    split
    · simp [bookIn]
    · simp [bookIn, reserveAt, hne']

theorem exchange_create_reservation (hes : Fitting es) (rows cols : UInt64) {args : SeatArgs}
    (hargs : args.Within) :
    Exchange m (.emsCreate id₁ rows cols) (.emsReserve id₂ args) SameStore := by
  have hfit : ∀ e, findId es id₂ = some e → NoWrap e.ev.rows e.ev.cols :=
    fun e he => hes e (findId_eq_some he).1
  obtain ⟨m₁, hrep₁, hrun₁⟩ := runOp_create h id₁ rows cols
  obtain ⟨m₂, hrep₂, hfresh, hrun₂⟩ := runOp_reserve h id₂ hargs hfit
  obtain ⟨m₁₂, hrep₁₂, -, hrun₁₂⟩ := runOp_reserve hrep₁ id₂ hargs (by
    rw [findId_createIn hne]
    exact hfit)
  obtain ⟨m₂₁, hrep₂₁, hrun₂₁⟩ := runOp_create hrep₂ id₁ rows cols
  rw [newEntry_congr hfresh] at hrep₂₁ hrun₂₁
  obtain ⟨hcode₂, hcode₁, hstore⟩ := createIn_reserveIn h hne (x := newEntry m id₁ rows cols) rfl
    (fun e he => (Heap.ne_fresh_of_load (h.event e he)).symm) args.seats
  rw [hcode₂] at hrun₁₂
  rw [hcode₁] at hrun₂₁
  rw [hstore] at hrep₁₂
  exact ⟨_, _, m₁₂, m₂₁, runCalls_pair hrun₁ hrun₁₂, runCalls_pair hrun₂ hrun₂₁, l, _,
    hrep₁₂, hrep₂₁⟩

theorem exchange_creates (rows₁ cols₁ rows₂ cols₂ : UInt64) :
    Exchange m (.emsCreate id₁ rows₁ cols₁) (.emsCreate id₂ rows₂ cols₂) (SameButOrder es) := by
  obtain ⟨m₁, hrep₁, hrun₁⟩ := runOp_create h id₁ rows₁ cols₁
  obtain ⟨m₂, hrep₂, hrun₂⟩ := runOp_create h id₂ rows₂ cols₂
  obtain ⟨m₁₂, hrep₁₂, hrun₁₂⟩ := runOp_create hrep₁ id₂ rows₂ cols₂
  obtain ⟨m₂₁, hrep₂₁, hrun₂₁⟩ := runOp_create hrep₂ id₁ rows₁ cols₁
  have hmoved : ∀ (m m' : Mem) (id : UInt32) (rows cols : UInt64),
      (newEntry m' id rows cols).contents = (newEntry m id rows cols).contents :=
    fun _ _ _ _ _ => rfl
  obtain ⟨hcode₂, hnew₂⟩ := createIn_congr es (createIn es (newEntry m id₁ rows₁ cols₁)).2
    (hmoved m m₁ id₂ rows₂ cols₂) (findId_createIn hne)
  obtain ⟨hcode₁, hnew₁⟩ := createIn_congr es (createIn es (newEntry m id₂ rows₂ cols₂)).2
    (hmoved m m₂ id₁ rows₁ cols₁) (findId_createIn hne.symm)
  rw [hcode₂] at hrun₁₂
  rw [hcode₁] at hrun₂₁
  exact ⟨_, _, m₁₂, m₂₁, runCalls_pair hrun₁ hrun₁₂, runCalls_pair hrun₂ hrun₂₁, l, _, _, _, _,
    hrep₁₂, hrep₂₁, length_newIn .., length_newIn .., hnew₁, hnew₂.symm⟩

end Exchange

/-! ## One event -/

/-- The events with `e` in place of the one at `p`. -/
def replaceAt (es : List Entry) (p : Ptr) (e : Entry) : List Entry :=
  es.map fun x => if x.event = p then e else x

/-- What a reservation of `e` returns when no reservation before it has taken its seats. -/
def onItsOwn (e : Entry) (args : SeatArgs) : Int32 × Bytes :=
  (if Accepts e args.seats then 0 else 1, [])

/-- The seats of the reservations that are accepted. -/
def accepted (e : Entry) (rs : List SeatArgs) : List (List Seat) :=
  (rs.map SeatArgs.seats).filter fun seats => Accepts e seats

theorem replaceAt_self (h : Rep m l es) {e : Entry} (he : e ∈ es) :
    replaceAt es e.event e = es := by
  refine (List.map_congr_left fun x hx => ?_).trans (List.map_id es)
  split
  · next hp => exact (h.event_inj hx he hp).symm
  · rfl

theorem replaceAt_reserveAt (p : Ptr) (a : List Seat) (e : Entry) :
    replaceAt (reserveAt es p a) p e = replaceAt es p e := by
  rw [replaceAt, reserveAt, List.map_map]
  refine List.map_congr_left fun x _ => ?_
  have hev : (x.reserved a).event = x.event := rfl
  simp only [Function.comp]
  by_cases hp : x.event = p
  · simp only [if_pos hp, hev]
  · simp only [if_neg hp]

/-- **Reservations of one event that share no seat** are accepted or not each on its own. -/
theorem runCalls_reservations : ∀ (rs : List SeatArgs) {m : Mem} {es : List Entry} {e : Entry},
    Rep m l es → e ∈ es → NoWrap e.ev.rows e.ev.cols → (∀ r ∈ rs, r.Within) →
    rs.Pairwise (fun a b => a.seats.Disjoint b.seats) →
    ∃ m', runCalls m (rs.map (Call.emsReserve e.ev.id)) = some (rs.map (onItsOwn e), m') ∧
      Rep m' l (replaceAt es e.event ((accepted e rs).foldl Entry.reserved e))
  | [], m, es, e, h, he, _, _, _ => ⟨m, rfl, (replaceAt_self h he).symm ▸ h⟩
  | r :: rs, m, es, e, h, he, hfit, hargs, hd => by
      obtain ⟨hr, hrs⟩ := List.forall_mem_cons.1 hargs
      obtain ⟨hd₁, hd⟩ := List.pairwise_cons.1 hd
      have hfind := h.findId_of_mem he
      obtain ⟨m₁, hrep₁, -, hrun₁⟩ := runOp_reserve h e.ev.id hr fun e' he' => by
        rw [← Option.some.inj (hfind.symm.trans he')]
        exact hfit
      by_cases hacc : Accepts e r.seats
      · have hsome : accepting es e.ev.id r.seats = some e := accepting_eq_some.2 ⟨hfind, hacc⟩
        rw [reserveIn, hsome] at hrep₁ hrun₁
        have hmem : e.reserved r.seats ∈ reserveAt es e.event r.seats :=
          List.mem_map.2 ⟨e, he, if_pos rfl⟩
        obtain ⟨m', hrun, hrep⟩ := runCalls_reservations rs hrep₁ hmem hfit hrs hd
        -- the other reservations find their seats as they were
        have hsame : ∀ r' ∈ rs, Accepts (e.reserved r.seats) r'.seats ↔ Accepts e r'.seats :=
          fun r' hr' => accepts_reserved_iff hfit hacc (hd₁ r' hr')
        have hcodes : rs.map (onItsOwn (e.reserved r.seats)) = rs.map (onItsOwn e) :=
          List.map_congr_left fun r' hr' => by
            rw [onItsOwn, onItsOwn, if_congr (hsame r' hr') rfl rfl]
        have haccepted : accepted (e.reserved r.seats) rs = accepted e rs := by
          refine List.filter_congr fun seats hseats => ?_
          obtain ⟨r', hr', rfl⟩ := List.mem_map.1 hseats
          exact decide_eq_decide.2 (hsame r' hr')
        refine ⟨m', ?_, ?_⟩
        · have hrun' : runCalls m₁ (rs.map (Call.emsReserve e.ev.id)) = _ := hrun
          rw [List.map_cons, runCalls, hrun₁, Option.bind_some, hrun', hcodes]
          simp [onItsOwn, hacc, bookIn]
        · have hev : (e.reserved r.seats).event = e.event := rfl
          rw [haccepted, hev] at hrep
          rw [accepted, List.map_cons, List.filter_cons_of_pos (by simpa using hacc), ← accepted,
            List.foldl_cons, ← replaceAt_reserveAt]
          exact hrep
      · have hnone : accepting es e.ev.id r.seats = none := accepting_eq_none.2 fun e' he' => by
          rwa [← Option.some.inj (hfind.symm.trans he')]
        rw [reserveIn, hnone] at hrep₁ hrun₁
        obtain ⟨m', hrun, hrep⟩ := runCalls_reservations rs hrep₁ he hfit hrs hd
        refine ⟨m', ?_, ?_⟩
        · rw [List.map_cons, runCalls, hrun₁, Option.bind_some, hrun]
          simp [onItsOwn, hacc, bookIn]
        · rwa [accepted, List.map_cons, List.filter_cons_of_neg (by simpa using hacc), ← accepted]

/-- The reservations `rs` and `rs'` of the event of `e`, each with its own code in either order; the
    other events are as before, and what is left of `e` is the same up to a renaming of the
    numbers given out. -/
def AnyOrder (m : Mem) (l : Ptr) (es : List Entry) (e : Entry) (rs rs' : List SeatArgs) : Prop :=
  ∃ m₁ m₂ e₁ e₂,
    runCalls m (rs.map (Call.emsReserve e.ev.id)) = some (rs.map (onItsOwn e), m₁) ∧
    runCalls m (rs'.map (Call.emsReserve e.ev.id)) = some (rs'.map (onItsOwn e), m₂) ∧
    Rep m₁ l (replaceAt es e.event e₁) ∧ Rep m₂ l (replaceAt es e.event e₂) ∧
    (∀ i : Nat, e₂.cells[i]? = some 0 ↔ e₁.cells[i]? = some 0) ∧ Renamed e e₁ e₂

theorem reservations_anyOrder (h : Rep m l es) {e : Entry} (he : e ∈ es)
    (hfit : NoWrap e.ev.rows e.ev.cols) {rs rs' : List SeatArgs} (hp : rs.Perm rs')
    (hargs : ∀ r ∈ rs, r.Within) (hd : rs.Pairwise fun a b => a.seats.Disjoint b.seats)
    (hroom : e.ev.reservations.toNat + (accepted e rs).length < 2 ^ 32) :
    AnyOrder m l es e rs rs' := by
  have hd' : rs'.Pairwise fun a b => a.seats.Disjoint b.seats :=
    (hp.pairwise_iff List.disjoint_symm).1 hd
  obtain ⟨m₁, hrun₁, hrep₁⟩ := runCalls_reservations rs h he hfit hargs hd
  obtain ⟨m₂, hrun₂, hrep₂⟩ := runCalls_reservations rs' h he hfit
    (fun r hr => hargs r (hp.mem_iff.2 hr)) hd'
  have hperm : (accepted e rs).Perm (accepted e rs') := (hp.map _).filter _
  have hrenamed := renamed_of_perm hfit (h.size e he) hperm
    (fun a ha => by simpa using (List.mem_filter.1 ha).2)
    ((List.pairwise_map.2 hd).filter _) hroom
  exact ⟨m₁, m₂, _, _, hrun₁, hrun₂, hrep₁, hrep₂, hrenamed.free_iff, hrenamed⟩

/-- **Independent operations commute.** -/
theorem independent_operations_commute (h : Rep m l es) (hes : Fitting es) :
    (∀ id₁ id₂ args₁ args₂, id₁ ≠ id₂ → args₁.Within → args₂.Within →
      Exchange m (.emsReserve id₁ args₁) (.emsReserve id₂ args₂) SameStore) ∧
    (∀ id₁ rows cols id₂ args, id₁ ≠ id₂ → args.Within →
      Exchange m (.emsCreate id₁ rows cols) (.emsReserve id₂ args) SameStore) ∧
    (∀ id₁ rows₁ cols₁ id₂ rows₂ cols₂, id₁ ≠ id₂ →
      Exchange m (.emsCreate id₁ rows₁ cols₁) (.emsCreate id₂ rows₂ cols₂) (SameButOrder es)) ∧
    ∀ e ∈ es, ∀ rs rs', rs.Perm rs' → (∀ r ∈ rs, r.Within) →
      rs.Pairwise (fun a b => a.seats.Disjoint b.seats) →
      e.ev.reservations.toNat + (accepted e rs).length < 2 ^ 32 → AnyOrder m l es e rs rs' :=
  ⟨fun _ _ _ _ hne h₁ h₂ => exchange_reservations h hne hes h₁ h₂,
    fun _ rows cols _ _ hne hargs => exchange_create_reservation h hne hes rows cols hargs,
    fun _ rows₁ cols₁ _ rows₂ cols₂ hne => exchange_creates h hne rows₁ cols₁ rows₂ cols₂,
    fun e he _ _ hp hargs hd hroom => reservations_anyOrder h he (hes e he) hp hargs hd hroom⟩

/-- Calls on a store with one event of two rows and three columns. -/
theorem independent_operations_commute_sample : ∃ m,
    runOp (emsCreate {} 7 2 3) freshMem = some ((0, []), m) ∧
    Exchange m (.emsReserve 7 (.ofSeats [(1, 1)])) (.emsReserve 8 (.ofSeats [(1, 1)])) SameStore ∧
    Exchange m (.emsCreate 8 1 1) (.emsReserve 7 (.ofSeats [(1, 1)])) SameStore ∧
    Exchange m (.emsCreate 8 1 1) (.emsCreate 9 2 2) (SameButOrder [newEntry freshMem 7 2 3]) ∧
    AnyOrder m 0 [newEntry freshMem 7 2 3] (newEntry freshMem 7 2 3)
      [.ofSeats [(1, 1)], .ofSeats [(2, 2), (2, 3)]] [.ofSeats [(2, 2), (2, 3)], .ofSeats [(1, 1)]] := by
  obtain ⟨m, hrun, hrep⟩ := runOp_emsCreate_first rep_freshMem 7 2 3
  have hfit : Fitting [newEntry freshMem 7 2 3] := fun e he => by
    obtain rfl := List.mem_singleton.1 he
    decide
  obtain ⟨hreserve, hmixed, hcreate, hany⟩ := independent_operations_commute hrep hfit
  refine ⟨m, hrun, hreserve _ _ _ _ (by decide) (SeatArgs.within_ofSeats _)
    (SeatArgs.within_ofSeats _), hmixed _ _ _ _ _ (by decide) (SeatArgs.within_ofSeats _),
    hcreate _ _ _ _ _ _ (by decide), hany _ (by simp) _ _ (List.Perm.swap ..) ?_ ?_
      (by decide +kernel)⟩
  · simp only [List.forall_mem_cons]
    exact ⟨SeatArgs.within_ofSeats _, SeatArgs.within_ofSeats _, by simp⟩
  · refine List.pairwise_pair.2 fun a ha hb => ?_
    have ha : a ∈ [(1, 1)] := ha
    have hb : a ∈ [(2, 2), (2, 3)] := hb
    obtain rfl := List.mem_singleton.1 ha
    exact absurd hb (by decide)

end EventServer
