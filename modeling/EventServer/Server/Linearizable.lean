import EventServer.Server.Numbers

/-
  **The operations are linearizable** (`server_linearizable`): whatever the worker threads do,
  the order of their last atomic steps is a sequential order of the calls, consistent with real
  time, in which running the functions one after the other gives the same codes, replies and
  memory; and no step of a thread is ever undefined.

  In that order a SHOW displays each reservation with a number other than 0 whole: all its seats
  or none (`DisplaysWhole`), since no later reservation lists one of them (`Unrepeated`). The
  number 0 marks a free seat. It goes to a reservation of two seats only when an event whose
  counter is `UINT_MAX` accepts one (`Splits`); then a SHOW can send one of the seats as taken and
  the other one as free (`reservation_split`).
-/

namespace EventServer

open Lib Op

/-- Run calls one after the other: their codes and replies, and the memory after them. -/
def runAll : Mem → List Task → Option (List (Int32 × Bytes) × Mem)
  | m, [] => some ([], m)
  | m, task :: tasks => (runOp (task.call.op task.env) m).bind fun r =>
      (runAll r.2 tasks).map fun q => (r.1 :: q.1, q.2)

/-- Whole operations of the object are the functions, one after the other. -/
theorem sequential_eq_runAll {l : Ptr} : ∀ (tasks : List Task) {m : Mem}, Sound l m →
    server.sequential m tasks = runAll m tasks
  | [], _, _ => rfl
  | task :: tasks, m, hm => by
      obtain ⟨es, h, hes⟩ := hm
      rw [TwoStep.sequential, runAll, ← whole_eq h hes task]
      cases hw : server.whole task m with
      | none => rfl
      | some r =>
        have hr : Sound l r.2 := (server_stable l).whole_inv ⟨es, h, hes⟩ hw
        simp only [Option.bind_some, sequential_eq_runAll tasks hr]

/-! ## Seats that are listed again -/

section Ordinals

variable {α : Type} {p : α → Prop} [DecidablePred p]

/-- The place of the last element with `p` is that of an element with `p`. -/
theorem exists_of_lastOrdinal {l : List α} {k : Nat} (h : lastOrdinal p l = k + 1) :
    ∃ a, l[k]? = some a ∧ p a := by
  induction l generalizing k with
  | nil => simp [lastOrdinal] at h
  | cons a l ih =>
    rw [lastOrdinal] at h
    split at h
    · next hne =>
      obtain ⟨j, hj⟩ := Nat.exists_eq_succ_of_ne_zero hne
      obtain rfl : k = j + 1 := by omega
      exact ih hj
    · split at h
      · next ha =>
        obtain rfl : k = 0 := by omega
        exact ⟨a, rfl, ha⟩
      · cases h

/-- An element with `p` that no element with `p` follows is the last one. -/
theorem lastOrdinal_eq_succ {l : List α} {j : Nat} {a : α} (hj : l[j]? = some a) (ha : p a)
    (hlast : ∀ i b, j < i → l[i]? = some b → ¬ p b) : lastOrdinal p l = j + 1 := by
  have hlt := lt_lastOrdinal p hj ha
  obtain ⟨k, hk⟩ : ∃ k, lastOrdinal p l = k + 1 := ⟨lastOrdinal p l - 1, by omega⟩
  obtain ⟨b, hb, hpb⟩ := exists_of_lastOrdinal hk
  have hle : ¬ j < k := fun hjk => hlast k b hjk hb hpb
  omega

end Ordinals

/-- The number of an event's reservation that `j` others of the event came before. -/
def reservationNumber (j : Nat) : UInt32 := UInt32.ofNat (j + 1)

/-- The reservation lists two different seats. -/
def MultiSeat (seats : List Seat) : Prop := ∃ s ∈ seats, ∃ s' ∈ seats, s ≠ s'

/-- No reservation lists a seat that an earlier one with a number other than 0 lists. -/
def Unrepeated (bs : List (List Seat)) : Prop :=
  ∀ (i j : Nat) (b b' : List Seat), i < j → bs[i]? = some b → bs[j]? = some b' →
    reservationNumber i ≠ 0 → ∀ s ∈ b, s ∉ b'

/-- One more reservation, of cells that hold 0. -/
theorem Unrepeated.snoc {bs : List (List Seat)} (h : Unrepeated bs) {seats : List Seat}
    (hfree : ∀ s ∈ seats, UInt32.ofNat (lastOrdinal (s ∈ ·) bs) = 0) :
    Unrepeated (bs ++ [seats]) := by
  intro i j b b' hij hi hj hne s hs hs'
  have hjlt : j < bs.length + 1 := by simpa using (List.getElem?_eq_some_iff.1 hj).1
  rw [List.getElem?_append_left (by omega)] at hi
  rcases Nat.lt_or_ge j bs.length with hlt | hge
  · rw [List.getElem?_append_left hlt] at hj
    exact h i j b b' hij hi hj hne s hs hs'
  · obtain rfl : j = bs.length := by omega
    obtain rfl : seats = b' := by simpa using hj
    have hlast : lastOrdinal (s ∈ ·) bs = i + 1 :=
      lastOrdinal_eq_succ hi hs fun k b'' hik hk => h i k b b'' hik hi hk hne s hs
    refine hne ?_
    rw [reservationNumber, ← hlast]
    exact hfree s hs'

/-- A ledger of the first reservations shows each reservation with a number other than 0 with all
    its seats or with none. -/
theorem Unrepeated.whole {bs rest : List (List Seat)} (h : Unrepeated (bs ++ rest)) {j : Nat}
    {b : List Seat} (hj : (bs ++ rest)[j]? = some b) (hne : reservationNumber j ≠ 0) :
    (∀ s ∈ b, UInt32.ofNat (lastOrdinal (s ∈ ·) bs) = reservationNumber j) ∨
      ∀ s ∈ b, UInt32.ofNat (lastOrdinal (s ∈ ·) bs) = 0 := by
  have hin : ∀ {k : Nat} {b' : List Seat}, bs[k]? = some b' → (bs ++ rest)[k]? = some b' :=
    fun hk => (List.getElem?_append_left (List.getElem?_eq_some_iff.1 hk).1).trans hk
  rcases Nat.lt_or_ge j bs.length with hlt | hge
  · refine Or.inl fun s hs => congrArg UInt32.ofNat ?_
    rw [List.getElem?_append_left hlt] at hj
    exact lastOrdinal_eq_succ hj hs fun i b' hji hi => h j i b b' hji (hin hj) (hin hi) hne s hs
  · refine Or.inr fun s hs => ?_
    cases hlast : lastOrdinal (s ∈ ·) bs with
    | zero => rfl
    | succ k =>
      -- an earlier reservation lists the seat, so its number is 0
      obtain ⟨b', hk, hs'⟩ := exists_of_lastOrdinal hlast
      have hkj : k < j := Nat.lt_of_lt_of_le (List.getElem?_eq_some_iff.1 hk).1 hge
      by_contra hnumber
      exact h k j b' b hkj (hin hk) hj hnumber s hs' hs

/-! ## What a SHOW displays -/

/-- Every successful SHOW of an event displays, cell by cell, the last of the reservations before
    it that lists the seat. It displays each reservation of the order with `P` whole: the cells of
    all its seats hold its number, or all of them hold 0. -/
def DisplaysWhole (P : UInt32 → List Seat → Prop) (order : List Completed) : Prop :=
  ∀ pre d post, order = pre ++ d :: post → ∀ id, d.op.call = .emsShow id → d.ret.1 = 0 →
    ∃ e, e.ev.id = id ∧ d.ret.2 = showBytes e ∧ NoWrap e.ev.rows e.ev.cols ∧
      e.cells.length = (e.ev.rows * e.ev.cols).toNat ∧ Shows e (bookings id pre) ∧
      ∀ (j : Nat) (b : List Seat), (bookings id order)[j]? = some b → P (reservationNumber j) b →
        (∀ s ∈ b, e.cells[seatAt e.ev s]? = some (reservationNumber j)) ∨
          ∀ s ∈ b, e.cells[seatAt e.ev s]? = some 0

/-- The events that the SHOWs of a log sent, each of them at its place in the store. -/
def Displayed (es : List Entry) (log : List Completed) : Prop :=
  ∀ pre d post, log = pre ++ d :: post → ∀ id, d.op.call = .emsShow id → d.ret.1 = 0 →
    ∃ e, e.ev.id = id ∧ d.ret.2 = showBytes e ∧ NoWrap e.ev.rows e.ev.cols ∧
      e.cells.length = (e.ev.rows * e.ev.cols).toNat ∧ Shows e (bookings id pre) ∧
      e.key ∈ es.map Entry.key

theorem Displayed.did {m : Mem} {l : Ptr} {es es' : List Entry} {log : List Completed}
    {d : Completed} (h : Displayed es log) (hb : Booked es log) (hrep : Rep m l es)
    (hes : Fitting es) (hd : Did d.op.call d.ret es es') : Displayed es' (log ++ [d]) := by
  intro pre d' post hsplit id hcall hcode
  rcases List.eq_nil_or_concat' post with rfl | ⟨post', last, rfl⟩
  · -- the SHOW is the call that has just completed
    obtain ⟨rfl, hdd⟩ := List.append_inj' hsplit rfl
    obtain rfl : d = d' := by simpa using hdd
    rw [hcall] at hd
    obtain ⟨rfl, hret⟩ := hd
    cases hfind : findId es' id with
    | none => rcases hret with hret | hret <;> simp [hret, showReply, hfind] at hcode
    | some e =>
      obtain ⟨he, rfl⟩ := findId_eq_some hfind
      rcases hret with hret | hret
      · exact ⟨e, rfl, by simp [hret, showReply, hfind], hes e he, hrep.size e he, hb.shows e he,
          List.mem_map_of_mem he⟩
      · simp [hret] at hcode
  · rw [← List.cons_append, ← List.append_assoc] at hsplit
    obtain ⟨hlog, -⟩ := List.append_inj' hsplit rfl
    obtain ⟨e, hid, hbytes, hfit, hsize, hshows, hkey⟩ := h pre d' post' hlog id hcall hcode
    exact ⟨e, hid, hbytes, hfit, hsize, hshows, hd.keys_prefix.subset hkey⟩

/-- The reservations of a log list seats of their event, and seats of reservations with a number
    other than 0 once. -/
structure Listed (es : List Entry) (log : List Completed) : Prop where
  inBounds : ∀ e ∈ es, ∀ b ∈ bookings e.ev.id log, ∀ s ∈ b, InBounds e.ev s
  unrepeated : ∀ id, Unrepeated (bookings id log)

/-- A call books nothing, or seats that its event accepts. -/
theorem Did.books {es es' : List Entry} {d : Completed} (h : Did d.op.call d.ret es es')
    (log : List Completed) :
    (∀ id, bookings id (log ++ [d]) = bookings id log) ∨
      ∃ e ∈ es, ∃ seats, Accepts e seats ∧ ∀ id,
        bookings id (log ++ [d]) = bookings id log ++ if e.ev.id = id then [seats] else [] := by
  unfold Did at h
  cases hcall : d.op.call with
  | emsReserve id args =>
    rw [hcall] at h
    obtain ⟨-, ⟨hcode, -⟩ | ⟨hcode, e, hfind, hacc, -⟩⟩ := h
    · exact Or.inl fun id' => by simp [bookings_snoc, booking, hcall, hcode]
    · obtain ⟨he, rfl⟩ := findId_eq_some hfind
      refine Or.inr ⟨e, he, args.seats, hacc, fun id' => ?_⟩
      rw [bookings_snoc]
      by_cases hid : e.ev.id = id' <;> simp [booking, hcall, hcode, hid]
  | _ => exact Or.inl fun id' => by simp [bookings_snoc, booking, hcall]

/-- An event after a call was there before it, or its id is new. -/
theorem Did.origin {call : Call} {ret : Int32 × Bytes} {es es' : List Entry}
    (h : Did call ret es es') {e' : Entry} (he' : e' ∈ es') :
    (∃ e ∈ es, e'.key = e.key) ∨ findId es e'.ev.id = none := by
  have hsame : es' = es → ∃ e ∈ es, e'.key = e.key := fun heq => ⟨e', heq ▸ he', rfl⟩
  cases call with
  | emsCreate id rows cols =>
    obtain ⟨-, ⟨-, heq⟩ | ⟨-, hnew, m, rfl⟩⟩ := h
    · exact Or.inl (hsame heq)
    · rcases List.mem_append.1 he' with he | he
      · exact Or.inl ⟨e', he, rfl⟩
      · obtain rfl := List.mem_singleton.1 he
        exact Or.inr hnew
  | emsReserve id args =>
    obtain ⟨-, ⟨-, heq⟩ | ⟨-, e, -, -, rfl⟩⟩ := h
    · exact Or.inl (hsame heq)
    · obtain ⟨x, hx, hkey, -⟩ := mem_reserveAt he'
      exact Or.inl ⟨x, hx, hkey⟩
  | emsShow id => exact Or.inl (hsame h.1)
  | emsListEvents => exact Or.inl (hsame h.1)

theorem inBounds_of_key {e e' : Entry} (h : e'.key = e.key) {s : Seat} (hs : InBounds e.ev s) :
    InBounds e'.ev s := by
  have hrows : e'.ev.rows = e.ev.rows := congrArg Entry.Key.rows h
  have hcols : e'.ev.cols = e.ev.cols := congrArg Entry.Key.cols h
  rwa [InBounds, hrows, hcols]

theorem Listed.did {es es' : List Entry} {log : List Completed} {d : Completed}
    (h : Listed es log) (hb : Booked es log) (hids : (es.map fun e => e.ev.id).Nodup)
    (hd : Did d.op.call d.ret es es') : Listed es' (log ++ [d]) := by
  obtain hnone | ⟨e, he, seats, hacc, hbooks⟩ := hd.books log
  · refine ⟨fun e' he' b hmem s hs => ?_, fun id => hnone id ▸ h.unrepeated id⟩
    rw [hnone] at hmem
    obtain ⟨x, hx, hkey⟩ | hnew := hd.origin he'
    · rw [show e'.ev.id = x.ev.id from congrArg Entry.Key.id hkey] at hmem
      exact inBounds_of_key hkey (h.inBounds x hx b hmem s hs)
    · simp [hb.missing _ hnew] at hmem
  · constructor
    · intro e' he' b hmem s hs
      rw [hbooks] at hmem
      obtain ⟨x, hx, hkey⟩ | hnew := hd.origin he'
      · rw [show e'.ev.id = x.ev.id from congrArg Entry.Key.id hkey] at hmem
        refine inBounds_of_key hkey ?_
        rcases List.mem_append.1 hmem with hold | hbooked
        · exact h.inBounds x hx b hold s hs
        · split at hbooked
          · next hid =>
            obtain rfl := List.inj_on_of_nodup_map hids he hx hid
            obtain rfl := List.mem_singleton.1 hbooked
            exact hacc.1 s hs
          · cases hbooked
      · rw [hb.missing _ hnew, if_neg (findId_eq_none.1 hnew e he)] at hmem
        cases hmem
    · intro id
      rw [hbooks]
      split
      · next hid =>
        subst hid
        refine (h.unrepeated _).snoc fun s hs => ?_
        have hfree : e.cells[seatAt e.ev s]?.getD 0 = 0 := hacc.2 s hs
        rwa [hb.shows e he s (hacc.1 s hs), Option.getD_some] at hfree
      · rw [List.append_nil]
        exact h.unrepeated id

/-- Reservations with a number other than 0 are displayed whole. -/
theorem Displayed.whole {es : List Entry} {log : List Completed} (h : Displayed es log)
    (hl : Listed es log) {P : UInt32 → List Seat → Prop}
    (hP : ∀ id j b, (bookings id log)[j]? = some b → P (reservationNumber j) b →
      reservationNumber j ≠ 0) : DisplaysWhole P log := by
  intro pre d post hsplit id hcall hcode
  obtain ⟨e, rfl, hbytes, hfit, hsize, hshows, hkey⟩ := h pre d post hsplit id hcall hcode
  refine ⟨e, rfl, hbytes, hfit, hsize, hshows, fun j b hj hp => ?_⟩
  obtain ⟨x, hx, hkey⟩ := List.mem_map.1 hkey
  have hbounds : ∀ s ∈ b, InBounds e.ev s := fun s hs => by
    have hid : x.ev.id = e.ev.id := congrArg Entry.Key.id hkey
    have hmem : b ∈ bookings x.ev.id log := hid ▸ List.mem_of_getElem? hj
    exact inBounds_of_key hkey.symm (hl.inBounds x hx b hmem s hs)
  have hne := hP e.ev.id j b hj hp
  have hlist : bookings e.ev.id log = bookings e.ev.id pre ++ bookings e.ev.id (d :: post) := by
    rw [hsplit, bookings, List.filterMap_append]
    rfl
  have hun := hl.unrepeated e.ev.id
  rw [hlist] at hj hun
  rcases hun.whole hj hne with hall | hnone
  · exact Or.inl fun s hs => (hshows s (hbounds s hs)).trans (congrArg some (hall s hs))
  · exact Or.inr fun s hs => (hshows s (hbounds s hs)).trans (congrArg some (hnone s hs))

section

variable {T : Type} [DecidableEq T] {m₀ : Mem} {l : Ptr} {c : Threads T}

theorem displayed_of_run (hinit : Rep m₀ l []) {ms : List (Move T Task)}
    (h : exec server.move (Conc.init m₀) ms = some c) :
    ∃ es, Displayed es c.log ∧ Listed es c.log := by
  obtain ⟨-, es, -, -, -, hshown, hlisted⟩ := invariant_of_run
    (I := fun es log => Booked es log ∧ Displayed es log ∧ Listed es log) hinit
    ⟨booked_nil, by simp [Displayed], by simp, by simp [Unrepeated, bookings]⟩
    (fun _ _ _ _ _ hrep hes hI hdid => ⟨hI.1.did hrep hes hdid, hI.2.1.did hI.1 hrep hes hdid,
      hI.2.2.did hI.1 hrep.ids hdid⟩) h
  exact ⟨es, hshown, hlisted⟩

/-! ## As long as no multi-seat reservation gets the number 0 -/

/-- The move is the step in which an event whose counter is `UINT_MAX` accepts a reservation of
    two different seats. -/
def Splits (c : Threads T) (mv : Move T Task) : Prop :=
  ∃ t k task p id args ev cells, mv = .step t ∧ c.phase t = .found k task p ∧
    task.call = .emsReserve id args ∧ task.env.lockEvent = true ∧
    c.shared.events.load p = some ev ∧ c.shared.cells.load ev.data = some cells ∧
    ev.reservations = UINT_MAX ∧ MultiSeat args.seats ∧ (∀ s ∈ args.seats, InBounds ev s) ∧
    ∀ s ∈ args.seats, Free ev cells s

/-- The multi-seat reservations have numbers other than 0. -/
def MultiNumbered (log : List Completed) : Prop :=
  ∀ id j b, (bookings id log)[j]? = some b → MultiSeat b → reservationNumber j ≠ 0

theorem MultiNumbered.move {es : List Entry} {c' : Threads T} {mv : Move T Task}
    (h : MultiNumbered c.log) (hok : c.Ok server (Sound l) m₀) (hrep : Rep c.shared l es)
    (hes : Fitting es) (hb : Booked es c.log) (hm : server.move c mv = some c')
    (hg : ¬ Splits c mv) : MultiNumbered c'.log := by
  obtain ⟨hsame, -⟩ | ⟨t, k, task, e, args, rfl, hp, he, hcall, hlock, hacc, rfl⟩ :=
    move_books hok hrep hes hm
  · exact fun id j b hj => h id j b (hsame id ▸ hj)
  · intro id j b hj hmulti hzero
    rw [Conc.finish, bookings_snoc] at hj
    rcases Nat.lt_or_ge j (bookings id c.log).length with hlt | hge
    · exact h id j b (List.getElem?_append_left hlt ▸ hj) hmulti hzero
    · rw [List.getElem?_append_right hge] at hj
      simp only [booking, hcall, and_true] at hj
      split at hj
      · next hid =>
        -- the new reservation
        subst hid
        have hj0 : j - (bookings e.ev.id c.log).length = 0 := by
          have := (List.getElem?_eq_some_iff.1 hj).1
          simp only [Option.toList_some, List.length_singleton] at this
          omega
        obtain rfl : j = (bookings e.ev.id c.log).length := by omega
        obtain rfl : args.seats = b := by simpa using hj
        refine hg ⟨t, k, task, e.event, e.ev.id, args, e.ev, e.cells, rfl, hp, hcall, hlock,
          hrep.event e he, hrep.cells e he, ?_, hmulti, hacc.1, hacc.2⟩
        rw [reservationNumber, UInt32.ofNat_add, ← hb.counter e he] at hzero
        have hmax := UInt32.add_sub_cancel e.ev.reservations (UInt32.ofNat 1)
        rwa [hzero, eq_comm] at hmax
      · simp at hj

theorem multiNumbered_of_run (hinit : Rep m₀ l []) {ms : List (Move T Task)}
    (h : exec server.move (Conc.init m₀) ms = some c)
    (hg : Guarded server.move (fun c mv => ¬ Splits c mv) (Conc.init m₀) ms) :
    MultiNumbered c.log := by
  have hs : Sound l m₀ := ⟨[], hinit, by simp [Fitting]⟩
  refine (exec_guarded (J := fun c : Threads T => (c.Ok server (Sound l) m₀ ∧
    ∃ es, Rep c.shared l es ∧ Fitting es ∧ Booked es c.log) ∧ MultiNumbered c.log)
    (A := fun _ => True) (fun c mv c' _ hJ hm hg => ?_) (fun _ _ => trivial)
    ⟨⟨Conc.ok_init server hs, [], hinit, by simp [Fitting], booked_nil⟩, ?_⟩ hg h).2
  · obtain ⟨⟨hok, es, hrep, hes, hb⟩, hnum⟩ := hJ
    refine ⟨⟨hok.move (server_stable l) hm, ?_⟩, hnum.move hok hrep hes hb hm hg⟩
    obtain ⟨hsh, hlog⟩ | ⟨d, es', hlog, hrep', hes', hdid⟩ := move_did hok hrep hes hm
    · exact ⟨es, hsh ▸ hrep, hes, hlog ▸ hb⟩
    · exact ⟨es', hrep', hes', hlog ▸ hb.did hrep hes hdid⟩
  · simp [MultiNumbered, Conc.init, bookings]

/-- A thread inside a call can always take its next step. -/
theorem step_defined (hok : c.Ok server (Sound l) m₀) {t : T}
    (ht : (∃ k task, c.phase t = .called k task) ∨ ∃ k task p, c.phase t = .found k task p) :
    ∃ c', server.move c (.step t) = some c' := by
  obtain ⟨es, hrep, hes⟩ := hok.inv
  rcases ht with ⟨k, task, hp⟩ | ⟨k, task, p, hp⟩
  · obtain ⟨ret, m', es', hfirst, -⟩ | ⟨id, e, hfirst, -⟩ := first_did hrep task
    · exact ⟨c.finish t k task (ret, m'), by simp [TwoStep.move, hp, hfirst]⟩
    · exact ⟨c.setPhase t (.found k task e.event), by simp [TwoStep.move, hp, hfirst]⟩
  · obtain ⟨ret, m', es', hsecond, -⟩ := second_did hrep hes (hok.found t k task p hp).2.2
    exact ⟨c.finish t k task (ret, m'), by simp [TwoStep.move, hp, hsecond]⟩

/-- **The server's operations are linearizable**, and every SHOW displays each reservation with a
    number other than 0 whole; so it does with every multi-seat reservation, as long as none is
    given the number 0. -/
theorem server_linearizable {env : Env} {bs : Bytes}
    (hinit : runOp (emsInit env) {} = some ((0, bs), m₀)) {ms : List (Move T Task)}
    (h : exec server.move (Conc.init m₀) ms = some c) :
    (Linearization server m₀ c c.log ∧
      runAll m₀ (c.log.map Done.op) = some (c.log.map Done.ret, c.shared) ∧
      DisplaysWhole (fun number _ => number ≠ 0) c.log ∧
      (Guarded server.move (fun c mv => ¬ Splits c mv) (Conc.init m₀) ms →
        DisplaysWhole (fun _ seats => MultiSeat seats) c.log)) ∧
    ∀ t, ((∃ k task, c.phase t = .called k task) ∨ ∃ k task p, c.phase t = .found k task p) →
      ∃ c', server.move c (.step t) = some c' := by
  obtain ⟨l, hrep₀⟩ := rep_of_emsInit hinit
  have hs : Sound l m₀ := ⟨[], hrep₀, by simp [Fitting]⟩
  have hok := Conc.linearization_of_run (server_stable l) hs h
  obtain ⟨es, hshown, hlisted⟩ := displayed_of_run hrep₀ h
  refine ⟨⟨hok.lin, ?_, hshown.whole hlisted fun _ _ _ _ hne => hne, fun hg => ?_⟩,
    fun t ht => step_defined hok ht⟩
  · rw [← sequential_eq_runAll _ hs]
    exact hok.lin.sequential
  · exact hshown.whole hlisted (multiNumbered_of_run hrep₀ h hg)

end

/-- The interleaving of `sampleRun`. -/
theorem server_linearizable_sample : ∃ c : Threads Bool,
    exec server.move (Conc.init freshMem) sampleRun = some c ∧
    (Linearization server freshMem c c.log ∧
      runAll freshMem (c.log.map Done.op) = some (c.log.map Done.ret, c.shared) ∧
      DisplaysWhole (fun number _ => number ≠ 0) c.log ∧
      (Guarded server.move (fun c mv => ¬ Splits c mv) (Conc.init freshMem) sampleRun →
        DisplaysWhole (fun _ seats => MultiSeat seats) c.log)) ∧
    ∀ t, ((∃ k task, c.phase t = .called k task) ∨ ∃ k task p, c.phase t = .found k task p) →
      ∃ c', server.move c (.step t) = some c' := by
  obtain ⟨c, hc⟩ := Option.isSome_iff_exists.1
    (by decide +kernel : (exec server.move (Conc.init freshMem) sampleRun).isSome = true)
  exact ⟨c, hc, server_linearizable emsInit_freshMem hc⟩

/-! ## A reservation that is displayed in part -/

theorem cellsBytes_inj : ∀ {cells cells' : List UInt32}, cellsBytes cells = cellsBytes cells' →
    cells = cells'
  | [], [], _ => rfl
  | [], c :: cells, h | c :: cells, [], h => by
      have := congrArg List.length h
      simp only [cellsBytes, List.map_cons, List.map_nil, List.flatten_cons, List.flatten_nil,
        List.length_append, length_uintBytes, List.length_nil] at this
      omega
  | c :: cells, c' :: cells', h => by
      obtain ⟨hc, hcells⟩ := List.append_inj (show uintBytes c ++ cellsBytes cells =
        uintBytes c' ++ cellsBytes cells' from h) (by simp)
      rw [cellsBytes_inj hcells, ← toUInt_uintBytes c, hc, toUInt_uintBytes]

/-- A reply of SHOW determines the dimensions and the cells. -/
theorem showBytes_inj {e e' : Entry} (h : showBytes e = showBytes e') :
    e.ev.rows = e'.ev.rows ∧ e.ev.cols = e'.ev.cols ∧ e.cells = e'.cells := by
  obtain ⟨-, h⟩ := List.append_inj h (by simp)
  obtain ⟨hrows, h⟩ := List.append_inj h (by simp)
  obtain ⟨hcols, hcells⟩ := List.append_inj h (by simp)
  refine ⟨?_, ?_, cellsBytes_inj hcells⟩
  · rw [← toSize_sizeBytes e.ev.rows, hrows, toSize_sizeBytes]
  · rw [← toSize_sizeBytes e.ev.cols, hcols, toSize_sizeBytes]

/-- A thread that is alone with the event of `e` is shown `e`. -/
theorem Alone.shown {l : Ptr} {e : Entry} {c : Threads Unit} (h : Alone l e c) (task : Task)
    (hcall : task.call = .emsShow 1) (henv : task.env = {}) :
    ∃ c', exec server.move c [.call () task, .step (), .step (), .ret ()] = some c' ∧
      c'.log = c.log ++ [⟨c.calls, task, (0, showBytes e)⟩] := by
  have hfind : findId [e] 1 = some e := by simp [findId, h.id]
  have hfirst : server.first task c.shared = some (.inr e.event) :=
    (first_found_iff h.store).2 ⟨1, by simp [Task.looksUp, hcall, henv], by simp [lookupResult, hfind]⟩
  have hsecond : server.second task e.event c.shared = some ((0, showBytes e), c.shared) := by
    simp only [server, hcall, runOp_emsShowLocked h.store task.env (List.mem_singleton_self e)]
    simp [henv]
  obtain ⟨c', hrun, -, -, hlog⟩ := TwoStep.exec_two_steps h.idle hfirst hsecond
  exact ⟨c', hrun, hlog⟩

/-- Reserving both seats of a 1 by 2 event whose counter is `UINT_MAX` leaves them free; the next
    reservation takes one of them. -/
theorem reserved_split {e : Entry} (hmax : e.ev.reservations = UINT_MAX) (hrows : e.ev.rows = 1)
    (hcols : e.ev.cols = 2) (hcells : e.cells = [0, 0]) :
    Accepts e [(1, 1), (1, 2)] ∧ Accepts (e.reserved [(1, 1), (1, 2)]) [(1, 1)] ∧
      ((e.reserved [(1, 1), (1, 2)]).reserved [(1, 1)]).cells = [1, 0] := by
  have hat : ∀ ev : Event, ev.cols = 2 → seatAt ev (1, 1) = 0 ∧ seatAt ev (1, 2) = 1 := by
    intro ev h
    simp only [seatAt, seatIndex, h]
    exact ⟨rfl, rfl⟩
  have hfree : ∀ ev : Event, ev.cols = 2 → Free ev [0, 0] (1, 1) ∧ Free ev [0, 0] (1, 2) := by
    intro ev h
    rw [Free, Free, (hat ev h).1, (hat ev h).2]
    exact ⟨rfl, rfl⟩
  have hbounds : ∀ ev : Event, ev.rows = 1 → ev.cols = 2 →
      InBounds ev (1, 1) ∧ InBounds ev (1, 2) := by
    intro ev h h'
    rw [InBounds, InBounds, h, h']
    decide
  have hbooked : (e.reserved [(1, 1), (1, 2)]).cells = [0, 0] := by
    show bookCells e.ev (e.ev.reservations + 1) e.cells [(1, 1), (1, 2)] = [0, 0]
    rw [hmax, hcells, bookCells_cons, bookCells_cons, (hat e.ev hcols).1, (hat e.ev hcols).2]
    rfl
  refine ⟨⟨?_, ?_⟩, ⟨?_, ?_⟩, ?_⟩
  · simpa using hbounds e.ev hrows hcols
  · simpa [hcells] using hfree e.ev hcols
  · simpa using (hbounds (e.reserved [(1, 1), (1, 2)]).ev hrows hcols).1
  · rw [hbooked]
    simpa using (hfree (e.reserved [(1, 1), (1, 2)]).ev hcols).1
  · show bookCells (e.reserved [(1, 1), (1, 2)]).ev (e.ev.reservations + 1 + 1)
      (e.reserved [(1, 1), (1, 2)]).cells [(1, 1)] = [1, 0]
    rw [hbooked, hmax, bookCells_cons, (hat (e.reserved [(1, 1), (1, 2)]).ev hcols).1]
    rfl

/-- One client creates a 1 by 2 event, makes `n` reservations of no seats, reserves both seats,
    then the first one, and shows the event. -/
def splitRun (n : Nat) : List (Move Unit Task) :=
  [.call () ⟨.emsCreate 1 1 2, {}, trivial, by show NoWrap 1 2; decide⟩, .step (), .ret ()] ++
    (List.replicate n (reserveMoves seatless)).flatten ++
      reserveMoves (reserveTask [(1, 1), (1, 2)]) ++ reserveMoves firstSeat ++
        [.call () ⟨.emsShow 1, {}, trivial, trivial⟩, .step (), .step (), .ret ()]

/-- The reservation of two seats gets the number 0 when `n` others bring the counter to `UINT_MAX`:
    SHOW sends the seat that is reserved again as taken and the other one as free. -/
theorem splitRun_splits {n : Nat} (hn : UInt32.ofNat n = UINT_MAX) :
    ∃ (c : Threads Unit) (log : List Completed) (d : Completed) (e : Entry),
      exec server.move (Conc.init freshMem) (splitRun n) = some c ∧ c.log = log ++ [d] ∧
        d.op.call = .emsShow 1 ∧ d.ret = (0, showBytes e) ∧ e.cells = [1, 0] ∧
        [(1, 1), (1, 2)] ∈ bookings 1 log ∧
        ¬ DisplaysWhole (fun _ seats => MultiSeat seats) c.log := by
  obtain ⟨c₁, e, hrun₁, h₁, hkey, hcells, hmax, hlog₁⟩ := alone_full hn (by decide : NoWrap 1 2)
  have hcols : e.ev.cols = 2 := congrArg Entry.Key.cols hkey
  obtain ⟨hacc, hacc', hshown⟩ := reserved_split hmax (congrArg Entry.Key.rows hkey) hcols hcells
  obtain ⟨c₂, hrun₂, h₂, hlog₂⟩ := h₁.reserve (by decide) hacc
  obtain ⟨c₃, hrun₃, h₃, hlog₃⟩ := h₂.reserve (by decide) hacc'
  obtain ⟨c₄, hrun₄, hlog₄⟩ := h₃.shown ⟨.emsShow 1, {}, trivial, trivial⟩ rfl rfl
  have hrun := exec_append_of_eq (exec_append_of_eq (exec_append_of_eq hrun₁ hrun₂) hrun₃) hrun₄
  have hsplit : (bookings 1 c₃.log)[n]? = some [(1, 1), (1, 2)] := by
    rw [hlog₃, hlog₂, hlog₁, List.append_assoc, List.getElem?_append_right (by simp)]
    simp
  refine ⟨c₄, c₃.log, _, _, hrun, hlog₄, rfl, rfl, hshown, List.mem_of_getElem? hsplit,
    fun hdisp => ?_⟩
  obtain ⟨e', -, hbytes, -, -, -, hwhole⟩ := hdisp c₃.log _ [] hlog₄ 1 rfl rfl
  obtain ⟨-, hcols', hcells'⟩ := showBytes_inj hbytes
  have hcell : e'.cells[seatAt e'.ev (1, 1)]? = some 1 := by
    rw [← hcells', hshown, seatAt, seatIndex, ← hcols',
      show ((e.reserved [(1, 1), (1, 2)]).reserved [(1, 1)]).ev.cols = 2 from hcols]
    rfl
  have hj : (bookings 1 c₄.log)[n]? = some [(1, 1), (1, 2)] := by
    rw [hlog₄, bookings_snoc]
    exact (List.getElem?_append_left (List.getElem?_eq_some_iff.1 hsplit).1).trans hsplit
  have hnumber : reservationNumber n = 0 := by
    rw [reservationNumber, UInt32.ofNat_add, hn]
    rfl
  -- the cell of the first seat holds 1, which is neither the number of the reservation nor 0
  rcases hwhole _ _ hj ⟨(1, 1), by simp, (1, 2), by simp, by decide⟩ with hall | hnone
  · have hzero := hcell.symm.trans (hall (1, 1) (by simp))
    rw [hnumber] at hzero
    cases hzero
  · cases hcell.symm.trans (hnone (1, 1) (by simp))

/-- The run with `2 ^ 32 - 1` reservations of no seats. -/
theorem reservation_split : ∃ (c : Threads Unit) (log : List Completed) (d : Completed) (e : Entry),
    exec server.move (Conc.init freshMem) (splitRun (2 ^ 32 - 1)) = some c ∧ c.log = log ++ [d] ∧
      d.op.call = .emsShow 1 ∧ d.ret = (0, showBytes e) ∧ e.cells = [1, 0] ∧
      [(1, 1), (1, 2)] ∈ bookings 1 log ∧
      ¬ DisplaysWhole (fun _ seats => MultiSeat seats) c.log :=
  splitRun_splits rfl

end EventServer
