import EventServer.Server.Representation

/-
  Seats: the flat index of a seat, and what `ems_reserve` does under the event's mutex.

  `seatAt_lt` and `seatAt_inj`: when `rows * cols` fits 64 bits, the flat index is a bijection
  from the seats of the event to its cells. `wp_emsReserveLocked`: the reservation goes through
  exactly when every listed seat is in bounds and free (`Accepts`); then the counter goes up and
  the listed seats hold its new value (`Entry.reserved`), else nothing changes. A write outside
  the array happens only for an event whose size does not fit.
-/

namespace EventServer

open Lib Op

abbrev Seat := UInt64 × UInt64

instance (s : Seat) (seats : List Seat) : Decidable (s ∈ seats) :=
  List.instDecidableMemOfLawfulBEq s seats

/-- The number of seats fits `size_t`, so `rows * cols` does not wrap. -/
def NoWrap (rows cols : UInt64) : Prop := rows.toNat * cols.toNat < 2 ^ 64

instance (rows cols : UInt64) : Decidable (NoWrap rows cols) := inferInstanceAs (Decidable (_ < _))

/-- The seat exists in the event. -/
def InBounds (event : Event) (s : Seat) : Prop :=
  1 ≤ s.1 ∧ s.1 ≤ event.rows ∧ 1 ≤ s.2 ∧ s.2 ≤ event.cols

instance (event : Event) (s : Seat) : Decidable (InBounds event s) :=
  inferInstanceAs (Decidable (_ ∧ _))

/-- The cell of a seat. -/
def seatAt (event : Event) (s : Seat) : Nat := (seatIndex event s.1 s.2).toNat

theorem size_toNat {rows cols : UInt64} (h : NoWrap rows cols) :
    (rows * cols).toNat = rows.toNat * cols.toNat := by
  rw [UInt64.toNat_mul, Nat.mod_eq_of_lt h]

section Index

variable {event : Event} {s s' : Seat}

theorem InBounds.toNat (hs : InBounds event s) : 1 ≤ s.1.toNat ∧ s.1.toNat ≤ event.rows.toNat ∧
    1 ≤ s.2.toNat ∧ s.2.toNat ≤ event.cols.toNat := by
  obtain ⟨h₁, h₂, h₃, h₄⟩ := hs
  exact ⟨UInt64.le_iff_toNat_le.1 h₁, UInt64.le_iff_toNat_le.1 h₂, UInt64.le_iff_toNat_le.1 h₃,
    UInt64.le_iff_toNat_le.1 h₄⟩

/-- The row before a seat's row is full, and the seat is inside its own row. -/
theorem seat_flat_lt {r c rows cols : Nat} (hr : 1 ≤ r) (hr' : r ≤ rows) (hc : 1 ≤ c) (hc' : c ≤ cols) :
    (r - 1) * cols + (c - 1) < rows * cols := by
  have : (r - 1) * cols + cols ≤ rows * cols := by
    rw [← Nat.succ_mul]
    exact Nat.mul_le_mul_right _ (by omega)
  omega

/-- The flat index of a seat is the row-major one, modulo the size of `size_t`. -/
theorem seatAt_mod (hs : InBounds event s) : seatAt event s =
    ((s.1.toNat - 1) * event.cols.toNat + (s.2.toNat - 1)) % 2 ^ 64 := by
  obtain ⟨-, -, hcol, -⟩ := hs.toNat
  have hrow : (s.1 - 1).toNat = s.1.toNat - 1 := UInt64.toNat_sub_of_le s.1 1 hs.1
  have hlt := s.2.toNat_lt
  rw [seatAt, seatIndex, UInt64.toNat_sub, UInt64.toNat_add, UInt64.toNat_mul, hrow]
  simp only [UInt64.toNat_one]
  omega

/-- Without wrap-around the flat index is the row-major one. -/
theorem seatAt_eq (h : NoWrap event.rows event.cols) (hs : InBounds event s) :
    seatAt event s = (s.1.toNat - 1) * event.cols.toNat + (s.2.toNat - 1) := by
  obtain ⟨h₁, h₂, h₃, h₄⟩ := hs.toNat
  rw [seatAt_mod hs, Nat.mod_eq_of_lt]
  exact (seat_flat_lt h₁ h₂ h₃ h₄).trans h

theorem seatAt_lt (h : NoWrap event.rows event.cols) (hs : InBounds event s) :
    seatAt event s < (event.rows * event.cols).toNat := by
  obtain ⟨h₁, h₂, h₃, h₄⟩ := hs.toNat
  rw [seatAt_eq h hs, size_toNat h]
  exact seat_flat_lt h₁ h₂ h₃ h₄

/-- Different seats have different cells. -/
theorem seatAt_inj (h : NoWrap event.rows event.cols) (hs : InBounds event s)
    (hs' : InBounds event s') (heq : seatAt event s = seatAt event s') : s = s' := by
  obtain ⟨h₁, h₂, h₃, h₄⟩ := hs.toNat
  obtain ⟨h₁', h₂', h₃', h₄'⟩ := hs'.toNat
  rw [seatAt_eq h hs, seatAt_eq h hs'] at heq
  have hpos : 0 < event.cols.toNat := by omega
  have hmod := congrArg (· % event.cols.toNat) heq
  have hdiv := congrArg (· / event.cols.toNat) heq
  simp only [Nat.mul_add_mod_self_right] at hmod
  simp only [Nat.mul_comm _ event.cols.toNat, Nat.mul_add_div hpos] at hdiv
  rw [Nat.mod_eq_of_lt (by omega), Nat.mod_eq_of_lt (by omega)] at hmod
  rw [Nat.div_eq_of_lt (by omega), Nat.div_eq_of_lt (by omega)] at hdiv
  exact Prod.ext (UInt64.toNat_inj.1 (by omega)) (UInt64.toNat_inj.1 (by omega))

end Index

/-! ## Accepting a reservation -/

/-- The seat's cell holds no reservation. -/
def Free (event : Event) (cells : List UInt32) (s : Seat) : Prop :=
  cells[seatAt event s]?.getD 0 = 0

instance (event : Event) (cells : List UInt32) (s : Seat) : Decidable (Free event cells s) :=
  inferInstanceAs (Decidable (_ = _))

/-- Every listed seat exists and is free. -/
def Accepts (e : Entry) (seats : List Seat) : Prop :=
  (∀ s ∈ seats, InBounds e.ev s) ∧ ∀ s ∈ seats, Free e.ev e.cells s

instance (e : Entry) (seats : List Seat) : Decidable (Accepts e seats) :=
  @instDecidableAnd _ _ (List.decidableBAll _ seats) (List.decidableBAll _ seats)

/-- The cells after writing `id` into the listed seats. -/
def bookCells (event : Event) (id : UInt32) (cells : List UInt32) (seats : List Seat) :
    List UInt32 :=
  seats.foldl (fun cs s => cs.set (seatAt event s) id) cells

/-- The event after an accepted reservation. -/
def Entry.reserved (e : Entry) (seats : List Seat) : Entry :=
  { e with
    ev := { e.ev with reservations := e.ev.reservations + 1 }
    cells := bookCells e.ev (e.ev.reservations + 1) e.cells seats }

@[simp] theorem Entry.reserved_key (e : Entry) (seats : List Seat) :
    (e.reserved seats).key = e.key := rfl

@[simp] theorem length_bookCells (event : Event) (id : UInt32) (cells : List UInt32)
    (seats : List Seat) : (bookCells event id cells seats).length = cells.length := by
  induction seats generalizing cells with
  | nil => rfl
  | cons s seats ih =>
    rw [bookCells, List.foldl_cons]
    exact (ih _).trans (List.length_set ..)

theorem bookCells_cons (event : Event) (id : UInt32) (cells : List UInt32) (s : Seat)
    (seats : List Seat) :
    bookCells event id cells (s :: seats) = bookCells event id (cells.set (seatAt event s) id) seats :=
  rfl

/-- A cell after booking: the reservation if one of the listed seats has it, else as before. -/
theorem getElem?_bookCells {event : Event} {id : UInt32} {cells : List UInt32} {seats : List Seat}
    {i : Nat} (hi : i < cells.length) :
    (bookCells event id cells seats)[i]? =
      if ∃ s ∈ seats, seatAt event s = i then some id else cells[i]? := by
  induction seats generalizing cells with
  | nil => simp [bookCells]
  | cons s seats ih =>
    rw [bookCells_cons, ih (by simpa using hi)]
    by_cases hex : ∃ s ∈ seats, seatAt event s = i
    · have hex' : ∃ s' ∈ s :: seats, seatAt event s' = i :=
        hex.imp fun _ hs => ⟨List.mem_cons_of_mem _ hs.1, hs.2⟩
      rw [if_pos hex, if_pos hex']
    · by_cases hs : seatAt event s = i
      · subst hs
        rw [if_neg hex, if_pos ⟨s, by simp, rfl⟩, List.getElem?_set_self hi]
      · have hex' : ¬ ∃ s' ∈ s :: seats, seatAt event s' = i := by
          rintro ⟨s', hm, he⟩
          rcases List.mem_cons.1 hm with rfl | hm
          · exact hs he
          · exact hex ⟨s', hm, he⟩
        rw [if_neg hex, if_neg hex', List.getElem?_set_ne hs]

/-! ## The loops of `ems_reserve` -/

variable {w : World} {l : Ptr} {es : List Entry}

/-- The listed seats from the `i`th on. -/
theorem zip_drop_cons {xs ys : List UInt64} {i : Nat} (hi : i < (xs.zip ys).length) :
    ∃ x y, xs[i]? = some x ∧ ys[i]? = some y ∧
      (xs.zip ys).drop i = (x, y) :: (xs.zip ys).drop (i + 1) := by
  have hx : i < xs.length := by rw [List.length_zip] at hi; omega
  have hy : i < ys.length := by rw [List.length_zip] at hi; omega
  refine ⟨xs[i], ys[i], List.getElem?_eq_getElem hx, List.getElem?_eq_getElem hy, ?_⟩
  rw [List.drop_eq_getElem_cons hi, List.getElem_zip]

theorem wp_index {Q : UInt64 → World → Prop} {E : Stop → Prop} {xs : List UInt64} {i : Nat}
    {x : UInt64} (h : xs[i]? = some x) : wp (index xs i) Q E w ↔ Q x w := by
  simp [index, h]

theorem not_le_zero {x : UInt64} : ¬ x ≤ 0 ↔ 1 ≤ x := by
  rw [UInt64.le_iff_toNat_le, UInt64.le_iff_toNat_le]
  simp
  omega

theorem wp_seatsInBounds (event : Event) (xs ys : List UInt64) {E : Stop → Prop} :
    ∀ (n i : Nat), i + n ≤ (xs.zip ys).length →
    wp (seatsInBounds event xs ys n i) (fun b w' => w' = w ∧
      (b = true ↔ ∀ s ∈ ((xs.zip ys).drop i).take n, InBounds event s)) E w
  | 0, i, _ => by simp [seatsInBounds]
  | n + 1, i, h => by
      obtain ⟨x, y, hx, hy, hdrop⟩ := zip_drop_cons (show i < (xs.zip ys).length by omega)
      have ih := wp_seatsInBounds event xs ys (E := E) n (i + 1) (by omega)
      simp only [seatsInBounds, wp_bind, wp_index hx, wp_index hy, wp_ite, wp_pure, hdrop,
        List.take_succ_cons, List.forall_mem_cons]
      refine ⟨fun hbad => ⟨trivial, iff_of_false Bool.false_ne_true ?_⟩, fun hx' =>
        ⟨fun hbad => ⟨trivial, iff_of_false Bool.false_ne_true ?_⟩, fun hy' => ?_⟩⟩
      · rintro ⟨⟨h₁, h₂, -⟩, -⟩
        rcases hbad with hbad | hbad
        · exact not_le_zero.2 h₁ hbad
        · exact absurd h₂ (UInt64.not_le.2 hbad)
      · rintro ⟨⟨-, -, h₁, h₂⟩, -⟩
        rcases hbad with hbad | hbad
        · exact not_le_zero.2 h₁ hbad
        · exact absurd h₂ (UInt64.not_le.2 hbad)
      · rw [not_or, not_le_zero] at hx' hy'
        have hin : InBounds event (x, y) :=
          ⟨hx'.1, UInt64.not_lt.1 hx'.2, hy'.1, UInt64.not_lt.1 hy'.2⟩
        refine wp_mono ih (fun b w' hb => ?_) fun _ he => he
        exact ⟨hb.1, hb.2.trans (by simp [hin])⟩

/-- What the look at one cell or at many leaves alone. -/
def Untouched (w w' : World) : Prop := w'.mem = w.mem ∧ w'.fd = w.fd

theorem Untouched.trans {w w' w'' : World} (h : Untouched w w') (h' : Untouched w' w'') :
    Untouched w w'' := ⟨h'.1.trans h.1, h'.2.trans h.2⟩

theorem wp_loadCell {p data : Ptr} {i : UInt64} {cells : List UInt32} {c : UInt32}
    {E : Stop → Prop} (h : w.mem.cells.load data = some cells) (hi : cells[i.toNat]? = some c) :
    wp (loadCell p data i) (fun r w' => r = c ∧ Untouched w w') E w := by
  simp [loadCell, wp_deref, h, hi, Untouched]

theorem wp_cellTaken {p : Ptr} (event : Event) {cells : List UInt32} {i : UInt64} {c : UInt32}
    (xs ys : List UInt64) {E : Stop → Prop} (hi : cells[i.toNat]? = some c) :
    ∀ (n j : Nat) (w : World), w.mem.cells.load event.data = some cells →
    j + n ≤ (xs.zip ys).length →
    wp (cellTaken p event xs ys i n j) (fun b w' => Untouched w w' ∧
      (b = true ↔ (∃ s ∈ ((xs.zip ys).drop j).take n, seatIndex event s.1 s.2 = i) ∧ c ≠ 0)) E w
  | 0, j, w, _, _ => by simp [cellTaken, Untouched]
  | n + 1, j, w, h, hlen => by
      obtain ⟨x, y, hx, hy, hdrop⟩ := zip_drop_cons (show j < (xs.zip ys).length by omega)
      have ih := wp_cellTaken event xs ys (E := E) (p := p) hi n (j + 1) w h (by omega)
      simp only [cellTaken, wp_bind, wp_index hx, wp_index hy, wp_ite, hdrop, List.take_succ_cons,
        List.mem_cons, exists_eq_or_imp]
      refine ⟨fun hne => wp_mono ih (fun b w' hb => ?_) fun _ he => he, fun heq => ?_⟩
      · exact ⟨hb.1, hb.2.trans (by simp [hne])⟩
      · refine wp_mono (wp_loadCell h hi) (fun r w' hr => ?_) fun _ he => he
        obtain ⟨rfl, hw⟩ := hr
        exact ⟨hw, by simp [not_not.1 heq]⟩

/-- The listed seats of a call: the first `num_seats` pairs of coordinates. -/
def listed (num_seats : UInt64) (xs ys : List UInt64) : List Seat :=
  (xs.zip ys).take num_seats.toNat

theorem wp_someCellTaken {p : Ptr} (event : Event) {cells : List UInt32} {num_seats : UInt64}
    (xs ys : List UInt64) {E : Stop → Prop} (hsize : cells.length < 2 ^ 64)
    (hlen : num_seats.toNat ≤ (xs.zip ys).length) :
    ∀ (n i : Nat) (w : World), w.mem.cells.load event.data = some cells → i + n ≤ cells.length →
    wp (someCellTaken p event num_seats xs ys n i) (fun b w' => Untouched w w' ∧
      (b = true ↔ ∃ s ∈ listed num_seats xs ys, i ≤ seatAt event s ∧ seatAt event s < i + n ∧
        ¬ Free event cells s)) E w
  | 0, i, w, _, _ => by
      simp [someCellTaken, Untouched]
      omega
  | n + 1, i, w, h, hn => by
      have hi : (UInt64.ofNat i).toNat = i := by
        rw [UInt64.toNat_ofNat', Nat.mod_eq_of_lt (by omega)]
      have hlt : i < cells.length := by omega
      have hcell : cells[(UInt64.ofNat i).toNat]? = some cells[i] := by
        rw [hi, List.getElem?_eq_getElem]
      have hat : ∀ s, seatIndex event s.1 s.2 = UInt64.ofNat i ↔ seatAt event s = i := by
        intro s
        rw [← UInt64.toNat_inj, hi]
        rfl
      have hinner := wp_cellTaken event xs ys (E := E) (p := p) hcell num_seats.toNat 0 w h
        (by omega)
      simp only [someCellTaken, wp_bind, wp_ite, wp_pure]
      refine wp_mono hinner (fun b w₁ hb => ?_) fun _ he => he
      obtain ⟨hw₁, hb⟩ := hb
      simp only [List.drop_zero, hat] at hb
      have hfree : ∀ s, seatAt event s = i → (¬ Free event cells s ↔ cells[i] ≠ 0) := by
        intro s hs
        rw [Free, hs, List.getElem?_eq_getElem (by omega), Option.getD_some]
      refine ⟨fun hbt => ⟨hw₁, ?_⟩, fun hbf => ?_⟩
      · obtain ⟨⟨s, hs, hsi⟩, hne⟩ := hb.1 hbt
        simp only [true_iff]
        exact ⟨s, hs, by omega, by omega, (hfree s hsi).2 hne⟩
      · have ih := wp_someCellTaken event xs ys (E := E) (p := p) hsize hlen n (i + 1) w₁
          (by rw [hw₁.1]; exact h) (by omega)
        refine wp_mono ih (fun b' w₂ hb' => ⟨hw₁.trans hb'.1, hb'.2.trans ?_⟩) fun _ he => he
        constructor
        · rintro ⟨s, hs, h₁, h₂, h₃⟩
          exact ⟨s, hs, by omega, by omega, h₃⟩
        · rintro ⟨s, hs, h₁, h₂, h₃⟩
          refine ⟨s, hs, ?_, by omega, h₃⟩
          by_contra hlt
          have hsi : seatAt event s = i := by omega
          exact hbf (hb.2 ⟨⟨s, hs, hsi⟩, (hfree s hsi).1 h₃⟩)

/-- Writing the reservation into the listed seats; the only fault is a seat outside the array, and
    with such a seat the loop does not come to its end. -/
theorem wp_writeSeats {p : Ptr} (event : Event) (id : UInt32) (xs ys : List UInt64)
    {E : Stop → Prop} :
    ∀ (n i : Nat) (w : World) (cells : List UInt32), w.mem.cells.load event.data = some cells →
    i + n ≤ (xs.zip ys).length →
    ((∃ s ∈ ((xs.zip ys).drop i).take n, cells.length ≤ seatAt event s) → E .outOfBounds) →
    wp (writeSeats p event id xs ys n i) (fun _ w' => w'.fd = w.fd ∧
      w'.mem = { w.mem with
        cells := w.mem.cells.set event.data
          (bookCells event id cells (((xs.zip ys).drop i).take n)) } ∧
      ∀ s ∈ ((xs.zip ys).drop i).take n, seatAt event s < cells.length) E w
  | 0, i, w, cells, h, _, _ => by
      simp [writeSeats, bookCells, Heap.set_self h]
  | n + 1, i, w, cells, h, hlen, hE => by
      obtain ⟨x, y, hx, hy, hdrop⟩ := zip_drop_cons (show i < (xs.zip ys).length by omega)
      rw [hdrop, List.take_succ_cons] at hE
      simp only [writeSeats, storeCell, wp_bind, wp_index hx, wp_index hy, wp_record, wp_deref, h,
        wp_ite, wp_throw]
      refine ⟨fun hin => ?_, fun hout => hE ⟨(x, y), by simp, Nat.not_lt.1 hout⟩⟩
      simp only [wp_assign, Heap.store_of_load h, putCells]
      have ih := wp_writeSeats event id xs ys (E := E) (p := p) n (i + 1)
        { w with
          mem := { w.mem with
            cells := w.mem.cells.set event.data (cells.set (seatIndex event x y).toNat id) }
          trace := w.trace ++ [.touch p] }
        (cells.set (seatIndex event x y).toNat id) (by simp [Heap.load_set h]) (by omega)
        (fun hex => hE (by simpa using Or.inr hex))
      refine wp_mono ih (fun _ w' hw' => ?_) fun _ he => he
      obtain ⟨hf, hm, hinside⟩ := hw'
      rw [hdrop, List.take_succ_cons]
      refine ⟨hf, ?_, List.forall_mem_cons.2 ⟨hin, fun s hs => ?_⟩⟩
      · rw [hm, bookCells_cons]
        simp only [Heap.set_set]
        rfl
      · exact (hinside s hs).trans_eq (List.length_set ..)

/-! ### Only the listed seats are read -/

section Take

variable {xs ys : List UInt64} {n : Nat}

theorem index_take {i : Nat} (hi : i < n) (xs : List UInt64) : index (xs.take n) i = index xs i := by
  rw [index, index, List.getElem?_take_of_lt hi]

theorem seatsInBounds_take (event : Event) : ∀ (k i : Nat), i + k ≤ n →
    seatsInBounds event (xs.take n) (ys.take n) k i = seatsInBounds event xs ys k i
  | 0, _, _ => rfl
  | k + 1, i, h => by
      rw [seatsInBounds, seatsInBounds, index_take (by omega), index_take (by omega),
        seatsInBounds_take event k (i + 1) (by omega)]

theorem cellTaken_take (p : Ptr) (event : Event) (c : UInt64) : ∀ (k j : Nat), j + k ≤ n →
    cellTaken p event (xs.take n) (ys.take n) c k j = cellTaken p event xs ys c k j
  | 0, _, _ => rfl
  | k + 1, j, h => by
      rw [cellTaken, cellTaken, index_take (by omega), index_take (by omega),
        cellTaken_take p event c k (j + 1) (by omega)]

theorem someCellTaken_take (p : Ptr) (event : Event) {num_seats : UInt64}
    (hn : num_seats.toNat ≤ n) : ∀ (k i : Nat),
    someCellTaken p event num_seats (xs.take n) (ys.take n) k i =
      someCellTaken p event num_seats xs ys k i
  | 0, _ => rfl
  | k + 1, i => by
      rw [someCellTaken, someCellTaken, cellTaken_take p event _ _ 0 (by omega),
        someCellTaken_take p event hn k (i + 1)]

theorem writeSeats_take (p : Ptr) (event : Event) (id : UInt32) : ∀ (k i : Nat), i + k ≤ n →
    writeSeats p event id (xs.take n) (ys.take n) k i = writeSeats p event id xs ys k i
  | 0, _, _ => rfl
  | k + 1, i, h => by
      rw [writeSeats, writeSeats, index_take (by omega), index_take (by omega),
        writeSeats_take p event id k (i + 1) (by omega)]

/-- Elements of the arrays behind the first `num_seats` make no difference. -/
theorem emsReserve_take (env : Env) (id : UInt32) (num_seats : UInt64) (xs ys : List UInt64) :
    emsReserve env id num_seats (xs.take num_seats.toNat) (ys.take num_seats.toNat) =
      emsReserve env id num_seats xs ys := by
  unfold emsReserve emsReserveLocked
  simp only [seatsInBounds_take (n := num_seats.toNat) _ num_seats.toNat 0 (by omega),
    someCellTaken_take _ _ (Nat.le_refl num_seats.toNat),
    writeSeats_take (n := num_seats.toNat) _ _ _ num_seats.toNat 0 (by omega)]

end Take

/-! ## Reserving under the mutex -/

/-- Replacing one event by what an accepted reservation makes of it. -/
def reserveAt (es : List Entry) (p : Ptr) (seats : List Seat) : List Entry :=
  es.map fun e => if e.event = p then e.reserved seats else e

theorem reserveAt_keys (es : List Entry) (p : Ptr) (seats : List Seat) :
    (reserveAt es p seats).map Entry.key = es.map Entry.key := by
  rw [reserveAt, List.map_map]
  exact List.map_congr_left fun e _ => by simp only [Function.comp]; split <;> rfl

/-- The memory after an accepted reservation of the event of `e`. -/
def Mem.reserve (m : Mem) (e : Entry) (seats : List Seat) : Mem :=
  { m with
    events := m.events.set e.event (e.reserved seats).ev
    cells := m.cells.set e.ev.data (e.reserved seats).cells }

/-- An accepted reservation keeps the invariant. -/
theorem Rep.reserve {m : Mem} (h : Rep m l es) {e : Entry} (he : e ∈ es) (seats : List Seat) :
    Rep (m.reserve e seats) l (reserveAt es e.event seats) := by
  have hevents := Heap.load_set (h.event e he) (e.reserved seats).ev
  have hcells := Heap.load_set (h.cells e he) (e.reserved seats).cells
  have hkeys := reserveAt_keys es e.event seats
  have hmap : ∀ {β : Type} (f : Entry.Key → β),
      (reserveAt es e.event seats).map (fun x => f x.key) = es.map fun x => f x.key := by
    intro β f
    simpa [List.map_map, Function.comp_def] using congrArg (List.map f) hkeys
  have hnodesEq : (reserveAt es e.event seats).map Entry.node = es.map Entry.node :=
    hmap Entry.Key.node
  have hother : ∀ x ∈ es, x.event ≠ e.event → x.ev.data ≠ e.ev.data := fun x hx hne heq =>
    hne (congrArg Entry.event (List.inj_on_of_nodup_map h.data hx he heq))
  refine ⟨h.root, ?_, ?_, fun x hx => ?_, fun x hx => ?_, fun x hx => ?_,
    fun x hx => ?_, ?_, ?_⟩
  · rw [hnodesEq]
    exact h.list
  · rw [hnodesEq]
    exact h.chain
  all_goals try
    obtain ⟨y, hy, rfl⟩ := List.mem_map.1 hx
  · have hn := h.node y hy
    split <;> exact hn
  · split
    · next hp =>
      obtain rfl := h.event_inj hy he hp
      exact (hevents _).trans (if_pos rfl)
    · next hp => exact ((hevents _).trans (if_neg hp)).trans (h.event y hy)
  · split
    · next hp =>
      obtain rfl := h.event_inj hy he hp
      exact (hcells _).trans (if_pos rfl)
    · next hp => exact ((hcells _).trans (if_neg (hother y hy hp))).trans (h.cells y hy)
  · split
    · exact (length_bookCells ..).trans (h.size y hy)
    · exact h.size y hy
  · have hids : (reserveAt es e.event seats).map (fun x => x.ev.id) =
        es.map fun x => x.ev.id := hmap Entry.Key.id
    rw [hids]
    exact h.ids
  · have hdata : (reserveAt es e.event seats).map (fun x => x.ev.data) =
        es.map fun x => x.ev.data := hmap Entry.Key.data
    rw [hdata]
    exact h.data

/-- **`ems_reserve` under the mutex.** Either it returns 1 and leaves the store alone, because a
    listed seat does not exist or is taken (or the mutex could not be had); or it returns 0 and
    the event becomes `reserved` and nothing else changes. Only an event whose size wraps can make
    it fault, and it faults when a listed seat is outside the array. -/
theorem wp_emsReserveLocked (h : Rep w.mem l es) {e : Entry} (he : e ∈ es) {env : Env}
    {num_seats : UInt64} {xs ys : List UInt64} (hlen : num_seats.toNat ≤ (xs.zip ys).length)
    {E : Stop → Prop} (hE : ¬ NoWrap e.ev.rows e.ev.cols →
      env.lockEvent = true ∧ Accepts e (listed num_seats xs ys) → E .outOfBounds) :
    wp (emsReserveLocked env e.event num_seats xs ys) (fun code w' => w'.fd = w.fd ∧
      (code = 1 ∧ w'.mem = w.mem ∧
          (env.lockEvent = true → ¬ Accepts e (listed num_seats xs ys)) ∨
        code = 0 ∧ env.lockEvent = true ∧ Accepts e (listed num_seats xs ys) ∧
          w'.mem = w.mem.reserve e (listed num_seats xs ys) ∧
          ∀ s ∈ listed num_seats xs ys, seatAt e.ev s < e.cells.length)) E w := by
  have hev := h.event e he
  have hcells := h.cells e he
  have hsize : e.cells.length < 2 ^ 64 := by
    rw [h.size e he]
    exact UInt64.toNat_lt _
  simp only [emsReserveLocked, wp_bind, wp_ite, wp_lockEvent hev, wp_printError, wp_pure]
  refine ⟨fun hlock => ?_, fun hlock => ?_⟩
  · refine ⟨by simp, Or.inl ⟨trivial, by simp, fun ht => ?_⟩⟩
    simp [ht] at hlock
  have hlock' : env.lockEvent = true := by simpa using hlock
  simp only [wp_deref, World.mark_mem, hev]
  refine wp_mono (wp_seatsInBounds e.ev xs ys num_seats.toNat 0 (by omega)) (fun b w₁ hb => ?_)
    fun _ he => he
  obtain ⟨rfl, hb⟩ := hb
  have hb' : b = true ↔ ∀ s ∈ listed num_seats xs ys, InBounds e.ev s := by
    rw [hb, List.drop_zero]
    rfl
  have hev₁ : (w.mark env.lockEvent (.acquire (.event e.event))).mem.events.load e.event =
      some e.ev := by rwa [World.mark_mem]
  refine ⟨fun hout => ?_, fun hin => ?_⟩
  · -- a listed seat does not exist
    have hnot : ¬ Accepts e (listed num_seats xs ys) := fun hacc => by
      simp [hb'.2 hacc.1] at hout
    refine wp_leaveEvent hev₁ fun w' hm hf => ?_
    rw [hm, hf, World.mark_mem, World.mark_fd]
    exact ⟨rfl, Or.inl ⟨trivial, rfl, fun _ => hnot⟩⟩
  have hbounds : ∀ s ∈ listed num_seats xs ys, InBounds e.ev s := hb'.1 (by simpa using hin)
  refine wp_mono (wp_someCellTaken e.ev xs ys (p := e.event) hsize hlen (e.ev.rows * e.ev.cols).toNat 0 _
    (by rwa [World.mark_mem]) (by rw [h.size e he]; omega)) (fun b₂ w₂ hb₂ => ?_) fun _ he => he
  obtain ⟨⟨hm₂, hf₂⟩, htaken⟩ := hb₂
  rw [World.mark_mem] at hm₂
  rw [World.mark_fd] at hf₂
  have hev₂ : w₂.mem.events.load e.event = some e.ev := by rwa [hm₂]
  refine ⟨fun hb₂ => ?_, fun hb₂ => ?_⟩
  · -- a listed seat is taken
    obtain ⟨s, hs, -, -, hnf⟩ := htaken.1 hb₂
    refine wp_leaveEvent hev₂ fun w' hm hf => ?_
    rw [hm, hf, hm₂, hf₂]
    exact ⟨rfl, Or.inl ⟨trivial, rfl, fun _ hacc => hnf (hacc.2 s hs)⟩⟩
  · have hfree : ∀ s ∈ listed num_seats xs ys, Free e.ev e.cells s := fun s hs => by
      by_contra hnf
      rcases Nat.lt_or_ge (seatAt e.ev s) e.cells.length with hlt | hge
      · exact hb₂ (htaken.2 ⟨s, hs, Nat.zero_le _, by rw [← h.size e he]; omega, hnf⟩)
      · exact hnf (by simp [Free, List.getElem?_eq_none hge])
    simp only [nextReservation, wp_bind, wp_record, wp_deref, hev₂, wp_assign,
      Heap.store_of_load hev₂, putEvents, wp_pure]
    refine wp_mono (wp_writeSeats e.ev _ xs ys (p := e.event) num_seats.toNat 0 _ e.cells
      (by rwa [hm₂]) (by omega) fun hex => ?_) (fun _ w₃ hw₃ => ?_) fun _ he => he
    · obtain ⟨s, hs, hge⟩ := hex
      refine hE (fun hwrap => ?_) ⟨hlock', hbounds, hfree⟩
      have := seatAt_lt hwrap (hbounds s (by simpa [listed] using hs))
      rw [h.size e he] at hge
      omega
    · obtain ⟨hf₃, hm₃, hinside⟩ := hw₃
      rw [List.drop_zero] at hinside
      have hmem : w₃.mem = w.mem.reserve e (listed num_seats xs ys) := by
        rw [hm₃, List.drop_zero, hm₂]
        rfl
      have hev₃ : w₃.mem.events.load e.event = some (e.reserved (listed num_seats xs ys)).ev := by
        rw [hmem]
        exact (Heap.load_set hev _ _).trans (if_pos rfl)
      refine wp_leaveEvent hev₃ fun w' hm hf => ?_
      rw [hm, hf]
      exact ⟨hf₃.trans hf₂, Or.inr ⟨trivial, hlock', ⟨hbounds, hfree⟩, hmem, hinside⟩⟩

/-- Do the locks of `ems_reserve` hold? -/
def Env.reserves (env : Env) : Bool := env.lockList && env.unlockList && env.lockEvent

/-- **`ems_reserve`**: it returns 1 and leaves the store alone, or it returns 0 and the event with
    that id has accepted the reservation. -/
theorem wp_emsReserve (h : Rep w.mem l es) {env : Env} {id : UInt32} {num_seats : UInt64}
    {xs ys : List UInt64} (hlen : num_seats.toNat ≤ (xs.zip ys).length) {E : Stop → Prop}
    (hE : ∀ e, findId es id = some e → ¬ NoWrap e.ev.rows e.ev.cols →
      env.reserves = true ∧ Accepts e (listed num_seats xs ys) → E .outOfBounds) :
    wp (emsReserve env id num_seats xs ys) (fun code w' => w'.fd = w.fd ∧
      (code = 1 ∧ w'.mem = w.mem ∧ (env.reserves = true → ∀ e, findId es id = some e →
          ¬ Accepts e (listed num_seats xs ys)) ∨
        code = 0 ∧ env.reserves = true ∧ ∃ e, findId es id = some e ∧
          Accepts e (listed num_seats xs ys) ∧
          w'.mem = w.mem.reserve e (listed num_seats xs ys) ∧
          ∀ s ∈ listed num_seats xs ys, seatAt e.ev s < e.cells.length)) E w := by
  rw [emsReserve, wp_bind]
  refine wp_mono (wp_emsReserveLookup h id) (fun r w₁ hr => ?_) fun _ he => he
  obtain ⟨hm, hf, hr⟩ := hr
  cases hlocks : env.lockList && env.unlockList with
  | false =>
    obtain rfl : r = .inl 1 := by simpa [hlocks] using hr
    exact ⟨hf, Or.inl ⟨rfl, hm, fun hok => by simp [Env.reserves, hlocks] at hok⟩⟩
  | true =>
    have hres : env.reserves = env.lockEvent := by simp [Env.reserves, hlocks]
    cases hfind : findId es id with
    | none =>
      obtain rfl : r = .inl 1 := by simpa [hlocks, lookupResult, hfind] using hr
      exact ⟨hf, Or.inl ⟨rfl, hm, by simp⟩⟩
    | some e =>
      obtain rfl : r = .inr e.event := by simpa [hlocks, lookupResult, hfind] using hr
      obtain ⟨he, -⟩ := findId_eq_some hfind
      have h₁ : Rep w₁.mem l es := by rwa [hm]
      refine wp_mono (wp_emsReserveLocked h₁ he hlen fun hn hacc => hE e hfind hn (hres ▸ hacc))
        (fun code w₂ hpost => ?_) fun _ he => he
      obtain ⟨hf₂, ⟨rfl, hm₂, hrej⟩ | ⟨rfl, hlock, hacc, hm₂, hinside⟩⟩ := hpost
      · refine ⟨hf₂.trans hf, Or.inl ⟨rfl, hm₂.trans hm, fun hok e' he' => ?_⟩⟩
        cases he'
        exact hrej (hres ▸ hok)
      · exact ⟨hf₂.trans hf,
          Or.inr ⟨rfl, hres.trans hlock, e, rfl, hacc, by rw [hm₂, hm], hinside⟩⟩

end EventServer
