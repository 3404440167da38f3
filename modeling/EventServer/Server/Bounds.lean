import EventServer.Server.Dump
import EventServer.Server.Store

/-
  Where the operations index the seats of an event.

  `ems_reserve` and `ems_show_stdout` check a seat's coordinates one by one, but the array was
  allocated, and is indexed, with products modulo 2^64. When `rows * cols` fits, every index is
  inside (`stops_of_small`, `wp_emsReserve`); when it wraps, some seat that passes the checks
  is outside (`exists_outside`). `seatsInside_iff` puts the two together.
-/

namespace EventServer

open Lib Op

/-! ## A seat outside the array -/

/-- Of an event whose size wraps, the array is too short for its seats: the seat whose row-major
    number is the length of the array exists, and its flat index is that number. -/
theorem exists_outside {event : Event} (h : ¬ NoWrap event.rows event.cols) :
    ∃ s, InBounds event s ∧ seatAt event s = (event.rows * event.cols).toNat := by
  have hbig : 2 ^ 64 ≤ event.rows.toNat * event.cols.toNat := Nat.not_lt.1 h
  have hlt := (event.rows * event.cols).toNat_lt
  have hpos : 0 < event.cols.toNat := by
    rcases Nat.eq_zero_or_pos event.cols.toNat with h0 | hpos
    · rw [h0] at hbig
      omega
    · exact hpos
  obtain ⟨r, c, hflat, hr, hc⟩ : ∃ r c, r * event.cols.toNat + c = (event.rows * event.cols).toNat ∧
      r < event.rows.toNat ∧ c < event.cols.toNat :=
    ⟨_, _, Nat.div_add_mod' _ event.cols.toNat,
      (Nat.div_lt_iff_lt_mul hpos).2 (hlt.trans_le hbig), Nat.mod_lt _ hpos⟩
  have hrow : (UInt64.ofNat (r + 1)).toNat = r + 1 := by
    have := event.rows.toNat_lt
    rw [UInt64.toNat_ofNat', Nat.mod_eq_of_lt (by omega)]
  have hcol : (UInt64.ofNat (c + 1)).toNat = c + 1 := by
    have := event.cols.toNat_lt
    rw [UInt64.toNat_ofNat', Nat.mod_eq_of_lt (by omega)]
  have hin : InBounds event (UInt64.ofNat (r + 1), UInt64.ofNat (c + 1)) := by
    simp only [InBounds, UInt64.le_iff_toNat_le, hrow, hcol, UInt64.toNat_one]
    omega
  refine ⟨_, hin, ?_⟩
  rw [seatAt_mod hin, hrow, hcol, Nat.add_sub_cancel, Nat.add_sub_cancel, hflat,
    Nat.mod_eq_of_lt hlt]

variable {m : Mem} {l : Ptr} {es : List Entry} {env : Env}

/-! ## All uses of an event's seats -/

/-- A call that reads or writes the seats of an event. -/
inductive SeatUse where
  | emsReserve (args : SeatArgs)
  | emsShow
  | emsShowStdout (fuel : Nat)

def SeatUse.op (env : Env) (event_id : UInt32) : SeatUse → Op Int32
  | .emsReserve args => EventServer.emsReserve env event_id args.num_seats args.xs args.ys
  | .emsShow => EventServer.emsShow env event_id
  | .emsShowStdout fuel => EventServer.emsShowStdout env fuel event_id

/-- The argument arrays are long enough. -/
def SeatUse.Valid : SeatUse → Prop
  | .emsReserve args => args.Within
  | _ => True

/-- After any further calls, no use of the event's seats indexes its array outside, with any
    arguments, any outcome of the locks and any behaviour of the descriptor. -/
def SeatsInside (m : Mem) (event_id : UInt32) : Prop :=
  ∀ (cs : List StoreCall) (m' : Mem), exec storeStep m cs = some m' →
    ∀ (use : SeatUse) (env : Env) (fd : Writer), use.Valid →
      (use.op env event_id).run { mem := m', fd } ≠ .error .outOfBounds

/-- Of an event that memory has room for, `ems_show_stdout` shows only seats that exist. -/
theorem stops_of_small (h : Rep m l es) {e : Entry} (he : e ∈ es)
    (hsmall : e.ev.rows.toNat * e.ev.cols.toNat * 4 < 2 ^ 64) (fuel : Nat) :
    e.Stops fuel fun stop => stop ≠ .outOfBounds := by
  have hfit : NoWrap e.ev.rows e.ev.cols := by
    unfold NoWrap
    omega
  refine ⟨fun s hs hge => ?_, fun _ => by decide, fun hend => ⟨by decide, fun hcols => ?_⟩⟩
  · have := h.size e he ▸ seatAt_lt hfit hs
    omega
  · -- as many rows or columns as `size_t` can count leave no room for a column
    have hcols' := UInt64.le_iff_toNat_le.1 hcols
    have hrows' := UInt64.le_iff_toNat_le.1 hend.rows_pos
    rw [UInt64.toNat_one] at hcols' hrows'
    have hwide := Nat.le_mul_of_pos_right e.ev.rows.toNat hcols'
    have hlong := Nat.le_mul_of_pos_left e.ev.cols.toNat hrows'
    rcases hend with hmax | ⟨hmax, -⟩ <;> omega

/-- Of an event that memory has room for, every seat that a call comes to is inside. -/
theorem SeatUse.wp_op {w : World} (h : Rep w.mem l es) {id : UInt32}
    (hsmall : ∀ e, findId es id = some e → e.ev.rows.toNat * e.ev.cols.toNat * 4 < 2 ^ 64)
    {use : SeatUse} (hvalid : use.Valid) (env : Env) :
    wp (use.op env id) (fun _ _ => True) (fun stop => stop ≠ .outOfBounds) w := by
  cases use with
  | emsReserve args =>
    refine wp_mono (wp_emsReserve h (SeatArgs.Within.length_le hvalid) fun e hfind hwrap _ => ?_)
      (fun _ _ _ => trivial) fun _ he => he
    have := hsmall e hfind
    exact absurd (show e.ev.rows.toNat * e.ev.cols.toNat < 2 ^ 64 by omega) hwrap
  | emsShow => exact wp_mono (wp_emsShow h id) (fun _ _ _ => trivial) fun _ he => he
  | emsShowStdout fuel =>
    refine wp_mono (wp_emsShowStdout_mem h fun e hfind => ?_) (fun _ _ _ => trivial) fun _ he => he
    exact stops_of_small h (findId_eq_some hfind).1 (hsmall e hfind) fuel

/-- A reservation of a free seat outside the array indexes it outside. -/
theorem run_emsReserve_outside (h : Rep m l es) {e : Entry} {id : UInt32}
    (hfind : findId es id = some e) {s : Seat} (hin : InBounds e.ev s)
    (hout : e.cells.length ≤ seatAt e.ev s) (fd : Writer) :
    (emsReserve {} id 1 [s.1] [s.2]).run { mem := m, fd } = .error .outOfBounds := by
  have hlisted : listed 1 [s.1] [s.2] = [s] := rfl
  have hacc : Accepts e [s] := by
    refine ⟨by simpa using hin, ?_⟩
    simp [Free, List.getElem?_eq_none hout]
  have hwp : wp (emsReserve {} id 1 [s.1] [s.2]) (fun _ _ => False)
      (fun stop => .outOfBounds = stop) { mem := m, fd } := by
    refine wp_mono (wp_emsReserve (w := { mem := m, fd }) h (le_refl 1) fun _ _ _ _ => rfl)
      (fun code w hpost => ?_) fun _ he => he
    rw [hlisted] at hpost
    obtain ⟨-, ⟨-, -, hrej⟩ | ⟨-, -, e', hfind', -, -, hinside⟩⟩ := hpost
    · exact hrej rfl e hfind hacc
    · obtain rfl : e = e' := Option.some.inj (hfind.symm.trans hfind')
      exact absurd (hinside s (List.mem_singleton_self s)) (Nat.not_lt.2 hout)
  obtain ⟨stop, hrun, rfl⟩ := run_error_of_wp hwp
  exact hrun

/-- **No seat access outside the array** of an event that `ems_create` has made, in any later
    run, if and only if its number of seats fits `size_t`. `calloc` refuses an array whose size
    in bytes does not fit. -/
theorem seatsInside_iff (h : Rep m l es) {id : UInt32} {rows cols : UInt64} {bs : Bytes} {m' : Mem}
    (hcalloc : env.callocCells = true → (rows * cols).toNat * 4 < 2 ^ 64)
    (hcreate : runOp (emsCreate env id rows cols) m = some ((0, bs), m')) :
    SeatsInside m' id ↔ NoWrap rows cols := by
  obtain ⟨code, w, hret, -, hcase⟩ :=
    wp_of_runOp (E := fun _ => True) hcreate (wp_emsCreate (w := { mem := m }) h rows cols)
  cases hret
  obtain ⟨hcode, -⟩ | ⟨-, hnew, -, halloc, h'⟩ := hcase
  · exact absurd hcode (by decide)
  have hcells : (rows * cols).toNat * 4 < 2 ^ 64 := hcalloc (by
    simp only [Env.allocates, Bool.and_eq_true] at halloc
    exact halloc.1.2)
  have hmem : newEntry m id rows cols ∈ es ++ [newEntry m id rows cols] := by simp
  constructor
  · intro hinside
    by_contra hwrap
    obtain ⟨s, hin, hat⟩ := exists_outside
      (show ¬ NoWrap (newEntry m id rows cols).ev.rows (newEntry m id rows cols).ev.cols from hwrap)
    refine hinside [] w.mem rfl (.emsReserve ⟨1, [s.1], [s.2]⟩) {} {} ⟨le_refl 1, le_refl 1⟩ ?_
    refine run_emsReserve_outside h' (h'.findId_of_mem hmem) hin ?_ {}
    exact (h'.size _ hmem).trans_le hat.ge
  · intro hfit cs m'' hrun use env' fd hvalid
    obtain ⟨es'', h'', hkeys⟩ := rep_of_run h' hrun
    have hsmall : ∀ e, findId es'' id = some e → e.ev.rows.toNat * e.ev.cols.toNat * 4 < 2 ^ 64 := by
      intro e hfind
      obtain ⟨e', he', hkey⟩ : ∃ e' ∈ es'', e'.key = (newEntry m id rows cols).key :=
        List.mem_map.1 (hkeys.subset (List.mem_map_of_mem hmem))
      have hid : e'.ev.id = id := congrArg Entry.Key.id hkey
      have hrows : e'.ev.rows = rows := congrArg Entry.Key.rows hkey
      have hcols : e'.ev.cols = cols := congrArg Entry.Key.cols hkey
      obtain rfl : e' = e := Option.some.inj ((h''.findId_of_mem he').symm.trans (hid ▸ hfind))
      rw [hrows, hcols]
      rwa [size_toNat hfit] at hcells
    intro hstop
    exact (wp_of_run_error hstop).1 (SeatUse.wp_op (w := { mem := m'', fd }) h'' hsmall hvalid env')
      rfl

/-- An event of two rows and three columns. -/
theorem seatsInside_iff_small : ∃ m, runOp (emsCreate {} 1 2 3) freshMem = some ((0, []), m) ∧
    (SeatsInside m 1 ↔ NoWrap 2 3) := by
  obtain ⟨m, hrun, -⟩ := runOp_emsCreate_first rep_freshMem 1 2 3
  exact ⟨m, hrun, seatsInside_iff rep_freshMem (fun _ => by decide) hrun⟩

/-- An event of `2^63 + 1` rows and two columns gets an array of two cells, and a reservation of
    its seat in row 2 and column 1 writes the third. -/
theorem not_seatsInside_wrapped : ∃ m,
    runOp (emsCreate {} 1 9223372036854775809 2) freshMem = some ((0, []), m) ∧
      ¬ SeatsInside m 1 := by
  refine ⟨_, rfl, fun h => ?_⟩
  refine h [] _ rfl (.emsReserve ⟨1, [2], [1]⟩) {} {} ⟨le_refl 1, le_refl 1⟩ ?_
  rfl

end EventServer
