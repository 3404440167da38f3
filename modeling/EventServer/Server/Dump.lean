import EventServer.Client.Display
import EventServer.Server.Threads
import EventServer.Common.Output

/-
  What the server prints: `ems_show_stdout`, and `print_events` on SIGUSR1.

  `Entry.dump` is the grid of an event as `ems_show_stdout` prints it: rows in order, a single
  space between two seats, a newline behind each row; it is `none` when a counter of the loops
  cannot pass the last row or column. `wp_emsShowStdout_shown` holds for every event and every
  descriptor. `print_events` leaves its loop at the tail of the list before it has printed it,
  so it prints all events but the last (`printEvents_iff`).
-/

namespace EventServer

open Lib Op

/-! ## The grid of an event -/

/-- `n` seats of a row from column `col` on, with a space between two seats. -/
def Entry.seatsDump (e : Entry) (row col n : Nat) : Bytes :=
  (ascii " ").intercalate ((List.range' col n).map fun c => decimal (e.seat row c))

def Entry.rowDump (e : Entry) (row : Nat) : Bytes :=
  e.seatsDump row 1 e.ev.cols.toNat ++ ascii "\n"

/-- `n` rows from row `row` on. -/
def Entry.rowsDump (e : Entry) (row n : Nat) : Bytes :=
  ((List.range' row n).map e.rowDump).flatten

/-- A counter of type `size_t` never exceeds the number of rows, or of the columns of a row. -/
def Entry.Endless (e : Entry) : Prop :=
  e.ev.rows.toNat + 1 = 2 ^ 64 ∨ e.ev.cols.toNat + 1 = 2 ^ 64 ∧ e.ev.rows ≠ 0

instance (e : Entry) : Decidable e.Endless := inferInstanceAs (Decidable (_ ∨ _))

theorem Entry.Endless.rows_pos {e : Entry} (h : e.Endless) : 1 ≤ e.ev.rows := by
  rw [UInt64.le_iff_toNat_le, UInt64.toNat_one]
  rcases h with hrows | ⟨-, hne⟩
  · omega
  · exact Nat.one_le_iff_ne_zero.2 fun h0 => hne (UInt64.toNat_inj.1 h0)

/-- The grid of an event, if it comes to an end. -/
def Entry.dump (e : Entry) : Option Bytes :=
  if e.Endless then none else some (e.rowsDump 1 e.ev.rows.toNat)

theorem Entry.seatsDump_succ (e : Entry) (row col n : Nat) :
    e.seatsDump row col (n + 1) = decimal (e.seat row col) ++
      if n = 0 then [] else ascii " " ++ e.seatsDump row (col + 1) n := by
  cases n with
  | zero => simp [seatsDump, List.intercalate]
  | succ n => simp [seatsDump, List.intercalate, List.range'_succ]

theorem Entry.rowsDump_succ (e : Entry) (row n : Nat) :
    e.rowsDump row (n + 1) = e.rowDump row ++ e.rowsDump (row + 1) n := by
  simp [rowsDump, List.range'_succ]

/-! ## `ems_show_stdout` -/

/-- The operation has left the memory alone, and if it has returned 1 or not written all of
    `text`, a `write` has failed. -/
structure Shown (w : World) (text : Option Bytes) (code : Int32) (w' : World) : Prop where
  mem : w'.mem = w.mem
  wrote : Wrote w.fd text w'.fd
  code : code = 0 ∨ code = 1 ∧ Failed w.fd w'.fd

theorem Shown.after {w w₁ w₂ : World} {text : Option Bytes} {str : Bytes} {code : Int32}
    (h : Shown w₁ text code w₂) (hm : w₁.mem = w.mem) (hw : Wrote w.fd (some str) w₁.fd) :
    Shown w (text.map (str ++ ·)) code w₂ :=
  ⟨h.mem.trans hm, hw.append h.wrote, h.code.imp_right (And.imp_right fun hf => hf.after hw.turns)⟩

theorem Shown.of_untouched {w w₁ w₂ : World} {text : Option Bytes} {code : Int32}
    (h : Shown w₁ text code w₂) (hw : Untouched w w₁) : Shown w text code w₂ := by
  have := h.after hw.1 (by rw [hw.2]; exact wrote_refl w.fd)
  simpa using this

variable {m : Mem} {l : Ptr} {es : List Entry} {env : Env} {E : Stop → Prop}

theorem wp_printHolding_shown {w : World} {p : Ptr} {x : Event}
    (hlive : w.mem.events.load p = some x) {str : Bytes} (text : Option Bytes) {next : Op Int32}
    (hnext : ∀ w', w'.mem = w.mem → wp next (Shown w' text) E w') :
    wp (printHolding env p str next) (Shown w (text.map (str ++ ·))) E w := by
  obtain ⟨fd, ⟨hrun, hts, hwritten⟩ | ⟨hrun, hf, -⟩⟩ := printStr_cases w.fd str
  · simp only [printHolding, wp_bind, wp_get, wp_set, hrun]
    rw [if_neg (by decide)]
    refine wp_mono (hnext { w with fd } rfl) (fun code w' h => ?_) fun _ he => he
    exact h.after rfl ⟨hts, fun _ => ⟨str, rfl, hwritten⟩⟩
  · simp only [printHolding, wp_bind, wp_get, wp_set, hrun]
    rw [if_pos (by decide), wp_bind, wp_printError, wp_bind]
    refine (wp_unlockEvent (x := x) (by exact hlive)).2 ?_
    rw [wp_pure]
    refine ⟨World.mark_mem .., ?_, Or.inr ⟨rfl, ?_⟩⟩
    · rw [World.mark_fd]
      exact .of_failed hf
    · rwa [World.mark_fd]

/-- A cell, or 0 when the fault of reading outside the array is not one that counts. -/
theorem wp_loadCell_getD {w : World} {p data : Ptr} {i : UInt64} {cells : List UInt32}
    (h : w.mem.cells.load data = some cells) (hE : cells.length ≤ i.toNat → E .outOfBounds) :
    wp (loadCell p data i) (fun c w' => c = cells.getD i.toNat 0 ∧ Untouched w w') E w := by
  rcases Nat.lt_or_ge i.toNat cells.length with hlt | hge
  · refine wp_mono (wp_loadCell h (List.getElem?_eq_getElem hlt)) (fun c w' hc => ⟨?_, hc.2⟩)
      fun _ he => he
    rw [hc.1, List.getD_eq_getElem?_getD, List.getElem?_eq_getElem hlt, Option.getD_some]
  · simp only [loadCell, wp_bind, wp_record, wp_deref, h, List.getElem?_eq_none hge]
    exact hE hge

section Loops

variable {e : Entry} (h : Rep m l es) (he : e ∈ es)

include h he

/-- The seat of a row and column, as the loops read it. -/
theorem wp_loadSeat {w : World} (hw : w.mem = m) (i j : UInt64)
    (hE : e.cells.length ≤ seatAt e.ev (i, j) → E .outOfBounds) :
    wp (loadCell e.event e.ev.data (seatIndex e.ev i j))
      (fun c w' => c = e.seat i.toNat j.toNat ∧ Untouched w w') E w := by
  refine wp_mono (wp_loadCell_getD (p := e.event) (hw ▸ h.cells e he) hE)
    (fun c w' hc => ⟨?_, hc.2⟩) fun _ he => he
  rw [hc.1, Entry.seat, UInt64.ofNat_toNat, UInt64.ofNat_toNat]

/-- A row, from column `j` on. -/
theorem wp_printSeats_shown {i : UInt64} {next : Op Int32} (text : Option Bytes)
    (hout : ∀ j, 1 ≤ j → j ≤ e.ev.cols → e.cells.length ≤ seatAt e.ev (i, j) → E .outOfBounds)
    (hnext : ∀ w, w.mem = m → wp next (Shown w text) E w) :
    ∀ (fuel n : Nat) (j : UInt64) (w : World), w.mem = m → 1 ≤ j →
    n + j.toNat = e.ev.cols.toNat + 1 → e.ev.cols.toNat + 1 < 2 ^ 64 →
    (fuel ≤ n → E .diverges) →
    wp (printSeats env e.event e.ev i next fuel j)
      (Shown w (text.map (e.seatsDump i.toNat j.toNat n ++ ·))) E w
  | 0, n, _, _, _, _, _, _, hfuel => hfuel (Nat.zero_le n)
  | fuel + 1, n, j, w, hw, hj, hn, hcols, hfuel => by
      rw [printSeats]
      split
      · next hle =>
        have hle' := UInt64.le_iff_toNat_le.1 hle
        obtain ⟨n, rfl⟩ : ∃ k, n = k + 1 := ⟨n - 1, by omega⟩
        have hsucc : (j + 1).toNat = j.toNat + 1 := toNat_counter (by omega)
        have hrest : ∀ w', w'.mem = m → wp (printSeats env e.event e.ev i next fuel (j + 1))
            (Shown w' (text.map (e.seatsDump i.toNat (j.toNat + 1) n ++ ·))) E w' := fun w' hw' => by
          have := wp_printSeats_shown text hout hnext fuel n (j + 1) w' hw'
            (UInt64.le_iff_toNat_le.2 (by rw [hsucc]; simp)) (by omega) hcols
            fun hle => hfuel (by omega)
          rwa [hsucc] at this
        rw [wp_bind]
        refine wp_mono (wp_loadSeat h he hw i j (hout j hj hle)) (fun c w₁ hc => ?_) fun _ he => he
        obtain ⟨rfl, hw₁⟩ := hc
        have hlive : ∀ w' : World, w'.mem = m → w'.mem.events.load e.event = some e.ev :=
          fun w' hw' => hw' ▸ h.event e he
        have hm₁ : w₁.mem = m := hw₁.1.trans hw
        refine wp_mono (wp_printHolding_shown (hlive w₁ hm₁) (text.map fun t =>
          (if n = 0 then [] else ascii " " ++ e.seatsDump i.toNat (j.toNat + 1) n) ++ t)
          fun w₂ hm₂ => ?_) (fun code w' hshown => ?_) fun _ he => he
        · rw [hm₁] at hm₂
          split
          · next hlt =>
            have hlt' := UInt64.lt_iff_toNat_lt.1 hlt
            refine wp_mono (wp_printHolding_shown (hlive w₂ hm₂) _ fun w₃ hm₃ =>
              hrest w₃ (hm₃.trans hm₂)) (fun code w' hshown => ?_) fun _ he => he
            rw [if_neg (by omega)]
            simpa [Option.map_map, Function.comp_def] using hshown
          · next hnlt =>
            have hnlt' : ¬ j.toNat < e.ev.cols.toNat :=
              fun hlt => hnlt (UInt64.lt_iff_toNat_lt.2 hlt)
            obtain rfl : n = 0 := by omega
            refine wp_mono (hrest w₂ hm₂) (fun code w' hshown => ?_) fun _ he => he
            simpa [Entry.seatsDump, List.intercalate] using hshown
        · rw [e.seatsDump_succ]
          simpa [Option.map_map, Function.comp_def] using hshown.of_untouched hw₁
      · next hnle =>
        have hnle' : ¬ j.toNat ≤ e.ev.cols.toNat := fun hle => hnle (UInt64.le_iff_toNat_le.2 hle)
        obtain rfl : n = 0 := by omega
        refine wp_mono (hnext w hw) (fun code w' hshown => ?_) fun _ he => he
        simpa [Entry.seatsDump, List.intercalate] using hshown

/-- A row whose last column is the largest `size_t`: the counter wraps. -/
theorem wp_printSeats_endless {i : UInt64} {next : Op Int32} (hcols : e.ev.cols.toNat + 1 = 2 ^ 64)
    (hdiv : E .diverges) (hout : E .outOfBounds) :
    ∀ (fuel : Nat) (j : UInt64) (w : World), w.mem = m →
    wp (printSeats env e.event e.ev i next fuel j) (Shown w none) E w
  | 0, _, _, _ => hdiv
  | fuel + 1, j, w, hw => by
      have hle : j ≤ e.ev.cols := UInt64.le_iff_toNat_le.2 (by have := j.toNat_lt; omega)
      have hlive : ∀ w' : World, w'.mem = m → w'.mem.events.load e.event = some e.ev :=
        fun w' hw' => hw' ▸ h.event e he
      rw [printSeats, if_pos hle, wp_bind]
      refine wp_mono (wp_loadSeat h he hw i j fun _ => hout) (fun c w₁ hc => ?_) fun _ he => he
      have hm₁ : w₁.mem = m := hc.2.1.trans hw
      refine wp_mono (wp_printHolding_shown (hlive w₁ hm₁) none fun w₂ hm₂ => ?_)
        (fun code w' hshown => hshown.of_untouched hc.2) fun _ he => he
      rw [hm₁] at hm₂
      split
      · exact wp_printHolding_shown (hlive w₂ hm₂) none fun w₃ hm₃ =>
          wp_printSeats_endless hcols hdiv hout fuel (j + 1) w₃ (hm₃.trans hm₂)
      · exact wp_printSeats_endless hcols hdiv hout fuel (j + 1) w₂ hm₂

/-- The rows from row `i` on, of an event whose loops end. -/
theorem wp_printRows_shown {width : Nat} (hend : ¬ e.Endless)
    (hout : ∀ s, InBounds e.ev s → e.cells.length ≤ seatAt e.ev s → E .outOfBounds)
    (hwidth : width ≤ e.ev.cols.toNat → E .diverges) :
    ∀ (fuel n : Nat) (i : UInt64) (w : World), w.mem = m → 1 ≤ i →
    n + i.toNat = e.ev.rows.toNat + 1 → (fuel ≤ n → E .diverges) →
    wp (printRows env e.event e.ev width fuel i) (Shown w (some (e.rowsDump i.toNat n))) E w
  | 0, n, _, _, _, _, _, hfuel => hfuel (Nat.zero_le n)
  | fuel + 1, n, i, w, hw, hi, hn, hfuel => by
      have hrows : e.ev.rows.toNat + 1 < 2 ^ 64 := by
        have := e.ev.rows.toNat_lt
        have : ¬ e.ev.rows.toNat + 1 = 2 ^ 64 := fun hmax => hend (Or.inl hmax)
        omega
      have hlive : ∀ w' : World, w'.mem = m → w'.mem.events.load e.event = some e.ev :=
        fun w' hw' => hw' ▸ h.event e he
      rw [printRows]
      split
      · next hle =>
        have hle' := UInt64.le_iff_toNat_le.1 hle
        have hi' := UInt64.le_iff_toNat_le.1 hi
        rw [UInt64.toNat_one] at hi'
        obtain ⟨n, rfl⟩ : ∃ k, n = k + 1 := ⟨n - 1, by omega⟩
        have hsucc : (i + 1).toNat = i.toNat + 1 := toNat_counter (by omega)
        have hcols : e.ev.cols.toNat + 1 < 2 ^ 64 := by
          have := e.ev.cols.toNat_lt
          have hne : e.ev.rows ≠ 0 := fun h0 => by
            rw [h0] at hle'
            simp at hle'
            omega
          have : ¬ e.ev.cols.toNat + 1 = 2 ^ 64 := fun hmax => hend (Or.inr ⟨hmax, hne⟩)
          omega
        have hrest : ∀ w', w'.mem = m → wp (printRows env e.event e.ev width fuel (i + 1))
            (Shown w' (some (e.rowsDump (i.toNat + 1) n))) E w' := fun w' hw' => by
          have := wp_printRows_shown hend hout hwidth fuel n (i + 1) w' hw'
            (UInt64.le_iff_toNat_le.2 (by rw [hsucc]; simp)) (by omega) fun hle => hfuel (by omega)
          rwa [hsucc] at this
        refine wp_mono (wp_printSeats_shown h he _ (fun j hj hj' => hout (i, j) ⟨hi, hle, hj, hj'⟩)
          (fun w₁ hw₁ => wp_printHolding_shown (hlive w₁ hw₁) _ fun w₂ hm₂ => hrest w₂ (hm₂.trans hw₁))
          width e.ev.cols.toNat 1 w hw (le_refl 1) (by simp) hcols hwidth)
          (fun code w' hshown => ?_) fun _ he => he
        rw [e.rowsDump_succ, Entry.rowDump]
        simpa using hshown
      · next hnle =>
        have hnle' : ¬ i.toNat ≤ e.ev.rows.toNat := fun hle => hnle (UInt64.le_iff_toNat_le.2 hle)
        obtain rfl : n = 0 := by omega
        rw [wp_bind, wp_unlockEvent (x := e.ev) (hlive w hw), wp_pure]
        refine ⟨World.mark_mem .., ?_, Or.inl rfl⟩
        rw [World.mark_fd]
        exact wrote_refl w.fd

/-- The rows of an event whose loops do not end. -/
theorem wp_printRows_endless {width : Nat} (hend : e.Endless) (hdiv : E .diverges)
    (hout : 1 ≤ e.ev.cols → E .outOfBounds) :
    ∀ (fuel : Nat) (i : UInt64) (w : World), w.mem = m → i ≤ e.ev.rows →
    wp (printRows env e.event e.ev width fuel i) (Shown w none) E w
  | 0, _, _, _, _ => hdiv
  | fuel + 1, i, w, hw, hi => by
      rw [printRows, if_pos hi]
      by_cases hcols : e.ev.cols.toNat + 1 = 2 ^ 64
      · have hpos : 1 ≤ e.ev.cols := UInt64.le_iff_toNat_le.2 (by rw [UInt64.toNat_one]; omega)
        exact wp_printSeats_endless h he hcols hdiv (hout hpos) width 1 w hw
      · have hrows : e.ev.rows.toNat + 1 = 2 ^ 64 := hend.resolve_right fun hr => hcols hr.1
        refine wp_printSeats_shown h he none (fun _ h₁ h₂ _ => hout (UInt64.le_trans h₁ h₂))
          (fun w₁ hw₁ => ?_)
          width e.ev.cols.toNat 1 w hw (le_refl 1) (by simp)
          (by have := e.ev.cols.toNat_lt; omega) fun _ => hdiv
        refine wp_printHolding_shown (hw₁ ▸ h.event e he) none fun w₂ hm₂ => ?_
        exact wp_printRows_endless hend hdiv hout fuel (i + 1) w₂ (hm₂.trans hw₁)
          (UInt64.le_iff_toNat_le.2 (by have := (i + 1).toNat_lt; omega))

end Loops

/-- `E` covers what keeps `ems_show_stdout` from returning: a seat outside the array, more rounds than
    are followed, and loops that do not end. -/
structure Entry.Stops (e : Entry) (fuel : Nat) (E : Stop → Prop) : Prop where
  outside : ∀ s, InBounds e.ev s → e.cells.length ≤ seatAt e.ev s → E .outOfBounds
  fuel : fuel ≤ e.ev.rows.toNat ∨ fuel ≤ e.ev.cols.toNat → E .diverges
  endless : e.Endless → E .diverges ∧ (1 ≤ e.ev.cols → E .outOfBounds)

theorem Entry.stops_any (e : Entry) (fuel : Nat) : e.Stops fuel fun _ => True :=
  ⟨fun _ _ _ => trivial, fun _ => trivial, fun _ => ⟨trivial, fun _ => trivial⟩⟩

/-- An event whose seats have their cells, and whose loops end. -/
theorem Rep.stops_none (h : Rep m l es) {e : Entry} (he : e ∈ es)
    (hfit : NoWrap e.ev.rows e.ev.cols) (hend : ¬ e.Endless) {fuel : Nat}
    (hrows : e.ev.rows.toNat < fuel) (hcols : e.ev.cols.toNat < fuel) :
    e.Stops fuel fun _ => False := by
  have hsize := h.size e he
  refine ⟨fun s hs hge => ?_, fun hle => by omega, fun hmax => absurd hmax hend⟩
  have := seatAt_lt hfit hs
  omega

theorem wp_emsShowStdoutLookup {w : World} (h : Rep w.mem l es) (id : UInt32) :
    wp (emsShowStdoutLookup env id) (fun r w' => Untouched w w' ∧
      r = if env.lockList then lookupResult es id else .inl 1) E w := by
  unfold emsShowStdoutLookup
  refine wp_searched h (fun hlock => ?_) fun hlock h' => ?_
  · simp [hlock, Untouched]
  · rw [wp_bind]
    refine wp_leaveList h'.root h'.list fun w₂ hm hf => ?_
    rw [World.mark_mem] at hm
    rw [World.mark_fd] at hf
    cases hfind : findId es id <;> simp [hm, hf, hlock, lookupResult, hfind, Untouched]

theorem wp_emsShowStdoutLocked_shown {w : World} (h : Rep w.mem l es) {e : Entry} (he : e ∈ es)
    (hevent : env.lockEvent = true) {fuel : Nat} (hE : e.Stops fuel E) :
    wp (emsShowStdoutLocked env fuel e.event) (Shown w e.dump) E w := by
  have hev := h.event e he
  simp only [emsShowStdoutLocked, wp_bind, wp_lockEvent hev, hevent, Bool.not_true,
    Bool.false_eq_true, if_false, wp_deref, World.mark_mem, hev]
  have hw : Untouched w (w.mark true (.acquire (.event e.event))) :=
    ⟨World.mark_mem .., World.mark_fd ..⟩
  rw [Entry.dump]
  split
  · next hmax =>
    obtain ⟨hdiv, hbound⟩ := hE.endless hmax
    exact wp_mono (wp_printRows_endless h he hmax hdiv hbound fuel 1 _ hw.1 hmax.rows_pos)
      (fun code w' hshown => hshown.of_untouched hw) fun _ he => he
  · next hmax =>
    exact wp_mono (wp_printRows_shown h he hmax hE.outside (fun hle => hE.fuel (Or.inr hle)) fuel
      e.ev.rows.toNat 1 _ hw.1 (le_refl 1) rfl fun hle => hE.fuel (Or.inl hle))
      (fun code w' hshown => hshown.of_untouched hw) fun _ he => he

/-- **`ems_show_stdout`** prints the grid of the event with the given id. -/
theorem wp_emsShowStdout_shown {w : World} (h : Rep w.mem l es) {id : UInt32} {e : Entry}
    (hfind : findId es id = some e) (hlist : env.lockList = true) (hevent : env.lockEvent = true)
    {fuel : Nat} (hE : e.Stops fuel E) : wp (emsShowStdout env fuel id) (Shown w e.dump) E w := by
  rw [emsShowStdout, wp_bind]
  refine wp_mono (wp_emsShowStdoutLookup h id) (fun r w₁ hr => ?_) fun _ he => he
  obtain ⟨hw₁, hr⟩ := hr
  obtain rfl : r = .inr e.event := by simpa [hlist, lookupResult, hfind] using hr
  have h₁ : Rep w₁.mem l es := by rwa [hw₁.1]
  exact wp_mono (wp_emsShowStdoutLocked_shown h₁ (findId_eq_some hfind).1 hevent hE)
    (fun code w' hshown => hshown.of_untouched hw₁) fun _ he => he

/-- It changes nothing, whether or not there is such an event and its locks can be had. -/
theorem wp_emsShowStdout_mem {w : World} (h : Rep w.mem l es) {id : UInt32} {fuel : Nat}
    (hE : ∀ e, findId es id = some e → e.Stops fuel E) :
    wp (emsShowStdout env fuel id) (fun _ w' => w'.mem = w.mem) E w := by
  rw [emsShowStdout, wp_bind]
  refine wp_mono (wp_emsShowStdoutLookup h id) (fun r w₁ hr => ?_) fun _ he => he
  obtain ⟨⟨hm₁, -⟩, hr⟩ := hr
  rcases lookup_cases es id env.lockList with hl | ⟨e, hfind, hl⟩
  · rw [hr, hl]
    exact hm₁
  · rw [hr, hl]
    have h₁ : Rep w₁.mem l es := by rwa [hm₁]
    have he := (findId_eq_some hfind).1
    cases hevent : env.lockEvent with
    | false =>
      simp only [emsShowStdoutLocked, wp_bind, wp_lockEvent (h₁.event e he), hevent]
      exact hm₁
    | true =>
      exact wp_mono (wp_emsShowStdoutLocked_shown h₁ he hevent (hE e hfind))
        (fun _ w' hshown => hshown.mem.trans hm₁) fun _ he => he

/-- What `ems_show_stdout` prints of an event whose seats all have their cells. -/
theorem runOp_emsShowStdout (h : Rep m l es) {id : UInt32} {e : Entry}
    (hfind : findId es id = some e) (hfit : NoWrap e.ev.rows e.ev.cols) (hend : ¬ e.Endless)
    {fuel : Nat} (hrows : e.ev.rows.toNat < fuel) (hcols : e.ev.cols.toNat < fuel) :
    runOp (emsShowStdout {} fuel id) m = some ((0, e.rowsDump 1 e.ev.rows.toNat), m) := by
  obtain ⟨code, w, hrun, hm, hwrote, hcode⟩ := runOp_of_wp (x := emsShowStdout {} fuel id)
    (wp_emsShowStdout_shown (w := { mem := m }) h hfind rfl rfl
      (h.stops_none (findId_eq_some hfind).1 hfit hend hrows hcols))
  have hcalm : ¬ Failed ({} : Writer) w.fd := Calm.not_failed calm_nil
  obtain ⟨t, ht, hwritten⟩ := hwrote.written hcalm
  obtain rfl : e.rowsDump 1 e.ev.rows.toNat = t := by simpa [Entry.dump, hend] using ht
  obtain rfl : code = 0 := hcode.resolve_right fun hf => hcalm hf.2
  rw [hrun, hm, hwritten]
  rfl

/-! ## `print_events` -/

/-- `print_str` on the standard output, without a look at what it returns. -/
def printOut (str : Bytes) : Op Unit := modify fun w => { w with fd := (printStr w.fd str).2 }

/-- `print_uint` on the standard output, without a look at what it returns. -/
def printUintOut (value : UInt32) : Op Unit := do
  let w ← get
  match printUint w.fd value with
  | none => throw .outOfBounds
  | some (_, fd) => set { w with fd }

/-- The loop of `print_events`, from `current` to `toNode`. The calls of `ems_show_stdout` have the
    outcomes `envs` of their locks, and `fuel` is how many rounds of their loops are followed. -/
def printEventsLoop (fuel : Nat) (toNode : Option Ptr) :
    Nat → List Env → Option Ptr → Op Int32
  | 0, _, _ => throw .diverges
  | rounds + 1, envs, current =>
    if current = toNode then return 0
    else do
      printOut (ascii "Event: ")
      let node ← deref Mem.nodes current
      let event ← deref Mem.events (some node.event)
      printUintOut event.id
      printOut (ascii "\n")
      if (← emsShowStdout (envs.headD {}) fuel event.id) = 1 then
        printError "Error printing event.\n"
        return 1
      else printEventsLoop fuel toNode rounds envs.tail node.next

/-- Prints the events from the event list. -/
def printEvents (fuel : Nat) (envs : List Env) : Op Int32 := do
  let events ← deref Mem.lists (← get).mem.eventList
  if events.head = none then
    printError "No event details to print.\n"
    return 1
  else printEventsLoop fuel events.tail (← get).mem.nodes.fresh envs events.head

/-- The dump of some events, each its line and its grid, if it comes to an end. -/
def dumpText : List Entry → Option Bytes
  | [] => some []
  | e :: es => (e.dump.map (eventLine e.ev.id ++ ·)).bind fun t => (dumpText es).map (t ++ ·)

theorem wp_printOut {w : World} (str : Bytes) : wp (printOut str) (fun _ w' =>
    w'.mem = w.mem ∧ Wrote w.fd (some str) w'.fd) E w :=
  ⟨rfl, wrote_printStr w.fd str⟩

theorem wp_printUintOut {w : World} (value : UInt32) : wp (printUintOut value) (fun _ w' =>
    w'.mem = w.mem ∧ Wrote w.fd (some (decimal value)) w'.fd) E w := by
  simp only [printUintOut, wp_bind, wp_get, printUint_eq]
  exact ⟨rfl, wrote_printStr w.fd (decimal value)⟩

/-- The loop of `print_events` prints the events from an entry of the list up to the last one, which
    it does not print. -/
theorem wp_printEventsLoop {fuel : Nat} (hE : ∀ e ∈ es, e.Stops fuel E) :
    ∀ (rounds : Nat) (envs : List Env) (w : World) (pre rest : List Entry) (e : Entry),
    Rep w.mem l es → es = pre ++ e :: rest → rest.length < rounds →
    (∀ env ∈ envs, env.lockList = true ∧ env.lockEvent = true) →
    wp (printEventsLoop fuel (es.map Entry.node).getLast? rounds envs (some e.node))
      (Shown w (dumpText (e :: rest).dropLast)) E w
  | 0, _, _, _, _, _, _, _, hf, _ => by omega
  | rounds + 1, envs, w, pre, rest, e, h, hes, hf, henvs => by
      rw [printEventsLoop]
      have he : e ∈ es := by simp [hes]
      split
      · next ht =>
        obtain rfl := (h.eq_tail_iff hes).1 ht
        exact ⟨rfl, wrote_refl w.fd, Or.inl rfl⟩
      · next ht =>
        obtain ⟨e', rest', rfl⟩ : ∃ e' rest', rest = e' :: rest' := by
          cases rest with
          | nil => exact absurd ((h.eq_tail_iff hes).2 rfl) ht
          | cons e' rest' => exact ⟨e', rest', rfl⟩
        rw [wp_bind]
        refine wp_mono (wp_printOut _) (fun _ w₁ h₁ => ?_) fun _ he => he
        have hnode := h.next_eq hes
        rw [← h₁.1] at hnode
        have hev : w₁.mem.events.load e.event = some e.ev := by rw [h₁.1]; exact h.event e he
        simp only [wp_bind, wp_deref, hnode, hev]
        refine wp_mono (wp_printUintOut _) (fun _ w₂ h₂ => ?_) fun _ he => he
        refine wp_mono (wp_printOut _) (fun _ w₃ h₃ => ?_) fun _ he => he
        have hm₃ : w₃.mem = w.mem := by rw [h₃.1, h₂.1, h₁.1]
        have hrep₃ : Rep w₃.mem l es := by rwa [hm₃]
        have hline : Wrote w.fd (some (eventLine e.ev.id)) w₃.fd :=
          (h₁.2.append h₂.2).append h₃.2
        obtain ⟨hlist, hevent⟩ :
            (envs.headD {}).lockList = true ∧ (envs.headD {}).lockEvent = true := by
          cases envs with
          | nil => exact ⟨rfl, rfl⟩
          | cons env envs => exact henvs env (by simp)
        refine wp_mono (wp_emsShowStdout_shown hrep₃ (h.findId_of_mem he) hlist hevent (hE e he))
          (fun code w₄ h₄ => ?_) fun _ he => he
        have hwrote : Wrote w.fd (e.dump.map (eventLine e.ev.id ++ ·)) w₄.fd :=
          hline.append h₄.wrote
        obtain rfl | ⟨rfl, hfailed⟩ := h₄.code
        · rw [if_neg (by decide)]
          have hm₄ : w₄.mem = w.mem := h₄.mem.trans hm₃
          refine wp_mono (wp_printEventsLoop hE rounds envs.tail w₄ (pre ++ [e]) rest' e' (by rwa [hm₄])
            (by simp [hes]) (by simp at hf; omega) fun env henv => henvs env (List.mem_of_mem_tail henv))
            (fun code w₅ h₅ => ?_) fun _ he => he
          exact ⟨h₅.mem.trans hm₄, hwrote.append h₅.wrote,
            h₅.code.imp_right (And.imp_right fun hf => hf.after hwrote.turns)⟩
        · rw [if_pos rfl]
          have hf : Failed w.fd w₄.fd := hfailed.after hline.turns
          exact ⟨h₄.mem.trans hm₃, .of_failed hf, Or.inr ⟨rfl, hf⟩⟩

/-- What `print_events` prints, and when it returns 1. -/
theorem wp_printEvents {w : World} (h : Rep w.mem l es) {fuel : Nat} (hE : ∀ e ∈ es, e.Stops fuel E)
    {envs : List Env} (henvs : ∀ env ∈ envs, env.lockList = true ∧ env.lockEvent = true) :
    wp (printEvents fuel envs) (fun code w' => w'.mem = w.mem ∧
      Wrote w.fd (dumpText es.dropLast) w'.fd ∧
      (code = 0 ∨ code = 1 ∧ (es = [] ∨ Failed w.fd w'.fd))) E w := by
  simp only [printEvents, wp_bind, wp_get, h.root, wp_deref, h.list]
  cases es with
  | nil => exact ⟨rfl, wrote_refl w.fd, Or.inr ⟨rfl, Or.inl rfl⟩⟩
  | cons e rest =>
    rw [if_neg (by simp)]
    have hlen := h.length_le
    refine wp_mono (wp_printEventsLoop hE _ envs w [] rest e h rfl
      (by simp at hlen; omega) henvs)
      (fun code w' hshown => ?_) fun _ he => he
    exact ⟨hshown.mem, hshown.wrote, hshown.code.imp_right (And.imp_right Or.inr)⟩

/-! ### Is the dump complete? -/

/-- The dump has all events of the store, each followed by its grid, and `print_events` returns 1 only
    if there is none or a `write` has failed. -/
structure DumpsAll (m : Mem) (es : List Entry) : Prop where
  text : ∀ fd, Calm fd.turns → ∃ fuel code w t, dumpText es = some t ∧
    (printEvents fuel []).run { mem := m, fd } = .ok (code, w) ∧ w.fd.written = fd.written ++ t
  code : ∀ fd fuel w, (printEvents fuel []).run { mem := m, fd } = .ok (1, w) →
    es = [] ∨ Failed fd w.fd

theorem dumpText_append (es es' : List Entry) :
    dumpText (es ++ es') = (dumpText es).bind fun t => (dumpText es').map (t ++ ·) := by
  induction es with
  | nil => simp [dumpText]
  | cons e es ih =>
    rw [List.cons_append, dumpText, dumpText, ih]
    cases e.dump <;> cases dumpText es <;> cases dumpText es' <;> simp

/-- The last event is missing in the dump of the others. -/
theorem dumpText_dropLast_ne {es : List Entry} (hne : es ≠ []) {t : Bytes}
    (h : dumpText es = some t) : dumpText es.dropLast ≠ some t := by
  intro hfront
  rw [← List.dropLast_append_getLast hne, dumpText_append, hfront, Option.bind_some,
    Option.map_eq_some_iff] at h
  obtain ⟨t', ht', hlen⟩ := h
  obtain rfl : t' = [] := List.append_right_eq_self.1 hlen
  simp [dumpText, eventLine, ascii] at ht'

/-- On a descriptor without signals and errors `print_events` prints all events but the last. -/
theorem printEvents_calm (h : Rep m l es) {fd : Writer} (hcalm : Calm fd.turns) {fuel : Nat}
    {code : Int32} {w : World} (hrun : (printEvents fuel []).run { mem := m, fd } = .ok (code, w)) :
    ∃ t, dumpText es.dropLast = some t ∧ w.fd.written = fd.written ++ t :=
  (wp_run_ok (wp_printEvents (w := { mem := m, fd }) h (fun e _ => e.stops_any fuel)
    (List.forall_mem_nil _)) hrun).2.1.written hcalm.not_failed

theorem DumpsAll.eq_nil (h : Rep m l es) (hall : DumpsAll m es) : es = [] := by
  by_contra hne
  obtain ⟨fuel, code, w, t, ht, hrun, hwritten⟩ := hall.text {} calm_nil
  obtain ⟨t', ht', hwritten'⟩ := printEvents_calm h calm_nil hrun
  obtain rfl : t = t' := List.append_cancel_left (hwritten.symm.trans hwritten')
  exact dumpText_dropLast_ne hne ht ht'

/-- **The dump is complete only of an empty list.** LIST reports all events, `print_events` prints
    all but the last. -/
theorem printEvents_iff (h : Rep m l es) :
    runOp (emsListEvents {}) m = some (listing (es.map fun e => e.ev.id), m) ∧
      (DumpsAll m es ↔ es = []) ∧
      ∀ fd fuel code w, Calm fd.turns →
        (printEvents fuel []).run { mem := m, fd } = .ok (code, w) →
          ∃ t, dumpText es.dropLast = some t ∧ w.fd.written = fd.written ++ t := by
  refine ⟨runOp_emsListEvents h {}, ⟨fun hall => hall.eq_nil h, ?_⟩,
    fun fd fuel code w hcalm hrun => printEvents_calm h hcalm hrun⟩
  rintro rfl
  refine ⟨fun fd hcalm => ?_, fun _ _ _ _ => Or.inl rfl⟩
  have hwp : wp (printEvents 0 []) _ (fun _ => False) { mem := m, fd } :=
    wp_printEvents h (List.forall_mem_nil _) (List.forall_mem_nil _)
  obtain ⟨code, w, hrun, -⟩ := run_of_wp hwp
  obtain ⟨t, ht, hwritten⟩ := printEvents_calm h hcalm hrun
  exact ⟨0, code, w, t, ht, hrun, hwritten⟩

/-- A store with one event. -/
theorem printEvents_iff_single : ∃ m, runOp (emsCreate {} 7 1 2) freshMem = some ((0, []), m) ∧
    runOp (emsListEvents {}) m = some (listing [7], m) ∧
      (DumpsAll m [newEntry freshMem 7 1 2] ↔ [newEntry freshMem 7 1 2] = []) ∧
      ∀ fd fuel code w, Calm fd.turns →
        (printEvents fuel []).run { mem := m, fd } = .ok (code, w) →
          ∃ t, dumpText [] = some t ∧ w.fd.written = fd.written ++ t := by
  obtain ⟨m, hrun, h⟩ := runOp_emsCreate_first rep_freshMem 7 1 2
  exact ⟨m, hrun, printEvents_iff h⟩

/-- Its dump is not complete. -/
theorem not_dumpsAll_single : ∃ m, runOp (emsCreate {} 7 1 2) freshMem = some ((0, []), m) ∧
    ¬ DumpsAll m [newEntry freshMem 7 1 2] := by
  obtain ⟨m, hrun, h⟩ := runOp_emsCreate_first rep_freshMem 7 1 2
  exact ⟨m, hrun, fun hall => List.cons_ne_nil _ _ (hall.eq_nil h)⟩

end EventServer
