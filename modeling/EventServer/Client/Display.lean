import EventServer.Client.Api
import EventServer.Server.Replies

/-
  What a client sends, and what it makes of a response.

  `Progress` describes a call that is under way by what it has written, read and printed; one
  rule per kind of field extends it. The two loops read the variable parts of responses:
  `wp_showRows` takes the seats row by row where the server sent them in one flat loop, and
  `gridText_eq` says that row `r` and column `c` print the cell that `seat_index` gives; the
  loop of `ems_list_events` prints a line per id (`wp_listLoop`).
-/

namespace EventServer

open Lib

/-! ## What is printed -/

/-- The reservation in the seat of a row and a column, or 0. -/
def Entry.seat (e : Entry) (row col : Nat) : UInt32 :=
  e.cells.getD (seatIndex e.ev (.ofNat row) (.ofNat col)).toNat 0

/-- A row of an event: its seats, each with a space after it. -/
def Entry.rowText (e : Entry) (row : Nat) : Bytes :=
  ((List.range' 1 e.ev.cols.toNat).map fun col => decimal (e.seat row col) ++ ascii " ").flatten ++
    ascii "\n"

/-- An event: its rows. -/
def Entry.text (e : Entry) : Bytes :=
  ((List.range' 1 e.ev.rows.toNat).map e.rowText).flatten

/-- The line of an event in a list. -/
def eventLine (id : UInt32) : Bytes := ascii "Event: " ++ decimal id ++ ascii "\n"

/-- A list of events: a line for each. -/
def listText (ids : List UInt32) : Bytes :=
  if ids = [] then ascii "No events\n" else (ids.map eventLine).flatten

/-- Cells in a row. -/
def cellsText (cells : List UInt32) : Bytes :=
  (cells.map fun c => decimal c ++ ascii " ").flatten

/-- The first `n` rows of cells that come one after the other. -/
def gridText (cols : Nat) : Nat → List UInt32 → Bytes
  | 0, _ => []
  | n + 1, cells => cellsText (cells.take cols) ++ ascii "\n" ++ gridText cols n (cells.drop cols)

/-- Every seat of an event has its cell. -/
theorem Entry.seat_eq {e : Entry} (hfit : NoWrap e.ev.rows e.ev.cols)
    (hsize : e.cells.length = (e.ev.rows * e.ev.cols).toNat) {i j : Nat}
    (hi : i < e.ev.rows.toNat) (hj : j < e.ev.cols.toNat) :
    e.cells[i * e.ev.cols.toNat + j]? = some (e.seat (i + 1) (j + 1)) := by
  have hrow : (UInt64.ofNat (i + 1)).toNat = i + 1 := by
    rw [UInt64.toNat_ofNat', Nat.mod_eq_of_lt (by have := e.ev.rows.toNat_lt; omega)]
  have hcol : (UInt64.ofNat (j + 1)).toNat = j + 1 := by
    rw [UInt64.toNat_ofNat', Nat.mod_eq_of_lt (by have := e.ev.cols.toNat_lt; omega)]
  have hin : InBounds e.ev (.ofNat (i + 1), .ofNat (j + 1)) := by
    simp only [InBounds, UInt64.le_iff_toNat_le, hrow, hcol]
    refine ⟨?_, hi, ?_, hj⟩ <;> simp
  have hat := seatAt_eq hfit hin
  have hlt := seatAt_lt hfit hin
  rw [hrow, hcol, Nat.add_sub_cancel, Nat.add_sub_cancel] at hat
  rw [← hsize] at hlt
  have hseat : e.seat (i + 1) (j + 1) = e.cells.getD (seatAt e.ev (.ofNat (i + 1), .ofNat (j + 1))) 0 :=
    rfl
  rw [hseat, ← hat, List.getD_eq_getElem?_getD, List.getElem?_eq_getElem hlt, Option.getD_some]

/-- The cells of a row. -/
theorem Entry.row_eq {e : Entry} (hfit : NoWrap e.ev.rows e.ev.cols)
    (hsize : e.cells.length = (e.ev.rows * e.ev.cols).toNat) {i : Nat} (hi : i < e.ev.rows.toNat) :
    (e.cells.drop (i * e.ev.cols.toNat)).take e.ev.cols.toNat =
      (List.range' 1 e.ev.cols.toNat).map fun col => e.seat (i + 1) col := by
  refine List.ext_getElem? fun j => ?_
  by_cases hj : j < e.ev.cols.toNat
  · rw [List.getElem?_take_of_lt hj, List.getElem?_drop, e.seat_eq hfit hsize hi hj,
      List.getElem?_map, List.getElem?_range' hj]
    simp [Nat.add_comm]
  · rw [List.getElem?_eq_none (by simp; omega), List.getElem?_eq_none (by simp; omega)]

/-- **Row `r` and column `c` print the cell that `seat_index` gives.** -/
theorem Entry.gridText_eq {e : Entry} (hfit : NoWrap e.ev.rows e.ev.cols)
    (hsize : e.cells.length = (e.ev.rows * e.ev.cols).toNat) : ∀ n i, i + n = e.ev.rows.toNat →
    gridText e.ev.cols.toNat n (e.cells.drop (i * e.ev.cols.toNat)) =
      ((List.range' (i + 1) n).map e.rowText).flatten
  | 0, i, _ => rfl
  | n + 1, i, hn => by
      have hrow : cellsText ((e.cells.drop (i * e.ev.cols.toNat)).take e.ev.cols.toNat) ++
          ascii "\n" = e.rowText (i + 1) := by
        rw [e.row_eq hfit hsize (by omega), cellsText, List.map_map]
        rfl
      have hrest := e.gridText_eq hfit hsize n (i + 1) (by omega)
      rw [Nat.succ_mul] at hrest
      rw [gridText, List.drop_drop, hrow, hrest, List.range'_succ, List.map_cons, List.flatten_cons]

namespace Client

open Api

variable {σ : Type}

/-! ## Progress of a call -/

/-- Nothing fails on the pipes and the output file. -/
structure Process.Reliable (s : Process σ) : Prop where
  request_pipe : Calm s.request_pipe.turns
  response_pipe : Calm s.response_pipe.turns
  out : Calm s.out.turns

/-- `s'` is `s` after a call has written `sent`, read `got` and printed `text`. -/
structure Progress (s : Process σ) (sent got text : Bytes) (s' : Process σ) : Prop where
  session_id : s'.session_id = s.session_id
  server : s'.server = s.server
  sent : s'.request_pipe.written = s.request_pipe.written ++ sent
  got : s.response_pipe.bytes = got ++ s'.response_pipe.bytes
  printed : s'.out.written = s.out.written ++ text
  reliable : s'.Reliable

theorem Process.Reliable.start {s : Process σ} (h : s.Reliable) : Progress s [] [] [] s :=
  ⟨rfl, rfl, by simp, by simp, by simp, h⟩

section Rules

variable {s₀ s : Process σ} {sent got text : Bytes} {E : Stop → Prop} {Q : Int32 → Process σ → Prop}
  {next : Api σ Int32}

/-- Printing an error is not progress. -/
theorem wp_fail {msg : String} (h : Progress s₀ sent got text s)
    (hQ : ∀ s', Progress s₀ sent got text s' → Q 1 s') : wp (fail msg) Q E s :=
  hQ _ { h with reliable := { h.reliable with } }

theorem wp_writeOr {msg : String} {buffer : Bytes} (h : Progress s₀ sent got text s)
    (hnext : ∀ s', Progress s₀ (sent ++ buffer) got text s' → wp next Q E s') :
    wp (writeOr msg buffer next) Q E s := by
  obtain ⟨ts, hts, -, hw⟩ := myWrite_calm h.reliable.request_pipe buffer
  simp only [writeOr, wp_bind, wp_get, hw, wp_set]
  rw [if_neg (by omega)]
  exact hnext _ { h with
    sent := by rw [h.sent, List.append_assoc]
    reliable := { h.reliable with request_pipe := hts } }

theorem wp_writeSessionIdOr (h : Progress s₀ sent got text s)
    (hnext : ∀ s', Progress s₀ (sent ++ intBytes s₀.session_id) got text s' → wp next Q E s') :
    wp (writeSessionIdOr next) Q E s := by
  rw [writeSessionIdOr, wp_bind, wp_get, h.session_id]
  exact wp_writeOr h hnext

/-- An array that is long enough, and not longer than any reservation. -/
theorem wp_writeArrayOr {msg : String} {ns : List UInt64} {n : UInt64}
    (h : Progress s₀ sent got text s) (hlen : n.toNat ≤ ns.length) (hsmall : n.toNat < 2 ^ 60)
    (hnext : ∀ s', Progress s₀ (sent ++ sizesBytes (ns.take n.toNat)) got text s' →
      wp next Q E s') : wp (writeArrayOr msg ns (n * 8) next) Q E s := by
  have hmul : (n * 8).toNat = n.toNat * 8 := by
    rw [UInt64.toNat_mul, Nat.mod_eq_of_lt (by simp; omega)]
    rfl
  have hsize : (ssize (n * 8)).toNat = n.toNat * 8 := by rw [ssize_of_lt (by omega), hmul]
  have htake : (sizesBytes ns).take (n.toNat * 8) = sizesBytes (ns.take n.toNat) := by
    have hfirst : (sizesBytes (ns.take n.toNat)).length = n.toNat * 8 := by
      rw [length_sizesBytes, List.length_take, Nat.min_eq_left hlen]
    conv_lhs => rw [← List.take_append_drop n.toNat ns, sizesBytes_append]
    rw [← hfirst, List.take_left]
  rw [writeArrayOr, hsize, if_pos (by rw [length_sizesBytes]; omega), htake]
  exact wp_writeOr h hnext

/-- A field that is there is read. -/
theorem wp_readOr {n : Nat} {msg : String} {var : Locals → Buffer n}
    {put : Locals → Buffer n → Locals} {next : Bytes → Api σ Int32} {field rest : Bytes}
    (h : Progress s₀ sent got text s) (hn : n < 2 ^ 63) (hfield : field.length = n)
    (hrest : s₀.response_pipe.bytes = got ++ (field ++ rest))
    (hnext : ∀ s', Progress s₀ sent (got ++ field) text s' → wp (next field) Q E s') :
    wp (readOr msg var put next) Q E s := by
  subst hfield
  obtain ⟨ts, hts, -, hr⟩ := myRead_calm h.reliable.response_pipe (UInt64.ofNat field.length)
  have hbytes : s.response_pipe.bytes = field ++ rest := by
    rw [h.got, List.append_cancel_left_eq] at hrest
    exact hrest
  have hsize : (ssize (UInt64.ofNat field.length)).toNat = field.length := by
    have : (UInt64.ofNat field.length).toNat = field.length := by
      rw [UInt64.toNat_ofNat', Nat.mod_eq_of_lt (by omega)]
    rw [ssize_of_lt (by omega), this]
  have hlen : field.length ≤ (field ++ rest).length := by rw [List.length_append]; omega
  rw [hsize, hbytes, if_pos (Or.inl hlen), List.take_left, List.drop_left] at hr
  simp only [readOr, wp_bind, wp_get, hr, wp_set, overwrite_of_length _ rfl]
  rw [if_neg (by omega)]
  exact hnext _ { h with
    got := by rw [hrest, List.append_assoc]
    reliable := { h.reliable with response_pipe := hts } }

theorem wp_printStr {str : String} (h : Progress s₀ sent got text s)
    (hQ : ∀ s', Progress s₀ sent got (text ++ ascii str) s' → Q 0 s') :
    wp (Api.printStr str) Q E s := by
  obtain ⟨ts, hts, hw⟩ := printStr_calm h.reliable.out (ascii str)
  simp only [Api.printStr, wp_bind, wp_get, hw, wp_set, wp_pure]
  exact hQ _ { h with
    printed := by rw [h.printed, List.append_assoc]
    reliable := { h.reliable with out := hts } }

theorem wp_printUint {value : UInt32} (h : Progress s₀ sent got text s)
    (hQ : ∀ s', Progress s₀ sent got (text ++ decimal value) s' → Q 0 s') :
    wp (Api.printUint value) Q E s := by
  obtain ⟨ts, hts, hw⟩ := printUint_calm h.reliable.out value
  simp only [Api.printUint, wp_bind, wp_get, hw, wp_set, wp_pure]
  exact hQ _ { h with
    printed := by rw [h.printed, List.append_assoc]
    reliable := { h.reliable with out := hts } }

theorem wp_writeNewlineOr (h : Progress s₀ sent got text s)
    (hnext : ∀ s', Progress s₀ sent got (text ++ ascii "\n") s' → wp next Q E s') :
    wp (writeNewlineOr next) Q E s := by
  obtain ⟨ts, hts, -, hw⟩ := myWrite_calm h.reliable.out (ascii "\n")
  simp only [writeNewlineOr, wp_bind, wp_get, hw, wp_set]
  rw [if_neg (by omega)]
  exact hnext _ { h with
    printed := by rw [h.printed, List.append_assoc]
    reliable := { h.reliable with out := hts } }

end Rules

/-! ## The loops -/

section Loops

variable {s₀ : Process σ} {sent : Bytes} {E : Stop → Prop} {Q : Int32 → Process σ → Prop}
  {next : Api σ Int32} {num_cols num_events : UInt64}

/-- The inner loop of `ems_show` prints the next cells. -/
theorem wp_showRow : ∀ (cells : List UInt32) (j : UInt64) (rest : Bytes) {s : Process σ}
    {got text : Bytes}, j.toNat + cells.length = num_cols.toNat → Progress s₀ sent got text s →
    s₀.response_pipe.bytes = got ++ (cellsBytes cells ++ rest) →
    (∀ s', Progress s₀ sent (got ++ cellsBytes cells) (text ++ cellsText cells) s' →
      wp next Q E s') →
    wp (showRow num_cols next cells.length j) Q E s
  | [], _, _, s, _, _, _, h, _, hnext => by
      simp only [cellsBytes, cellsText, List.map_nil, List.flatten_nil, List.append_nil] at hnext
      exact hnext s h
  | c :: cells, j, rest, s, got, text, hj, h, hrest, hnext => by
      rw [List.length_cons] at hj
      have hlt : j < num_cols := UInt64.lt_iff_toNat_lt.2 (by omega)
      have hbound := num_cols.toNat_lt
      have hsucc : (j + 1).toNat = j.toNat + 1 := toNat_counter (by omega)
      have hbytes : cellsBytes (c :: cells) = uintBytes c ++ cellsBytes cells := rfl
      have htext : cellsText (c :: cells) = decimal c ++ ascii " " ++ cellsText cells := rfl
      rw [hbytes, List.append_assoc] at hrest
      rw [List.length_cons, showRow]
      refine wp_readOr h (by decide) (length_uintBytes c) hrest fun s₁ h₁ => ?_
      rw [wp_bind, toUInt_uintBytes]
      refine wp_printUint h₁ fun s₂ h₂ => ?_
      rw [if_neg (by decide), if_pos hlt, wp_bind]
      refine wp_printStr h₂ fun s₃ h₃ => ?_
      rw [if_neg (by decide)]
      refine wp_showRow cells (j + 1) rest (by omega) h₃ (by rw [hrest]; simp) fun s' h' => ?_
      refine hnext s' ?_
      rw [hbytes, htext]
      simpa only [List.append_assoc] using h'

/-- The outer loop prints the cells that the server sent in one sequence row by row. -/
theorem wp_showRows : ∀ (n : Nat) (cells : List UInt32) (rest : Bytes) {s : Process σ}
    {got text : Bytes}, cells.length = n * num_cols.toNat → Progress s₀ sent got text s →
    s₀.response_pipe.bytes = got ++ (cellsBytes cells ++ rest) →
    (∀ s', Progress s₀ sent (got ++ cellsBytes cells) (text ++ gridText num_cols.toNat n cells) s' →
      wp next Q E s') →
    wp (showRows num_cols next n) Q E s
  | 0, cells, _, s, _, _, hlen, h, _, hnext => by
      obtain rfl : cells = [] := List.eq_nil_of_length_eq_zero (by omega)
      simp only [cellsBytes, gridText, List.map_nil, List.flatten_nil, List.append_nil] at hnext
      exact hnext s h
  | n + 1, cells, rest, s, got, text, hlen, h, hrest, hnext => by
      rw [Nat.succ_mul] at hlen
      have hrow : (cells.take num_cols.toNat).length = num_cols.toNat := by
        rw [List.length_take]
        omega
      have hcells : cellsBytes cells = cellsBytes (cells.take num_cols.toNat) ++
          cellsBytes (cells.drop num_cols.toNat) := by
        rw [← cellsBytes_append, List.take_append_drop]
      rw [hcells, List.append_assoc] at hrest
      have hshow := @wp_showRow σ s₀ sent E Q (writeNewlineOr (showRows num_cols next n)) num_cols
        (cells.take num_cols.toNat) 0 (cellsBytes (cells.drop num_cols.toNat) ++ rest) s got text
        (by rw [hrow]; simp) h hrest
      rw [hrow] at hshow
      rw [showRows]
      refine hshow fun s₁ h₁ => wp_writeNewlineOr h₁ fun s₂ h₂ => ?_
      refine wp_showRows n (cells.drop num_cols.toNat) rest (by rw [List.length_drop]; omega) h₂
        (by rw [hrest]; simp) fun s' h' => hnext s' ?_
      rw [hcells, gridText]
      simpa only [List.append_assoc] using h'

/-- The loop of `ems_list_events` with the newline after it prints a line for each id. -/
theorem wp_listLoop : ∀ (id : UInt32) (ids : List UInt32) (i : UInt64) (rest : Bytes)
    {s : Process σ} {got text : Bytes}, i.toNat + ids.length + 1 = num_events.toNat →
    Progress s₀ sent got text s →
    s₀.response_pipe.bytes = got ++ (cellsBytes (id :: ids) ++ rest) →
    (∀ s', Progress s₀ sent (got ++ cellsBytes (id :: ids))
      (text ++ ((id :: ids).map eventLine).flatten) s' → wp next Q E s') →
    wp (listLoop num_events (writeNewlineOr next) (ids.length + 1) i) Q E s
  | id, ids, i, rest, s, got, text, hi, h, hrest, hnext => by
      have hone : (1 : UInt64) ≤ num_events := UInt64.le_iff_toNat_le.2 (by simp; omega)
      have hlast : i < num_events - 1 ↔ ids ≠ [] := by
        rw [UInt64.lt_iff_toNat_lt, UInt64.toNat_sub_of_le _ _ hone, ← List.length_pos_iff]
        simp
        omega
      have hbytes : cellsBytes (id :: ids) = uintBytes id ++ cellsBytes ids := rfl
      rw [hbytes, List.append_assoc] at hrest
      rw [listLoop]
      refine wp_readOr h (by decide) (length_uintBytes id) hrest fun s₁ h₁ => ?_
      rw [wp_bind, toUInt_uintBytes]
      refine wp_printStr h₁ fun s₂ h₂ => ?_
      rw [if_neg (by decide), wp_bind]
      refine wp_printUint h₂ fun s₃ h₃ => ?_
      rw [if_neg (by decide)]
      cases ids with
      | nil =>
        rw [if_neg (by simpa using hlast), List.length_nil, listLoop]
        refine wp_writeNewlineOr h₃ fun s' h' => hnext s' ?_
        simpa [eventLine, cellsBytes] using h'
      | cons id' ids =>
        have hbound := num_events.toNat_lt
        have hsucc : (i + 1).toNat = i.toNat + 1 := toNat_counter (by omega)
        rw [List.length_cons] at hi ⊢
        rw [if_pos (hlast.2 (by simp))]
        refine wp_writeNewlineOr h₃ fun s₄ h₄ => ?_
        refine wp_listLoop id' ids (i + 1) rest (by omega) h₄ (by rw [hrest]; simp) fun s' h' =>
          hnext s' ?_
        rw [hbytes, List.map_cons, List.flatten_cons, eventLine]
        simpa only [List.append_assoc] using h'

end Loops

end Client

end EventServer
