import EventServer.Client.Leftovers
import EventServer.Common.Scan
import EventServer.Lib.Lines

/-
  What a call reports, prints and returns when its response is cut short.

  The pipe of a server that dies ends behind any byte of a response. `my_read` gives the number of
  bytes it could read, and the calls test it for -1 only: a variable of which nothing or a part has
  been received is used like any other. `Truthful` is what a call should do; `sound_iff` says for
  which responses it does so on every output (`Received`), and on which outputs (`Kept`).
-/

namespace EventServer.Client

open Lib

/-! ## Responses that are cut short -/

/-- The numbers that have been received in full. -/
def numbersOf (bs : Bytes) : List UInt32 := (groups 4 (bs.length / 4) bs).map toUInt

/-- The seats or the ids that have been received, when `bs` is all that comes. -/
def received : Call → Bytes → List UInt32
  | .emsCreate _ _ _, _ => []
  | .emsReserve _ _, _ => []
  | .emsShow _, bs =>
    (numbersOf (bs.drop 20)).take
      ((toSize ((bs.drop 4).take 8)).toNat * (toSize ((bs.drop 12).take 8)).toNat)
  | .emsListEvents, bs => (numbersOf (bs.drop 12)).take (toSize ((bs.drop 4).take 8)).toNat

/-- What a call prints behind each number. -/
def separator : Call → UInt8
  | .emsShow _ => 32
  | _ => 10

/-- A complete response with result 0, and its whole rendering. -/
inductive Renders : Call → Bytes → Bytes → Prop
  | created (event_id : UInt32) (num_rows num_cols : UInt64) :
    Renders (.emsCreate event_id num_rows num_cols) (intBytes 0) []
  | reserved (event_id : UInt32) (args : SeatArgs) :
    Renders (.emsReserve event_id args) (intBytes 0) []
  | shown (event_id : UInt32) (num_rows num_cols : UInt64) {seats : List UInt32}
    (hseats : seats.length = num_rows.toNat * num_cols.toNat) :
    Renders (.emsShow event_id)
      (intBytes 0 ++ (sizeBytes num_rows ++ (sizeBytes num_cols ++ cellsBytes seats)))
      (gridText num_cols.toNat num_rows.toNat seats)
  | listed {num_events : UInt64} {ids : List UInt32} (hids : ids.length = num_events.toNat) :
    Renders .emsListEvents (intBytes 0 ++ (sizeBytes num_events ++ cellsBytes ids))
      (if ids = [] then ascii "\n" else (ids.map eventLine).flatten)

/-- A call that has returned `ret` on the output `w`, when `bs` is all that comes of the response:
    it reports success for a complete response that it has printed to the end, it returns 1 or the
    result that it has received, and the digits that it prints behind so many separators belong to
    the number that it has received in this place. -/
structure Truthful (c : Call) (bs : Bytes) (w : Writer) (ret : Int32) (p : Process Unit) :
    Prop where
  success : ret = 0 → ∃ response rest text, bs = response ++ rest ∧ Renders c response text ∧
    p.out.written = w.written ++ text
  returned : ret = 1 ∨ ∃ rest, bs = intBytes ret ++ rest
  printed : ∃ text, p.out.written = w.written ++ text ∧
    Starts (columns (separator c) isDigit text) ((received c bs).map decimal)

/-- Whatever its variables hold, and whether its request can be sent or not. -/
def Sound (c : Call) (bs : Bytes) (w : Writer) : Prop :=
  ∀ (pipes : Pipes) (p : Process Unit), p.response_pipe.bytes = bs → p.response_pipe.eof = true →
    Calm p.response_pipe.turns → p.out = w →
    wp (c.issue pipes (return ())) (Truthful c bs w) (fun _ => False) p

/-- Everything that the call makes use of has been received. -/
def Received : Call → Bytes → Prop
  | .emsCreate _ _ _, bs => 4 ≤ bs.length
  | .emsReserve _ _, bs => 4 ≤ bs.length
  | .emsShow _, bs => 4 ≤ bs.length ∧ (toInt (bs.take 4) = 1 ∨
      20 + 4 * ((toSize ((bs.drop 4).take 8)).toNat * (toSize ((bs.drop 12).take 8)).toNat) ≤
        bs.length ∨
      -- no rows: the number of columns makes no difference, except for a success
      12 ≤ bs.length ∧ toSize ((bs.drop 4).take 8) = 0 ∧ toInt (bs.take 4) ≠ 0)
  | .emsListEvents, bs => 4 ≤ bs.length ∧ (toInt (bs.take 4) = 1 ∨ toInt (bs.take 4) = 2 ∨
      12 + 4 * (toSize ((bs.drop 4).take 8)).toNat ≤ bs.length)

/-- A list is not reported as a success with a part of its rendering lost: if every newline can be
    written, so can the rest. -/
def Kept : Call → Bytes → Writer → Prop
  | .emsListEvents, bs, w => toInt (bs.take 4) = 0 →
    (play (listStages (received .emsListEvents bs)) w).ok = true →
    (play (strict (listStages (received .emsListEvents bs))) w).ok = true
  | _, _, _ => True

/-! ## Renderings -/

theorem not_mem_decimal {sep : UInt8} (hsep : isDigit sep = false) (v : UInt32) :
    sep ∉ decimal v := fun hmem => by
  rw [decimal_digits v sep hmem] at hsep
  cases hsep

theorem not_digit_of_all {text : Bytes} (h : text.all (fun a => !isDigit a) = true) :
    ∀ a ∈ text, isDigit a = false := fun a ha => by
  simpa using List.all_eq_true.1 h a ha

theorem texts_append (as bs : List Stage) : texts (as ++ bs) = texts as ++ texts bs := by
  induction as with
  | nil => rfl
  | cons a as ih => cases a <;> simp [texts, ih]

theorem texts_gridStages (cols : Nat) : ∀ (n : Nat) (cells : List UInt32),
    texts (gridStages cols n cells) = gridText cols n cells
  | 0, _ => rfl
  | n + 1, cells => by
      have hrow : ∀ cells : List UInt32, texts (cells.flatMap cellStages) = cellsText cells := by
        intro cells
        induction cells with
        | nil => rfl
        | cons c cells ih =>
          rw [List.flatMap_cons, texts_append, ih]
          simp [cellStages, texts, cellsText]
      rw [gridStages, gridText, texts_append, hrow, texts, texts_gridStages cols n,
        List.append_assoc]

theorem texts_listStages (ids : List UInt32) :
    texts (listStages ids) = if ids = [] then ascii "\n" else (ids.map eventLine).flatten := by
  have hlines : ∀ ids : List UInt32, texts (ids.flatMap lineStages) =
      (ids.map eventLine).flatten := by
    intro ids
    induction ids with
    | nil => rfl
    | cons id ids ih =>
      rw [List.flatMap_cons, texts_append, ih]
      simp [lineStages, texts, eventLine]
  rw [listStages]
  split
  · rfl
  · exact hlines ids

theorem strict_append (as bs : List Stage) : strict (as ++ bs) = strict as ++ strict bs := by
  induction as with
  | nil => rfl
  | cons a as ih => cases a <;> simp [strict, ih]

/-- `ems_show` lets no failing `write` go unnoticed. -/
theorem strict_gridStages (cols : Nat) : ∀ (n : Nat) (cells : List UInt32),
    strict (gridStages cols n cells) = gridStages cols n cells
  | 0, _ => rfl
  | n + 1, cells => by
      have hrow : ∀ cells : List UInt32,
          strict (cells.flatMap cellStages) = cells.flatMap cellStages := by
        intro cells
        induction cells with
        | nil => rfl
        | cons c cells ih =>
          rw [List.flatMap_cons, strict_append, ih]
          rfl
      rw [gridStages, strict_append, hrow, strict, strict_gridStages cols n]

/-- Each seat has its digits in front of a space. -/
theorem columns_gridText (cols : Nat) : ∀ (n : Nat) (cells : List UInt32),
    cells.length = n * cols →
    columns 32 isDigit (gridText cols n cells) = cells.map decimal ++ [[]]
  | 0, cells, h => by
      obtain rfl : cells = [] := List.eq_nil_of_length_eq_zero (by omega)
      rfl
  | n + 1, cells, h => by
      have hrow : ∀ (cells : List UInt32) (rest : Bytes),
          columns 32 isDigit (cellsText cells ++ rest) =
            cells.map decimal ++ columns 32 isDigit rest := by
        intro cells rest
        induction cells with
        | nil => rfl
        | cons c cells ih =>
          have hcons : cellsText (c :: cells) ++ rest =
              decimal c ++ 32 :: (cellsText cells ++ rest) := by simp [cellsText, ascii]
          rw [hcons, columns_append_kept (not_mem_decimal rfl c) (decimal_digits c), ih]
          rfl
      rw [Nat.succ_mul] at h
      have hrest := columns_gridText cols n (cells.drop cols) (by rw [List.length_drop]; omega)
      rw [gridText, List.append_assoc, hrow,
        columns_append_skipped (by decide) (not_digit_of_all rfl), hrest, ← List.append_assoc,
        ← List.map_append, List.take_append_drop]

/-- Each id has its digits on a line of its own. -/
theorem columns_listText (ids : List UInt32) :
    columns 10 isDigit ((ids.map eventLine).flatten) = ids.map decimal ++ [[]] := by
  induction ids with
  | nil => rfl
  | cons id ids ih =>
    have hcons : ((id :: ids).map eventLine).flatten =
        ascii "Event: " ++ (decimal id ++ 10 :: (ids.map eventLine).flatten) := by
      simp [eventLine, ascii]
    rw [hcons, columns_append_skipped (by decide) (not_digit_of_all rfl),
      columns_append_kept (not_mem_decimal rfl id) (decimal_digits id), ih]
    rfl

/-! ## Fields -/

theorem numbersOf_cons {bs : Bytes} (h : 4 ≤ bs.length) :
    numbersOf bs = toUInt (bs.take 4) :: numbersOf (bs.drop 4) := by
  have hcount : bs.length / 4 = (bs.drop 4).length / 4 + 1 := by
    rw [List.length_drop]
    omega
  rw [numbersOf, hcount, groups, List.map_cons]
  rfl

@[simp] theorem length_numbersOf (bs : Bytes) : (numbersOf bs).length = bs.length / 4 := by
  rw [numbersOf, List.length_map, length_groups]

/-- Numbers that have been received are read. -/
theorem fields_eq_take : ∀ (n : Nat) {bs : Bytes} (b : Buffer 4), 4 * n ≤ bs.length →
    fields n bs b = (numbersOf bs).take n
  | 0, _, _, _ => rfl
  | n + 1, bs, b, h => by
      rw [fields, numbersOf_cons (by omega), List.take_succ_cons,
        fields_eq_take n _ (by rw [List.length_drop]; omega),
        overwrite_of_length b (List.length_take_of_le (by omega))]

theorem cellsBytes_take : ∀ (n : Nat) {bs : Bytes}, 4 * n ≤ bs.length →
    cellsBytes ((numbersOf bs).take n) = bs.take (4 * n)
  | 0, _, _ => rfl
  | n + 1, bs, h => by
      have hcons : ∀ c cells, cellsBytes (c :: cells) = uintBytes c ++ cellsBytes cells :=
        fun c cells => rfl
      rw [numbersOf_cons (by omega), List.take_succ_cons, hcons,
        cellsBytes_take n (by rw [List.length_drop]; omega),
        uintBytes_toUInt (List.length_take_of_le (by omega)), ← List.take_add, Nat.mul_succ,
        Nat.add_comm]

theorem resultOf_eq (v : Locals) {bs : Bytes} (h : 4 ≤ bs.length) :
    resultOf v bs = toInt (bs.take 4) := by
  rw [resultOf, overwrite_of_length _ (List.length_take_of_le h)]

theorem rowsOf_eq (v : Locals) {bs : Bytes} (h : 12 ≤ bs.length) :
    rowsOf v bs = toSize ((bs.drop 4).take 8) := by
  rw [rowsOf, overwrite_of_length _ (List.length_take_of_le (by rw [List.length_drop]; omega))]

theorem colsOf_eq (v : Locals) {bs : Bytes} (h : 20 ≤ bs.length) :
    colsOf v bs = toSize ((bs.drop 12).take 8) := by
  rw [colsOf, overwrite_of_length _ (List.length_take_of_le (by rw [List.length_drop]; omega))]

theorem eventsOf_eq (v : Locals) {bs : Bytes} (h : 12 ≤ bs.length) :
    eventsOf v bs = toSize ((bs.drop 4).take 8) := by
  rw [eventsOf, overwrite_of_length _ (List.length_take_of_le (by rw [List.length_drop]; omega))]

/-- A result that has been received. -/
theorem eq_result_append {bs : Bytes} (h : 4 ≤ bs.length) :
    bs = intBytes (toInt (bs.take 4)) ++ bs.drop 4 := by
  rw [intBytes_toInt (List.length_take_of_le h), List.take_append_drop]

theorem eq_size_append {bs : Bytes} (h : 8 ≤ bs.length) :
    bs = sizeBytes (toSize (bs.take 8)) ++ bs.drop 8 := by
  rw [sizeBytes_toSize (List.length_take_of_le h), List.take_append_drop]

theorem eq_cells_append {n : Nat} {bs : Bytes} (h : 4 * n ≤ bs.length) :
    bs = cellsBytes ((numbersOf bs).take n) ++ bs.drop (4 * n) := by
  rw [cellsBytes_take n h, List.take_append_drop]

/-- A success that has been received in full. -/
theorem renders_show {id : UInt32} {bs : Bytes} (hresult : toInt (bs.take 4) = 0)
    (h : 20 + 4 * ((toSize ((bs.drop 4).take 8)).toNat * (toSize ((bs.drop 12).take 8)).toNat) ≤
      bs.length) :
    ∃ response rest, bs = response ++ rest ∧ Renders (.emsShow id) response
      (gridText (toSize ((bs.drop 12).take 8)).toNat (toSize ((bs.drop 4).take 8)).toNat
        (received (.emsShow id) bs)) := by
  have hseats : (received (.emsShow id) bs).length =
      (toSize ((bs.drop 4).take 8)).toNat * (toSize ((bs.drop 12).take 8)).toNat := by
    rw [received, List.length_take, length_numbersOf, List.length_drop]
    omega
  refine ⟨_, bs.drop (20 + 4 * ((toSize ((bs.drop 4).take 8)).toNat *
    (toSize ((bs.drop 12).take 8)).toNat)), ?_, .shown id _ _ hseats⟩
  -- field by field
  have hint := eq_result_append (by omega : 4 ≤ bs.length)
  have hrows := eq_size_append (by rw [List.length_drop]; omega : 8 ≤ (bs.drop 4).length)
  have hcols := eq_size_append (by rw [List.length_drop]; omega : 8 ≤ (bs.drop 12).length)
  have hcells := eq_cells_append (by rw [List.length_drop]; omega :
    4 * ((toSize ((bs.drop 4).take 8)).toNat * (toSize ((bs.drop 12).take 8)).toNat) ≤
      (bs.drop 20).length)
  rw [hresult] at hint
  rw [List.drop_drop] at hrows hcols hcells
  simp only [received, List.append_assoc]
  rw [← hcells, ← hcols, ← hrows, ← hint]

theorem renders_list {bs : Bytes} (hresult : toInt (bs.take 4) = 0)
    (h : 12 + 4 * (toSize ((bs.drop 4).take 8)).toNat ≤ bs.length) :
    ∃ response rest, bs = response ++ rest ∧ Renders .emsListEvents response
      (texts (listStages (received .emsListEvents bs))) := by
  have hids : (received .emsListEvents bs).length = (toSize ((bs.drop 4).take 8)).toNat := by
    rw [received, List.length_take, length_numbersOf, List.length_drop]
    omega
  rw [texts_listStages]
  refine ⟨_, bs.drop (12 + 4 * (toSize ((bs.drop 4).take 8)).toNat), ?_, .listed hids⟩
  have hint := eq_result_append (by omega : 4 ≤ bs.length)
  have hevents := eq_size_append (by rw [List.length_drop]; omega : 8 ≤ (bs.drop 4).length)
  have hcells := eq_cells_append (by rw [List.length_drop]; omega :
    4 * (toSize ((bs.drop 4).take 8)).toNat ≤ (bs.drop 12).length)
  rw [hresult] at hint
  rw [List.drop_drop] at hevents hcells
  simp only [received, List.append_assoc]
  rw [← hcells, ← hevents, ← hint]

/-! ## What is printed when some of the writes fail -/

theorem printed_grid {cols n : Nat} {cells : List UInt32} (h : cells.length = n * cols)
    (w : Writer) : ∃ text, (play (gridStages cols n cells) w).out.written = w.written ++ text ∧
      Starts (columns 32 isDigit text) (cells.map decimal) := by
  obtain ⟨text, hwritten, hpre⟩ := play_strict_start (gridStages cols n cells) w
  rw [strict_gridStages] at hwritten
  rw [texts_gridStages] at hpre
  refine ⟨text, hwritten, (starts_columns hpre).trans ?_⟩
  rw [columns_gridText cols n cells h]
  exact starts_append_nil _

/-- A line may lack anything but its newline. -/
theorem eventOut_written (w : Writer) (id : UInt32) :
    ∃ label digits, label <+: ascii "Event: " ∧ digits <+: decimal id ∧
      (eventOut w id).written = w.written ++ (label ++ digits) := by
  obtain ⟨label, hlabel, hwritten, -⟩ := printStr_part w (ascii "Event: ")
  obtain ⟨digits, hdigits, hwritten', -⟩ :=
    printStr_part (printStr w (ascii "Event: ")).2 (decimal id)
  exact ⟨label, digits, hlabel, hdigits,
    by rw [eventOut, hwritten', hwritten, List.append_assoc]⟩

theorem columns_line {label digits : Bytes} {id : UInt32} (hlabel : label <+: ascii "Event: ")
    (hdigits : digits <+: decimal id) :
    columns 10 isDigit (label ++ digits) = [digits] ∧
      ∀ text, columns 10 isDigit (label ++ (digits ++ 10 :: text)) =
        digits :: columns 10 isDigit text := by
  have hall : ∀ a ∈ ascii "Event: ", isDigit a = false := not_digit_of_all rfl
  have hskipped : ∀ a ∈ label, isDigit a = false := fun a ha => hall a (hlabel.subset ha)
  have hnl : 10 ∉ label := fun h10 =>
    (by decide : 10 ∉ ascii "Event: ") (hlabel.subset h10)
  have hkept : ∀ a ∈ digits, isDigit a = true := fun a ha =>
    decimal_digits id a (hdigits.subset ha)
  have hnl' : 10 ∉ digits := fun h10 => not_mem_decimal rfl id (hdigits.subset h10)
  refine ⟨?_, fun text => ?_⟩
  · rw [columns_append_skipped hnl hskipped, columns_kept hnl' hkept]
  · rw [columns_append_skipped hnl hskipped, columns_append_kept hnl' hkept]

theorem printed_lines : ∀ (ids : List UInt32) (w : Writer),
    ∃ text, (play (ids.flatMap lineStages) w).out.written = w.written ++ text ∧
      Starts (columns 10 isDigit text) (ids.map decimal)
  | [], w => ⟨[], by simp [play], starts_of_nil (by simp [columns]) _⟩
  | id :: ids, w => by
      obtain ⟨label, digits, hlabel, hdigits, hwritten⟩ := eventOut_written w id
      obtain ⟨hcols, hcols'⟩ := columns_line hlabel hdigits
      obtain ⟨nl, hnl, hnlWritten, hzero⟩ := printStr_part (eventOut w id) (ascii "\n")
      rw [List.flatMap_cons, play_line]
      split
      · next h0 =>
        obtain rfl : nl = ascii "\n" := hnl.eq_of_length (hzero.1 h0)
        obtain ⟨text, htext, hstarts⟩ := printed_lines ids (printStr (eventOut w id) (ascii "\n")).2
        refine ⟨label ++ (digits ++ 10 :: text), ?_, ?_⟩
        · rw [htext, hnlWritten, hwritten]
          simp [ascii]
        · rw [hcols', List.map_cons]
          exact starts_cons.2 ⟨hdigits, hstarts⟩
      · next h0 =>
        -- not even a part of a newline
        have hlen : nl.length < (ascii "\n").length :=
          Nat.lt_of_le_of_ne hnl.length_le fun heq => h0 (hzero.2 heq)
        obtain rfl : nl = [] := List.eq_nil_of_length_eq_zero (Nat.lt_one_iff.1 hlen)
        refine ⟨label ++ digits, ?_, ?_⟩
        · rw [hnlWritten, hwritten, List.append_nil]
        · rw [hcols, List.map_cons]
          exact starts_cons.2 ⟨hdigits, starts_of_nil (by simp) _⟩

/-- A text without digits. -/
theorem starts_of_no_digit {sep : UInt8} {text full : Bytes} (hpre : text <+: full)
    (hfull : ∀ x ∈ columns sep isDigit full, x = []) (ys : List Bytes) :
    Starts (columns sep isDigit text) ys :=
  (starts_columns hpre).trans (starts_of_nil hfull ys)

theorem printed_list (ids : List UInt32) (w : Writer) :
    ∃ text, (play (listStages ids) w).out.written = w.written ++ text ∧
      Starts (columns 10 isDigit text) (ids.map decimal) := by
  rw [listStages]
  split
  · obtain ⟨text, hwritten, hpre⟩ := play_strict_start [.put (ascii "\n")] w
    exact ⟨text, hwritten, starts_of_no_digit hpre (by decide) _⟩
  · exact printed_lines ids w

/-! ## Responses of which enough has been received -/

theorem Received.four_le {c : Call} {bs : Bytes} (h : Received c bs) : 4 ≤ bs.length := by
  cases c with
  | emsCreate id rows cols => exact h
  | emsReserve id args => exact h
  | emsShow id => exact h.1
  | emsListEvents => exact h.1

theorem stages_show_received {id : UInt32} {bs : Bytes} (v : Locals)
    (h : Received (.emsShow id) bs) :
    stages (.emsShow id) v bs = [] ∧ toInt (bs.take 4) ≠ 0 ∨
      20 + 4 * ((toSize ((bs.drop 4).take 8)).toNat * (toSize ((bs.drop 12).take 8)).toNat) ≤
          bs.length ∧
        stages (.emsShow id) v bs = gridStages (toSize ((bs.drop 12).take 8)).toNat
          (toSize ((bs.drop 4).take 8)).toNat (received (.emsShow id) bs) := by
  obtain ⟨h4, h1 | hall | ⟨h12, hrows, h0⟩⟩ := h
  · refine Or.inl ⟨?_, by rw [h1]; decide⟩
    rw [stages, resultOf_eq v h4, if_pos h1]
  · by_cases h1 : toInt (bs.take 4) = 1
    · refine Or.inl ⟨?_, by rw [h1]; decide⟩
      rw [stages, resultOf_eq v h4, if_pos h1]
    · refine Or.inr ⟨hall, ?_⟩
      rw [stages, resultOf_eq v h4, if_neg h1, rowsOf_eq v (by omega), colsOf_eq v (by omega),
        fields_eq_take _ _ (by rw [List.length_drop]; omega)]
      rfl
  · refine Or.inl ⟨?_, h0⟩
    rw [stages]
    split
    · rfl
    · rw [rowsOf_eq v h12, hrows]
      rfl

theorem stages_list_received {bs : Bytes} (v : Locals) (h : Received .emsListEvents bs) :
    (stages .emsListEvents v bs = [] ∨
        stages .emsListEvents v bs = [.attempt (ascii "No events\n")]) ∧
        toInt (bs.take 4) ≠ 0 ∨
      12 + 4 * (toSize ((bs.drop 4).take 8)).toNat ≤ bs.length ∧
        stages .emsListEvents v bs = listStages (received .emsListEvents bs) := by
  obtain ⟨h4, hcases⟩ := h
  by_cases h1 : toInt (bs.take 4) = 1
  · refine Or.inl ⟨Or.inl ?_, by rw [h1]; decide⟩
    rw [stages, resultOf_eq v h4, if_pos h1]
  by_cases h2 : toInt (bs.take 4) = 2
  · refine Or.inl ⟨Or.inr ?_, by rw [h2]; decide⟩
    rw [stages, resultOf_eq v h4, if_neg h1, if_pos h2]
  have hall := (hcases.resolve_left h1).resolve_left h2
  refine Or.inr ⟨hall, ?_⟩
  rw [stages, resultOf_eq v h4, if_neg h1, if_neg h2, eventsOf_eq v (by omega),
    fields_eq_take _ _ (by rw [List.length_drop]; omega)]
  rfl

theorem returnCode_cases (pipes : Pipes) (c : Call) (result : Int32) (ok : Bool) :
    returnCode pipes c result ok = 1 ∨ returnCode pipes c result ok = result ∧ ok = true := by
  rw [returnCode]
  split
  · next h => exact Or.inr ⟨rfl, h.2.1⟩
  · exact Or.inl rfl

theorem Truthful.of_one {c : Call} {bs : Bytes} {w : Writer} {p : Process Unit} (h : p.out = w) :
    Truthful c bs w 1 p where
  success h1 := absurd h1 (by decide)
  returned := Or.inl rfl
  printed := ⟨[], by rw [h, List.append_nil], starts_of_nil (by simp [columns]) _⟩

/-- What is printed of a response of which enough has been received. -/
theorem printed_received {c : Call} {bs : Bytes} (h : Received c bs) (v : Locals) (w : Writer) :
    ∃ text, (play (stages c v bs) w).out.written = w.written ++ text ∧
      Starts (columns (separator c) isDigit text) ((received c bs).map decimal) := by
  have hnothing : ∀ {sep : UInt8} {ys : List Bytes}, ∃ text,
      (play [] w).out.written = w.written ++ text ∧ Starts (columns sep isDigit text) ys :=
    ⟨[], by simp [play], starts_of_nil (by simp [columns]) _⟩
  cases c with
  | emsCreate id rows cols => exact hnothing
  | emsReserve id args => exact hnothing
  | emsShow id =>
    obtain ⟨hss, -⟩ | ⟨hall, hss⟩ := stages_show_received v h
    · rw [hss]
      exact hnothing
    · rw [hss]
      refine printed_grid ?_ w
      rw [received, List.length_take, length_numbersOf, List.length_drop]
      omega
  | emsListEvents =>
    obtain ⟨hss | hss, -⟩ | ⟨-, hss⟩ := stages_list_received v h
    · rw [hss]
      exact hnothing
    · rw [hss]
      obtain ⟨text, hpre, hwritten, -⟩ := printStr_part w (ascii "No events\n")
      exact ⟨text, hwritten, starts_of_no_digit hpre (by decide) _⟩
    · rw [hss]
      exact printed_list _ w

/-- What is reported as a success. -/
theorem success_received {c : Call} {bs : Bytes} {w : Writer} (h : Received c bs)
    (hkept : Kept c bs w) (v : Locals) (h0 : toInt (bs.take 4) = 0)
    (hok : (play (stages c v bs) w).ok = true) :
    ∃ response rest text, bs = response ++ rest ∧ Renders c response text ∧
      (play (stages c v bs) w).out.written = w.written ++ text := by
  have hresult : bs = intBytes 0 ++ bs.drop 4 := h0 ▸ eq_result_append h.four_le
  cases c with
  | emsCreate id rows cols =>
    exact ⟨_, _, [], hresult, .created id rows cols, (List.append_nil _).symm⟩
  | emsReserve id args =>
    exact ⟨_, _, [], hresult, .reserved id args, (List.append_nil _).symm⟩
  | emsShow id =>
    obtain ⟨-, hne⟩ | ⟨hall, hss⟩ := stages_show_received v h
    · exact absurd h0 hne
    · rw [hss] at hok ⊢
      obtain ⟨text, hwritten, -, -, hfull⟩ := play_written _ w hok
      rw [strict_gridStages] at hfull
      obtain ⟨response, rest, hbs, hrenders⟩ := @renders_show id bs h0 hall
      refine ⟨response, rest, _, hbs, hrenders, ?_⟩
      rw [hwritten, hfull hok, texts_gridStages]
  | emsListEvents =>
    obtain ⟨-, hne⟩ | ⟨hall, hss⟩ := stages_list_received v h
    · exact absurd h0 hne
    · rw [hss] at hok ⊢
      obtain ⟨text, hwritten, -, -, hfull⟩ := play_written _ w hok
      obtain ⟨response, rest, hbs, hrenders⟩ := renders_list h0 hall
      refine ⟨response, rest, _, hbs, hrenders, ?_⟩
      rw [hwritten, hfull (hkept h0 hok)]

theorem sound_of_received {c : Call} {bs : Bytes} {w : Writer} (hvalid : c.Valid)
    (h : Received c bs) (hkept : Kept c bs w) : Sound c bs w := by
  intro pipes p hbytes hends hcalm hout
  refine wp_issue_at hvalid ⟨rfl, hbytes, hends, hcalm, hout⟩ (Or.inl rfl)
    (Or.inr fun p' h' => .of_one h'.out) fun v' p' h' => ?_
  rw [resultOf_eq _ h.four_le]
  refine ⟨fun h0 => ?_, ?_, ?_⟩
  · obtain hone | ⟨hcode, hok⟩ := returnCode_cases pipes c (toInt (bs.take 4))
      (play (stages c p.locals bs) w).ok
    · rw [hone] at h0
      exact absurd h0 (by decide)
    · rw [h'.out]
      exact success_received h hkept p.locals (hcode ▸ h0) hok
  · obtain hone | ⟨hcode, -⟩ := returnCode_cases pipes c (toInt (bs.take 4))
      (play (stages c p.locals bs) w).ok
    · exact Or.inl hone
    · rw [hcode]
      exact Or.inr ⟨_, eq_result_append h.four_le⟩
  · rw [h'.out]
    exact printed_received h p.locals w

/-! ## Responses of which too little has been received -/

/-- Variables that happen to hold sevens. -/
def Locals.sevens : Locals where
  result := ⟨List.replicate 4 7, rfl⟩
  num_rows := ⟨List.replicate 8 7, rfl⟩
  num_cols := ⟨List.replicate 8 7, rfl⟩
  seat := ⟨List.replicate 4 7, rfl⟩
  num_events := ⟨List.replicate 8 7, rfl⟩
  event_id := ⟨List.replicate 4 7, rfl⟩

/-- One of them is left where a field has not been received in full. -/
theorem mem_overwrite {n : Nat} {b : Buffer n} (hb : b.bytes = List.replicate n 7) {part : Bytes}
    (hpart : part.length < n) : 7 ∈ (b.overwrite part).bytes := by
  have hmem : 7 ∈ b.bytes.drop part.length := by
    rw [hb, List.drop_replicate]
    exact List.mem_replicate.2 ⟨by omega, rfl⟩
  exact List.mem_append_right _ hmem

theorem size_pos {b : Buffer 8} (hb : b.bytes = List.replicate 8 7) {part : Bytes}
    (hpart : part.length < 8) : 0 < (toSize (b.overwrite part).bytes).toNat := by
  refine Nat.pos_of_ne_zero fun h => ?_
  have hzero : toSize (b.overwrite part).bytes = 0 := UInt64.toNat_inj.1 h
  have hmem := mem_overwrite hb hpart
  rw [← sizeBytes_toSize (b.overwrite part).length_eq, hzero] at hmem
  exact absurd hmem (by decide)

theorem resultOf_sevens {bs : Bytes} (h : bs.length < 4) :
    resultOf .sevens bs ≠ 1 ∧ resultOf .sevens bs ≠ 2 := by
  have hmem : 7 ∈ intBytes (resultOf .sevens bs) := by
    rw [resultOf, intBytes_toInt (Buffer.length_eq _)]
    exact mem_overwrite rfl (by rw [List.length_take]; omega)
  exact ⟨fun h1 => absurd (h1 ▸ hmem) (by decide), fun h2 => absurd (h2 ▸ hmem) (by decide)⟩

/-- What a sound call does on some values of its variables. -/
theorem Sound.truthful {c : Call} {bs : Bytes} {w : Writer} (hvalid : c.Valid) (h : Sound c bs w)
    (v : Locals) : ∃ p, p.out = (play (stages c v bs) w).out ∧
      Truthful c bs w (returnCode {} c (resultOf v bs) (play (stages c v bs) w).ok) p := by
  obtain ⟨ret, p, hrun, htruthful⟩ :=
    run_of_wp (h {} (readingProcess bs true v w) rfl rfl calm_nil rfl)
  have hissue : wp (c.issue {} (return ())) (fun ret p => p.out = (play (stages c v bs) w).out ∧
      ret = returnCode {} c (resultOf v bs) (play (stages c v bs) w).ok) (fun _ => False)
      (readingProcess bs true v w) :=
    wp_issue_at hvalid ⟨rfl, rfl, rfl, calm_nil, rfl⟩ (Or.inl rfl) (Or.inl ⟨rfl, rfl, calm_nil⟩)
      fun _ p' h' => ⟨h'.out, rfl⟩
  obtain ⟨hout, rfl⟩ := wp_run_ok hissue hrun
  exact ⟨p, hout, htruthful⟩

/-- What it prints when nothing fails. -/
theorem Sound.texts {c : Call} {bs : Bytes} (hvalid : c.Valid) (h : Sound c bs {}) (v : Locals) :
    Starts (columns (separator c) isDigit (texts (stages c v bs)))
      ((received c bs).map decimal) := by
  obtain ⟨p, hout, htruthful⟩ := h.truthful hvalid v
  obtain ⟨text, htext, hstarts⟩ := htruthful.printed
  rw [hout, (play_calm (stages c v bs) calm_nil).2] at htext
  rwa [List.append_cancel_left htext]

theorem returnCode_of_not_ended {c : Call} {result : Int32} (h : ¬ Ended c result) :
    returnCode {} c result true = result :=
  if_pos ⟨h, rfl, rfl, rfl⟩

theorem not_ended_zero (c : Call) : ¬ Ended c 0 := by
  cases c with
  | emsListEvents => exact (by decide : ¬ ((0 : Int32) = 1 ∨ (0 : Int32) = 2))
  | _ => exact (by decide : ¬ (0 : Int32) = 1)

/-- What it has received and printed when it reports success. -/
theorem Sound.success {c : Call} {bs : Bytes} {w : Writer} (hvalid : c.Valid) (h : Sound c bs w)
    (v : Locals) (h0 : resultOf v bs = 0) (hok : (play (stages c v bs) w).ok = true) :
    ∃ response rest text, bs = response ++ rest ∧ Renders c response text ∧
      (play (stages c v bs) w).out.written = w.written ++ text := by
  obtain ⟨p, hout, htruthful⟩ := h.truthful hvalid v
  rw [h0, hok, returnCode_of_not_ended (not_ended_zero c)] at htruthful
  rw [← hout]
  exact htruthful.success rfl

theorem Sound.four_le {c : Call} {bs : Bytes} (hvalid : c.Valid) (h : Sound c bs {}) :
    4 ≤ bs.length := by
  refine Nat.le_of_not_lt fun hlt => ?_
  obtain ⟨h1, h2⟩ := resultOf_sevens hlt
  have hended : ¬ Ended c (resultOf .sevens bs) := by
    cases c with
    | emsListEvents => exact fun h12 => h12.elim h1 h2
    | _ => exact h1
  obtain ⟨p, -, htruthful⟩ := h.truthful hvalid .sevens
  rw [(play_calm _ calm_nil).1, returnCode_of_not_ended hended] at htruthful
  obtain hone | ⟨rest, hbs⟩ := htruthful.returned
  · exact h1 hone
  · have hlen := congrArg List.length hbs
    rw [List.length_append, length_intBytes] at hlen
    omega

/-- As many seats are printed as have been received, at most. -/
theorem Sound.seats_le {id : UInt32} {bs : Bytes} (h : Sound (.emsShow id) bs {}) (v : Locals)
    (h1 : resultOf v bs ≠ 1) :
    (rowsOf v bs).toNat * (colsOf v bs).toNat ≤ (bs.length - 20) / 4 := by
  have hvalid : (Call.emsShow id).Valid := trivial
  have hstarts := h.texts hvalid v
  rw [stages, if_neg h1, texts_gridStages, separator,
    columns_gridText _ _ _ (length_fields _ _ _)] at hstarts
  have hle := hstarts.length_le fun x hx => by
    obtain ⟨seat, -, rfl⟩ := List.mem_map.1 hx
    exact decimal_ne_nil seat
  rw [List.length_map, List.length_map, length_fields, received, List.length_take,
    length_numbersOf, List.length_drop] at hle
  omega

theorem Sound.ids_le {bs : Bytes} (h : Sound .emsListEvents bs {}) (v : Locals)
    (h1 : resultOf v bs ≠ 1) (h2 : resultOf v bs ≠ 2) :
    (eventsOf v bs).toNat ≤ (bs.length - 12) / 4 := by
  by_cases hnone : fields (eventsOf v bs).toNat (bs.drop 12) v.event_id = []
  · have hlen := length_fields (eventsOf v bs).toNat (bs.drop 12) v.event_id
    rw [hnone] at hlen
    rw [← hlen]
    exact Nat.zero_le _
  have hvalid : Call.emsListEvents.Valid := trivial
  have hsep : separator .emsListEvents = 10 := rfl
  have hstarts := h.texts hvalid v
  rw [stages, if_neg h1, if_neg h2, texts_listStages, if_neg hnone, hsep,
    columns_listText] at hstarts
  have hle := hstarts.length_le fun x hx => by
    obtain ⟨id, -, rfl⟩ := List.mem_map.1 hx
    exact decimal_ne_nil id
  rw [List.length_map, List.length_map, length_fields, received, List.length_take,
    length_numbersOf, List.length_drop] at hle
  omega

theorem Sound.received_show {id : UInt32} {bs : Bytes} (h : Sound (.emsShow id) bs {}) :
    Received (.emsShow id) bs := by
  have hvalid : (Call.emsShow id).Valid := trivial
  have h4 := h.four_le hvalid
  refine ⟨h4, ?_⟩
  by_cases h1 : toInt (bs.take 4) = 1
  · exact Or.inl h1
  have hle := h.seats_le .sevens (resultOf_eq .sevens h4 ▸ h1)
  refine Or.inr ?_
  by_cases h20 : 20 ≤ bs.length
  · rw [rowsOf_eq _ (by omega), colsOf_eq _ h20] at hle
    exact Or.inl (by omega)
  -- the number of columns has not been received in full
  have hcols : 0 < (colsOf .sevens bs).toNat :=
    size_pos rfl (by rw [List.length_take, List.length_drop]; omega)
  have hzero : (rowsOf .sevens bs).toNat * (colsOf .sevens bs).toNat = 0 := by omega
  have hrows := (Nat.mul_eq_zero.1 hzero).resolve_right hcols.ne'
  have h12 : 12 ≤ bs.length := by
    refine Nat.le_of_not_lt fun hlt => ?_
    have hpos : 0 < (rowsOf .sevens bs).toNat :=
      size_pos rfl (by rw [List.length_take, List.length_drop]; omega)
    omega
  refine Or.inr ⟨h12, ?_, fun h0 => ?_⟩
  · rw [rowsOf_eq _ h12] at hrows
    exact UInt64.toNat_inj.1 hrows
  · obtain ⟨response, rest, text, hbs, hrenders, -⟩ :=
      h.success hvalid .sevens (resultOf_eq .sevens h4 ▸ h0) (play_calm _ calm_nil).1
    have hlen := congrArg List.length hbs
    cases hrenders
    simp only [List.length_append, length_intBytes, length_sizeBytes] at hlen
    omega

theorem Sound.received_list {bs : Bytes} (h : Sound .emsListEvents bs {}) :
    Received .emsListEvents bs := by
  have hvalid : Call.emsListEvents.Valid := trivial
  have h4 := h.four_le hvalid
  refine ⟨h4, ?_⟩
  by_cases h1 : toInt (bs.take 4) = 1
  · exact Or.inl h1
  by_cases h2 : toInt (bs.take 4) = 2
  · exact Or.inr (Or.inl h2)
  have hle := h.ids_le .sevens (resultOf_eq .sevens h4 ▸ h1) (resultOf_eq .sevens h4 ▸ h2)
  have h12 : 12 ≤ bs.length := by
    refine Nat.le_of_not_lt fun hlt => ?_
    have hpos : 0 < (eventsOf .sevens bs).toNat :=
      size_pos rfl (by rw [List.length_take, List.length_drop]; omega)
    omega
  rw [eventsOf_eq _ h12] at hle
  exact Or.inr (Or.inr (by omega))

theorem received_of_sound {c : Call} {bs : Bytes} (hvalid : c.Valid) (h : Sound c bs {}) :
    Received c bs := by
  cases c with
  | emsCreate id rows cols => exact h.four_le hvalid
  | emsReserve id args => exact h.four_le hvalid
  | emsShow id => exact h.received_show
  | emsListEvents => exact h.received_list

/-! ## Outputs -/

/-- A list that is reported as a success has been printed to the end. -/
theorem kept_of_sound {c : Call} {bs : Bytes} {w : Writer} (hreceived : Received c bs)
    (h : Sound c bs w) : Kept c bs w := by
  cases c with
  | emsCreate id rows cols => trivial
  | emsReserve id args => trivial
  | emsShow id => trivial
  | emsListEvents =>
    intro h0 hok
    have hss : stages .emsListEvents .zero bs = listStages (received .emsListEvents bs) := by
      obtain ⟨-, hne⟩ | ⟨-, hss⟩ := stages_list_received .zero hreceived
      · exact absurd h0 hne
      · exact hss
    have hvalid : Call.emsListEvents.Valid := trivial
    obtain ⟨response, rest, full, hbs, hrenders, hfull⟩ := h.success hvalid .zero
      (resultOf_eq .zero hreceived.four_le ▸ h0) (hss ▸ hok)
    rw [hss] at hfull
    obtain ⟨text, htext, -, hiff, -⟩ := play_written _ w hok
    obtain rfl : full = text := List.append_cancel_left (hfull.symm.trans htext)
    cases hrenders with
    | @listed num_events ids hids =>
      have hcomplete : Complete .emsListEvents
          (intBytes 0 ++ (sizeBytes num_events ++ cellsBytes ids)) (listStages ids) :=
        .listed (by decide) (by decide) hids
      have hids' := (hcomplete.stages_eq .zero rest).2.1
      rw [← hbs, hss] at hids'
      refine hiff.1 ?_
      rw [hids', texts_listStages]

/-- The `write` of the first 'Event: ' fails, and no other one. -/
theorem not_kept_of_ids {bs : Bytes} (h0 : toInt (bs.take 4) = 0)
    (hids : received .emsListEvents bs ≠ []) :
    ¬ Kept .emsListEvents bs { turns := [.fail] } := by
  intro hkept
  cases hreceived : received .emsListEvents bs with
  | nil => exact hids hreceived
  | cons id ids =>
    have hfail : printStr { turns := [.fail] } (ascii "Event: ") = (1, {}) := by decide +kernel
    have hcons : listStages (id :: ids) = .take :: .attempt (ascii "Event: ") ::
        .attempt (decimal id) :: .put (ascii "\n") :: ids.flatMap lineStages := rfl
    have hok : (play (listStages (id :: ids)) { turns := [.fail] }).ok = true := by
      rw [hcons, play, play, hfail]
      exact (play_calm (_ :: _) (w := {}) calm_nil).1
    have hlost : (play (strict (listStages (id :: ids))) { turns := [.fail] }).ok = false := by
      rw [hcons, strict, strict, play, play, hfail]
      rfl
    have hall := hkept h0
    rw [hreceived] at hall
    exact Bool.false_ne_true (hlost.symm.trans (hall hok))

/-- **A call is sound exactly when all that it makes use of has been received, and no list of ids
    loses a part.** -/
theorem sound_iff {c : Call} (hvalid : c.Valid) (bs : Bytes) :
    ((∀ w, Sound c bs w) ↔ Received c bs ∧
      (c = .emsListEvents → toInt (bs.take 4) = 0 → received c bs = [])) ∧
      (Received c bs → ∀ w, Sound c bs w ↔ Kept c bs w) := by
  have hkept : Received c bs → ∀ w, Sound c bs w ↔ Kept c bs w := fun hreceived w =>
    ⟨kept_of_sound hreceived, sound_of_received hvalid hreceived⟩
  refine ⟨⟨fun h => ?_, fun ⟨hreceived, hnone⟩ w => (hkept hreceived w).2 ?_⟩, hkept⟩
  · have hreceived := received_of_sound hvalid (h {})
    refine ⟨hreceived, ?_⟩
    rintro rfl h0
    by_contra hids
    exact not_kept_of_ids h0 hids ((hkept hreceived _).1 (h _))
  · cases c with
    | emsListEvents =>
      intro h0 hok
      rw [hnone rfl h0] at hok ⊢
      exact hok
    | _ => trivial

/-- The list of one event. -/
def oneEvent : Bytes := intBytes 0 ++ (sizeBytes 1 ++ cellsBytes [7])

theorem sound_iff_sample :
    ((∀ w, Sound .emsListEvents oneEvent w) ↔ Received .emsListEvents oneEvent ∧
      (Call.emsListEvents = .emsListEvents → toInt (oneEvent.take 4) = 0 →
        received .emsListEvents oneEvent = [])) ∧
      (Received .emsListEvents oneEvent → ∀ w,
        Sound .emsListEvents oneEvent w ↔ Kept .emsListEvents oneEvent w) :=
  sound_iff (c := .emsListEvents) trivial oneEvent

/-- What a sound call returns and prints. -/
theorem Sound.of_run {c : Call} {bs : Bytes} {w : Writer} (h : Sound c bs w) {v : Locals}
    {ret : Int32} {text : Bytes}
    (hrun : ((c.issue {} (return ())).run (readingProcess bs true v w)).map
      (fun r => (r.1, r.2.out.written)) = .ok (ret, text)) :
    ∃ p, p.out.written = text ∧ Truthful c bs w ret p := by
  obtain ⟨ret', p, hok, htruthful⟩ :=
    run_of_wp (h {} (readingProcess bs true v w) rfl rfl calm_nil rfl)
  rw [hok] at hrun
  obtain ⟨rfl, rfl⟩ := Prod.mk.inj (Except.ok.inj hrun)
  exact ⟨p, rfl, htruthful⟩

/-- The server dies before it answers; it dies behind the first of two seats; the first `write` of
    a list fails. Each time success is reported. -/
theorem not_sound_failing :
    ¬ Sound (.emsCreate 7 1 2) [] {} ∧
      ¬ Sound (.emsShow 7) (twoSeats.take 24) {} ∧
      ¬ Sound .emsListEvents oneEvent { turns := [.fail] } := by
  have hcreate : (((Call.emsCreate 7 1 2).issue {} (return ())).run
      (readingProcess [] true .zero {})).map (fun r => (r.1, r.2.out.written)) = .ok (0, []) := by
    decide +kernel
  have hshow : (((Call.emsShow 7).issue {} (return ())).run
      (readingProcess (twoSeats.take 24) true .zero {})).map (fun r => (r.1, r.2.out.written)) =
      .ok (0, ascii "0 0 \n") := by
    decide +kernel
  have hlist : ((Call.emsListEvents.issue {} (return ())).run
      (readingProcess oneEvent true .zero { turns := [.fail] })).map
      (fun r => (r.1, r.2.out.written)) = .ok (0, ascii "7\n") := by
    decide +kernel
  refine ⟨fun h => ?_, fun h => ?_, fun h => ?_⟩
  · obtain ⟨p, -, htruthful⟩ := h.of_run hcreate
    obtain ⟨response, rest, text, hbs, hrenders, -⟩ := htruthful.success rfl
    cases hrenders
    have hlen := congrArg List.length hbs
    rw [List.length_nil, List.length_append, length_intBytes] at hlen
    omega
  · -- a second seat that is not there
    obtain ⟨p, hwritten, htruthful⟩ := h.of_run hshow
    obtain ⟨text, htext, hstarts⟩ := htruthful.printed
    obtain rfl : text = ascii "0 0 \n" := htext.symm.trans hwritten
    exact absurd (hstarts 1) (by decide +kernel)
  · obtain ⟨p, hwritten, htruthful⟩ := h.of_run hlist
    obtain ⟨response, rest, text, -, hrenders, htext⟩ := htruthful.success rfl
    obtain rfl : text = ascii "7\n" := htext.symm.trans hwritten
    generalize hfull : ascii "7\n" = full at hrenders
    cases hrenders with
    | @listed num_events ids hids =>
      cases ids with
      | nil => exact absurd hfull (by decide)
      | cons id ids => exact absurd (List.cons.inj hfull).1 (by decide)

end EventServer.Client
