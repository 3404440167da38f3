import Mathlib.Data.List.Induction
import Mathlib.Data.List.TakeWhile
import Mathlib.Data.Nat.Digits.Lemmas
import EventServer.Common.Io
import EventServer.Lib.Wp

/-
  Reading a file byte by byte, and `parse_uint` of `common/io.c`.

  A `Scan` is a program that reads a file; its state are the bytes that are still to come.
  `parse_uint` collects digits in a buffer of 16 bytes on the stack and has `strtoul` read them. A
  byte that is no digit ends the number and is replaced by NUL, but at the end of the file the
  buffer is left as it is; so there the value depends on what the stack held before (`Stack`).
  `parseUintIn` is the same with a buffer of any size. `number_cases` splits what comes next in the
  three ways `parse_uint` can go.
-/

namespace EventServer

open Lib

abbrev Scan := StateT Bytes (Except Stop)

/-- `read(fd, buf, n)` on a file: the next `n` bytes, or fewer at its end. -/
def readFile (n : Nat) : Scan Bytes := do
  let bs ← get
  set (bs.drop n)
  return bs.take n

def isDigit (ch : UInt8) : Bool := 48 ≤ ch && ch ≤ 57

/-- `isspace` in the C locale. -/
def isSpace (ch : UInt8) : Bool := ch = 32 || 9 ≤ ch && ch ≤ 13

/-- The number that digits denote. -/
def digitsValue (ds : Bytes) : Nat := ds.foldl (fun n d => 10 * n + (d.toNat - 48)) 0

/-- The optional sign in front of a number: is it a minus, and what comes after it? -/
def splitSign : Bytes → Bool × Bytes
  | 45 :: str => (true, str)
  | 43 :: str => (false, str)
  | str => (false, str)

/-- `strtoul(str, NULL, 10)`; `none` if it reads past the end of the array `str`. -/
def strtoul (str : Bytes) : Option Nat :=
  let (neg, str) := splitSign (str.dropWhile isSpace)
  if str.all isDigit then none
  else
    let n := digitsValue (str.takeWhile isDigit)
    some (if 2 ^ 64 ≤ n then 2 ^ 64 - 1 else if neg then (2 ^ 64 - n) % 2 ^ 64 else n)

/-- `buf[i] = ch`. -/
def Buffer.set {n : Nat} (buf : Buffer n) (i : Nat) (ch : UInt8) : Buffer n where
  bytes := buf.bytes.set i ch
  length_eq := by rw [List.length_set, buf.length_eq]

/-- What the stack holds where `parse_uint` has its buffer, when so many bytes of the file are
    left. -/
abbrev Stack := Nat → Buffer 16

/-- The loop of `parse_uint` with `room` cells of its buffer still to fill; `*next` is returned
    with the buffer. -/
def parseUintLoop : Nat → Buffer 16 → Scan (Buffer 16 × UInt8)
  | 0, buf => do
    if (← readFile 1) = [] then return (buf, 0) else throw .outOfBounds
  | room + 1, buf => do
    match ← readFile 1 with
    | [] => return (buf, 0)
    | ch :: _ =>
      if ch > 57 ∨ ch < 48 then return (buf.set (15 - room) 0, ch)
      else parseUintLoop room (buf.set (15 - room) ch)

/-- The loop of `parse_uint` with a buffer of any size. -/
def parseUintLoopIn {size : Nat} : Nat → Buffer size → Scan (Buffer size × UInt8)
  | 0, buf => do
    if (← readFile 1) = [] then return (buf, 0) else throw .outOfBounds
  | room + 1, buf => do
    match ← readFile 1 with
    | [] => return (buf, 0)
    | ch :: _ =>
      if ch > 57 ∨ ch < 48 then return (buf.set (size - 1 - room) 0, ch)
      else parseUintLoopIn room (buf.set (size - 1 - room) ch)

/-- `parse_uint` with a buffer of any size. -/
def parseUintIn {size : Nat} (stack : Nat → Buffer size) : Scan (Option UInt32 × UInt8) := do
  let (buf, next) ← parseUintLoopIn size (stack (← get).length)
  match strtoul buf.bytes with
  | none => throw .outOfBounds
  | some ul => return (if ul < 2 ^ 32 then some (.ofNat ul) else none, next)

/-- `parse_uint`: the value, or `none` for the return code 1, and `*next`. -/
def parseUint (stack : Stack) : Scan (Option UInt32 × UInt8) := do
  let (buf, next) ← parseUintLoop 16 (stack (← get).length)
  match strtoul buf.bytes with
  | none => throw .outOfBounds
  | some ul => return (if ul < 2 ^ 32 then some (.ofNat ul) else none, next)

theorem parseUintLoopIn_eq : ∀ (room : Nat) (buf : Buffer 16),
    parseUintLoopIn room buf = parseUintLoop room buf
  | 0, _ => rfl
  | room + 1, buf => by
      rw [parseUintLoopIn, parseUintLoop]
      simp only [parseUintLoopIn_eq room]

theorem parseUintIn_eq (stack : Stack) : parseUintIn stack = parseUint stack := by
  rw [parseUintIn, parseUint]
  simp only [parseUintLoopIn_eq]

/-! ## Digits -/

/-- A string of digits. -/
def Digits (ds : Bytes) : Prop := ∀ d ∈ ds, isDigit d = true

theorem digits_nil : Digits [] := by simp [Digits]

theorem digits_cons {d : UInt8} {ds : Bytes} : Digits (d :: ds) ↔ isDigit d = true ∧ Digits ds :=
  List.forall_mem_cons

/-- The test in the loop of `parse_uint`. -/
theorem not_digit_iff {ch : UInt8} : (ch > 57 ∨ ch < 48) ↔ isDigit ch = false := by
  simp only [isDigit, Bool.and_eq_false_iff, decide_eq_false_iff_not, gt_iff_lt, UInt8.not_le]
  exact or_comm

theorem isDigit_iff {ch : UInt8} : isDigit ch = true ↔ 48 ≤ ch.toNat ∧ ch.toNat ≤ 57 := by
  simp [isDigit, UInt8.le_iff_toNat_le]

theorem digitsValue_snoc (ds : Bytes) (d : UInt8) :
    digitsValue (ds ++ [d]) = 10 * digitsValue ds + (d.toNat - 48) := by
  simp [digitsValue, List.foldl_append]

/-- The number that `parse_uint` makes of digits. -/
def uintOf (ds : Bytes) : Option UInt32 :=
  if digitsValue ds < 2 ^ 32 then some (.ofNat (digitsValue ds)) else none

/-- What stands in front of the first byte that is no digit. -/
theorem takeWhile_digits {ds : Bytes} (h : Digits ds) {ch : UInt8} (hch : isDigit ch = false)
    (rest : Bytes) : (ds ++ ch :: rest).takeWhile isDigit = ds := by
  rw [List.takeWhile_append_of_pos h, List.takeWhile_cons_of_neg (by simp [hch]), List.append_nil]

theorem dropWhile_digits {ds : Bytes} (h : Digits ds) {ch : UInt8} (hch : isDigit ch = false)
    (rest : Bytes) : (ds ++ ch :: rest).dropWhile isDigit = ch :: rest := by
  rw [List.dropWhile_append_of_pos h, List.dropWhile_cons_of_neg (by simp [hch])]

/-- A digit is neither white space nor a sign. -/
theorem strtoul_start {d : UInt8} (hd : isDigit d = true) (str : Bytes) :
    splitSign ((d :: str).dropWhile isSpace) = (false, d :: str) := by
  have hd := isDigit_iff.1 hd
  have hne : ∀ {ch : UInt8}, ch.toNat < 48 → d ≠ ch := fun hlt he => by
    subst he
    omega
  have hspace : isSpace d = false := by
    simp only [isSpace, Bool.or_eq_false_iff, Bool.and_eq_false_iff, decide_eq_false_iff_not,
      UInt8.le_iff_toNat_le]
    exact ⟨hne (by decide), Or.inr (by simp; omega)⟩
  rw [List.dropWhile_cons_of_neg (by simp [hspace]), splitSign]
  · exact fun str hs => hne (by decide) (List.cons.inj hs).1
  · exact fun str hs => hne (by decide) (List.cons.inj hs).1

/-- `strtoul` reads digits up to the first other byte. -/
theorem strtoul_stopped {ds : Bytes} (h : Digits ds) {ch : UInt8} (hch : isDigit ch = false)
    (hfirst : ds ≠ [] ∨ ch = 0) (rest : Bytes) :
    strtoul (ds ++ ch :: rest) =
      some (if 2 ^ 64 ≤ digitsValue ds then 2 ^ 64 - 1 else digitsValue ds) := by
  have hstart : splitSign ((ds ++ ch :: rest).dropWhile isSpace) = (false, ds ++ ch :: rest) := by
    cases ds with
    | nil =>
      obtain rfl : ch = 0 := hfirst.resolve_left (by simp)
      rfl
    | cons d ds => exact strtoul_start (digits_cons.1 h).1 _
  have hall : (ds ++ ch :: rest).all isDigit = false := by simp [hch]
  rw [strtoul]
  simp only [hstart, hall, takeWhile_digits h hch, Bool.false_eq_true, if_false]

/-- Digits without an end are read past the end of the array. -/
theorem strtoul_all_digits {ds : Bytes} (h : Digits ds) (hne : ds ≠ []) : strtoul ds = none := by
  cases ds with
  | nil => exact absurd rfl hne
  | cons d ds =>
    rw [strtoul]
    simp only [strtoul_start (digits_cons.1 h).1]
    rw [if_pos (List.all_eq_true.2 h)]

theorem digitsValue_append_le (ds js : Bytes) : digitsValue ds ≤ digitsValue (ds ++ js) := by
  induction js using List.reverseRecOn with
  | nil => rw [List.append_nil]
  | append_singleton js j ih =>
    rw [← List.append_assoc, digitsValue_snoc]
    omega

/-- What `strtoul` makes of digits and more is not less than the digits. -/
theorem le_strtoul {ds str : Bytes} (h : Digits ds) {ul : Nat} (hul : strtoul (ds ++ str) = some ul)
    (hlt : ul < 2 ^ 32) : digitsValue ds ≤ ul := by
  cases ds with
  | nil => exact Nat.zero_le ul
  | cons d ds =>
    rw [strtoul] at hul
    simp only [List.cons_append, strtoul_start (digits_cons.1 h).1] at hul
    split at hul
    · cases hul
    · rw [← List.cons_append, List.takeWhile_append_of_pos h] at hul
      have hle := digitsValue_append_le (d :: ds) (str.takeWhile isDigit)
      split at hul
      · cases hul
        omega
      · exact Option.some.inj hul ▸ hle

/-! ## Printed numbers -/

/-- The digit that `print_uint` prints for a number below 10. -/
theorem digit_ofNat {d : Nat} (h : d < 10) :
    isDigit (UInt8.ofNat (48 + d)) = true ∧ (UInt8.ofNat (48 + d)).toNat - 48 = d := by
  have hall : ∀ d ∈ List.range 10, isDigit (UInt8.ofNat (48 + d)) = true ∧
      (UInt8.ofNat (48 + d)).toNat - 48 = d := by decide
  exact hall d (List.mem_range.2 h)

theorem digitsValue_reverse {L : List Nat} (h : ∀ d ∈ L, d < 10) :
    digitsValue ((L.map fun d => UInt8.ofNat (48 + d)).reverse) = Nat.ofDigits 10 L := by
  induction L with
  | nil => rfl
  | cons d L ih =>
    rw [List.forall_mem_cons] at h
    rw [List.map_cons, List.reverse_cons, digitsValue_snoc, ih h.2, (digit_ofNat h.1).2,
      Nat.ofDigits_cons]
    exact Nat.add_comm _ _

theorem decimal_digits (v : UInt32) : Digits (decimal v) := by
  rw [decimal]
  split
  · exact fun d hd => by rw [List.mem_singleton.1 hd]; rfl
  · intro d hd
    obtain ⟨n, hn, rfl⟩ := List.mem_map.1 (List.mem_reverse.1 hd)
    exact (digit_ofNat (Nat.digits_lt_base (by decide) hn)).1

theorem digitsValue_decimal (v : UInt32) : digitsValue (decimal v) = v.toNat := by
  rw [decimal]
  split
  · next hv => rw [hv]; rfl
  · rw [digitsValue_reverse fun d hd => Nat.digits_lt_base (by decide) hd, Nat.ofDigits_digits]

theorem decimal_ne_nil (v : UInt32) : decimal v ≠ [] := by
  intro h
  have hvalue := digitsValue_decimal v
  rw [h] at hvalue
  obtain rfl : v = 0 := UInt32.toNat_inj.1 hvalue.symm
  exact absurd h (by decide)

theorem length_decimal_le (v : UInt32) : (decimal v).length ≤ 15 := by
  rw [decimal]
  split
  · decide
  · rw [List.length_reverse, List.length_map, Nat.digits_length_le_iff (by decide)]
    exact Nat.lt_of_lt_of_le v.toNat_lt (by decide)

/-! ## What `parse_uint` reads -/

@[simp] theorem wp_readFile {n : Nat} {Q : Bytes → Bytes → Prop} {E : Stop → Prop} {bs : Bytes} :
    wp (readFile n) Q E bs ↔ Q (bs.take n) (bs.drop n) := Iff.rfl

theorem overwrite_nil {n : Nat} (buf : Buffer n) : buf.overwrite [] = buf := by
  simp [Buffer.overwrite]

theorem overwrite_snoc {n : Nat} (buf : Buffer n) {ds : Bytes} (h : ds.length < n) (ch : UInt8) :
    (buf.overwrite ds).set ds.length ch = buf.overwrite (ds ++ [ch]) := by
  have hlen := buf.length_eq
  have hdrop : buf.bytes.drop ds.length =
      buf.bytes[ds.length] :: buf.bytes.drop (ds.length + 1) :=
    List.drop_eq_getElem_cons (by omega)
  simp only [Buffer.set, Buffer.overwrite, Buffer.mk.injEq, List.length_append,
    List.length_singleton]
  rw [List.take_of_length_le (by omega), List.take_of_length_le (by simp; omega), hdrop,
    List.set_append_right _ _ (Nat.le_refl _), Nat.sub_self, List.set_cons_zero, List.append_assoc]
  rfl

/-- The loop after it has read the digits `got`. -/
def loopAfter {size : Nat} (buf : Buffer size) (got : Bytes) : Scan (Buffer size × UInt8) :=
  parseUintLoopIn (size - got.length) (buf.overwrite got)

section

variable {size : Nat} (buf : Buffer size)

theorem loopAfter_cons {got : Bytes} (hlen : got.length < size) (ch : UInt8) (rest : Bytes) :
    (loopAfter buf got).run (ch :: rest) =
      if isDigit ch then (loopAfter buf (got ++ [ch])).run rest
      else .ok ((buf.overwrite (got ++ [0]), ch), rest) := by
  obtain ⟨room, hroom⟩ : ∃ room, size - got.length = room + 1 :=
    ⟨size - got.length - 1, by omega⟩
  have hnext : size - (got ++ [ch]).length = room := by
    rw [List.length_append, List.length_singleton]
    omega
  have hi : size - 1 - room = got.length := by omega
  have hstep : (parseUintLoopIn (room + 1) (buf.overwrite got)).run (ch :: rest) =
      StateT.run (if ch > 57 ∨ ch < 48 then pure ((buf.overwrite got).set (size - 1 - room) 0, ch)
        else parseUintLoopIn room ((buf.overwrite got).set (size - 1 - room) ch)) rest := rfl
  rw [loopAfter, loopAfter, hroom, hnext, hstep, hi, overwrite_snoc buf hlen,
    overwrite_snoc buf hlen]
  cases hch : isDigit ch with
  | false => rw [if_pos (not_digit_iff.2 hch)]; rfl
  | true => rw [if_neg fun h => by simp [not_digit_iff.1 h] at hch]; rfl

theorem loopAfter_digits {ds : Bytes} (h : Digits ds) (rest : Bytes) {got : Bytes}
    (hlen : got.length + ds.length ≤ size) :
    (loopAfter buf got).run (ds ++ rest) = (loopAfter buf (got ++ ds)).run rest := by
  induction ds generalizing got with
  | nil => rw [List.nil_append, List.append_nil]
  | cons d ds ih =>
    obtain ⟨hd, hds⟩ := digits_cons.1 h
    simp only [List.length_cons] at hlen
    rw [List.cons_append, loopAfter_cons buf (by omega), if_pos hd,
      ih hds (by simp; omega), List.append_assoc, List.singleton_append]

theorem loopAfter_nil {got : Bytes} :
    (loopAfter buf got).run [] = .ok ((buf.overwrite got, 0), []) := by
  rw [loopAfter]
  cases size - got.length with
  | zero => simp [parseUintLoopIn, readFile]; rfl
  | succ room => rfl

theorem loopAfter_full {got : Bytes} (hlen : got.length = size) (ch : UInt8) (rest : Bytes) :
    (loopAfter buf got).run (ch :: rest) = .error .outOfBounds := by
  rw [loopAfter, hlen, Nat.sub_self]
  rfl

end

/-- What `parse_uint` returns when its buffer holds `str`. -/
def parsed (str : Bytes) (next : UInt8) (rest : Bytes) :
    Except Stop ((Option UInt32 × UInt8) × Bytes) :=
  match strtoul str with
  | none => .error .outOfBounds
  | some ul => .ok ((if ul < 2 ^ 32 then some (.ofNat ul) else none, next), rest)

section

variable {size : Nat} (stack : Nat → Buffer size)

theorem parseUintIn_loop (bs : Bytes) :
    (parseUintIn stack).run bs = ((loopAfter (stack bs.length) []).run bs).bind
      fun r => parsed r.1.1.bytes r.1.2 r.2 := by
  rw [loopAfter, overwrite_nil]
  refine congrArg (Except.bind _) (funext fun r => ?_)
  simp only [parsed]
  cases strtoul r.1.1.bytes <;> rfl

theorem parseUintIn_run {bs rest got : Bytes} {next : UInt8}
    (h : (loopAfter (stack bs.length) []).run bs =
      .ok (((stack bs.length).overwrite got, next), rest)) (hlen : got.length ≤ size) :
    (parseUintIn stack).run bs =
      parsed (got ++ (stack bs.length).bytes.drop got.length) next rest := by
  rw [parseUintIn_loop, h]
  simp only [Except.bind, Buffer.overwrite, List.take_of_length_le hlen]

/-- A number that another byte ends. What the stack held does not matter. -/
theorem parseUintIn_ended {ds : Bytes} (h : Digits ds) (hlen : ds.length < size) {ch : UInt8}
    (hch : isDigit ch = false) (rest : Bytes) :
    (parseUintIn stack).run (ds ++ ch :: rest) = .ok ((uintOf ds, ch), rest) := by
  have hloop : (loopAfter (stack (ds ++ ch :: rest).length) []).run (ds ++ ch :: rest) =
      .ok (((stack (ds ++ ch :: rest).length).overwrite (ds ++ [0]), ch), rest) := by
    rw [loopAfter_digits _ h _ (by simp; omega), List.nil_append,
      loopAfter_cons _ (by omega), if_neg (by simp [hch])]
  rw [parseUintIn_run stack hloop (by simp; omega), List.append_assoc, List.singleton_append, parsed,
    strtoul_stopped h (by decide) (Or.inr rfl)]
  by_cases hlt : digitsValue ds < 2 ^ 32
  · have huncut : ¬ 2 ^ 64 ≤ digitsValue ds := by omega
    simp only [uintOf, hlt, huncut, if_true, if_false]
  · -- a number that `strtoul` cuts off is too large anyway
    have hcut : ¬ (if 2 ^ 64 ≤ digitsValue ds then 2 ^ 64 - 1 else digitsValue ds) < 2 ^ 32 := by
      split
      · decide
      · exact hlt
    simp only [uintOf, hlt, hcut, if_false]

/-- A number that the end of the file ends: `strtoul` reads on in what the stack held. -/
theorem parseUintIn_eof {ds : Bytes} (h : Digits ds) (hlen : ds.length ≤ size) :
    (parseUintIn stack).run ds = parsed (ds ++ (stack ds.length).bytes.drop ds.length) 0 [] := by
  refine parseUintIn_run stack ?_ hlen
  have hloop := loopAfter_digits (stack ds.length) h []
    (show [].length + ds.length ≤ size by simpa)
  rwa [List.append_nil, List.nil_append, loopAfter_nil] at hloop

end

/-- A number that another byte ends. What the stack held does not matter. -/
theorem parseUint_ended (stack : Stack) {ds : Bytes} (h : Digits ds) (hlen : ds.length ≤ 15)
    {ch : UInt8} (hch : isDigit ch = false) (rest : Bytes) :
    (parseUint stack).run (ds ++ ch :: rest) = .ok ((uintOf ds, ch), rest) :=
  parseUintIn_eq stack ▸ parseUintIn_ended stack h (Nat.lt_succ_of_le hlen) hch rest

/-- What the buffer holds when the file ends after the digits `ds`. -/
def leftover (stack : Stack) (ds : Bytes) : Bytes :=
  ds ++ (stack ds.length).bytes.drop ds.length

/-- A number that the end of the file ends: `strtoul` reads on in what the stack held. -/
theorem parseUint_eof (stack : Stack) {ds : Bytes} (h : Digits ds) (hlen : ds.length ≤ 16) :
    (parseUint stack).run ds = parsed (leftover stack ds) 0 [] :=
  parseUintIn_eq stack ▸ parseUintIn_eof stack h hlen

/-- More digits than the buffer has cells: they are stored behind it, or read there. -/
theorem parseUint_long (stack : Stack) {ds : Bytes} (h : Digits ds) (hlen : ds.length = 16)
    (rest : Bytes) : (parseUint stack).run (ds ++ rest) = .error .outOfBounds := by
  cases rest with
  | nil =>
    have hleft : leftover stack ds = ds := by
      rw [leftover, List.drop_eq_nil_of_le (by rw [(stack _).length_eq, hlen]), List.append_nil]
    rw [List.append_nil, parseUint_eof stack h (by omega), hleft, parsed,
      strtoul_all_digits h (List.ne_nil_of_length_pos (by omega))]
  | cons ch rest =>
    have hloop := loopAfter_digits (stack (ds ++ ch :: rest).length) h (ch :: rest)
      (show [].length + ds.length ≤ 16 by simp [hlen])
    rw [List.nil_append, loopAfter_full _ hlen] at hloop
    rw [← parseUintIn_eq, parseUintIn_loop, hloop]
    rfl

/-- The digits at the start of `bs`, and what comes after them. -/
theorem digits_split (bs : Bytes) :
    ∃ ds rest, bs = ds ++ rest ∧ Digits ds ∧ ∀ ch ∈ rest.head?, isDigit ch = false :=
  ⟨bs.takeWhile isDigit, bs.dropWhile isDigit, List.takeWhile_append_dropWhile.symm,
    fun _ hd => List.mem_takeWhile_imp hd, fun ch hch => by
      have hnot := List.head?_dropWhile_not isDigit bs
      rwa [Option.mem_def.1 hch] at hnot⟩

/-- The three ways a number can go. -/
theorem number_cases (bs : Bytes) :
    (∃ ds ch rest, bs = ds ++ ch :: rest ∧ Digits ds ∧ ds.length ≤ 15 ∧ isDigit ch = false) ∨
      Digits bs ∧ bs.length ≤ 15 ∨
      ∃ ds rest, bs = ds ++ rest ∧ Digits ds ∧ ds.length = 16 := by
  obtain ⟨ds, rest, rfl, hds, hrest⟩ := digits_split bs
  obtain hlen | hlen := Nat.lt_or_ge 15 ds.length
  · refine Or.inr (Or.inr ⟨ds.take 16, ds.drop 16 ++ rest, ?_, ?_, ?_⟩)
    · rw [← List.append_assoc, List.take_append_drop]
    · exact fun d hd => hds d (List.mem_of_mem_take hd)
    · rw [List.length_take]
      omega
  · cases rest with
    | nil => exact Or.inr (Or.inl ⟨by rwa [List.append_nil], by rwa [List.append_nil]⟩)
    | cons ch rest => exact Or.inl ⟨ds, ch, rest, rfl, hds, hlen, hrest ch rfl⟩

/-- No run of digits is longer than the buffer of `parse_uint` allows. -/
def ShortRuns (bs : Bytes) : Prop := ∀ ds, ds <:+: bs → Digits ds → ds.length ≤ 15

theorem ShortRuns.of_suffix {bs bs' : Bytes} (h : ShortRuns bs) (hsuf : bs' <:+ bs) :
    ShortRuns bs' :=
  fun ds hds => h ds (hds.trans hsuf.isInfix)

theorem ShortRuns.of_countP {bs : Bytes} (h : bs.countP isDigit ≤ 15) : ShortRuns bs :=
  fun ds hds hdigits => calc
    ds.length = ds.countP isDigit := (List.countP_eq_length.2 hdigits).symm
    _ ≤ bs.countP isDigit := hds.sublist.countP_le
    _ ≤ 15 := h

theorem ShortRuns.number_cases {bs : Bytes} (h : ShortRuns bs) :
    (∃ ds ch rest, bs = ds ++ ch :: rest ∧ Digits ds ∧ ds.length ≤ 15 ∧ isDigit ch = false) ∨
      Digits bs ∧ bs.length ≤ 15 := by
  obtain ⟨ds, rest, rfl, hds, hrest⟩ := digits_split bs
  have hlen := h ds (List.prefix_append ds rest).isInfix hds
  cases rest with
  | nil => exact Or.inr ⟨by rwa [List.append_nil], by rwa [List.append_nil]⟩
  | cons ch rest => exact Or.inl ⟨ds, ch, rest, rfl, hds, hlen, hrest ch rfl⟩

/-- What `parse_uint` has read when it returns. -/
theorem parseUint_ok {stack : Stack} {bs rest : Bytes} {v : Option UInt32} {ch : UInt8}
    (h : (parseUint stack).run bs = .ok ((v, ch), rest)) :
    (∃ ds, bs = ds ++ ch :: rest ∧ Digits ds ∧ ds.length ≤ 15 ∧ isDigit ch = false ∧
      v = uintOf ds) ∨
    Digits bs ∧ bs.length ≤ 15 ∧ ch = 0 ∧ rest = [] ∧
      parsed (leftover stack bs) 0 [] = .ok ((v, 0), []) := by
  obtain ⟨ds, ch', rest', rfl, hds, hlen, hch⟩ | ⟨hds, hlen⟩ | ⟨ds, rest', rfl, hds, hlen⟩ :=
    number_cases bs
  · rw [parseUint_ended stack hds hlen hch] at h
    cases h
    exact Or.inl ⟨ds, rfl, hds, hlen, hch, rfl⟩
  · rw [parseUint_eof stack hds (by omega)] at h
    refine Or.inr ⟨hds, hlen, ?_⟩
    cases hul : strtoul (leftover stack bs) with
    | none => simp [parsed, hul] at h
    | some ul =>
      simp only [parsed, hul] at h ⊢
      cases h
      exact ⟨rfl, rfl, rfl⟩
  · rw [parseUint_long stack hds hlen] at h
    cases h

/-- What comes behind a byte is at the end of the file. -/
theorem suffix_behind (pre : Bytes) (ch : UInt8) (rest : Bytes) : rest <:+ pre ++ ch :: rest :=
  (List.suffix_cons ch rest).trans (List.suffix_append pre _)

theorem parseUint_suffix {stack : Stack} {bs rest : Bytes} {v : Option UInt32} {ch : UInt8}
    (h : (parseUint stack).run bs = .ok ((v, ch), rest)) : rest <:+ bs := by
  obtain ⟨ds, rfl, -⟩ | ⟨-, -, -, rfl, -⟩ := parseUint_ok h
  · exact suffix_behind ds ch rest
  · exact List.nil_suffix

/-- No digit comes next. -/
def NoDigit (bs : Bytes) : Prop := ∀ ch ∈ bs.head?, isDigit ch = false

theorem noDigit_nil : NoDigit [] := by simp [NoDigit]

theorem noDigit_cons {ch : UInt8} (h : isDigit ch = false) (bs : Bytes) : NoDigit (ch :: bs) :=
  fun _ hch => Option.some.inj hch ▸ h

/-- Where a number ends is determined. -/
theorem digits_unique {ds ds' t t' : Bytes} (h : Digits ds) (h' : Digits ds')
    (ht : NoDigit t) (ht' : NoDigit t')
    (heq : ds ++ t = ds' ++ t') : ds = ds' ∧ t = t' := by
  have htake : ∀ {ds t : Bytes}, Digits ds → NoDigit t → (ds ++ t).takeWhile isDigit = ds :=
      fun {ds t} h ht => by
    rw [List.takeWhile_append_of_pos h]
    cases t with
    | nil => exact List.append_nil ds
    | cons ch t =>
      rw [List.takeWhile_cons_of_neg (by simp [ht ch rfl]), List.append_nil]
  have hds := htake h ht
  rw [heq, htake h' ht'] at hds
  subst hds
  exact ⟨rfl, List.append_cancel_left heq⟩

/-- The same, in front of a separator. -/
theorem digits_unique_append {ds ds' sep t t' : Bytes} (h : Digits ds) (h' : Digits ds')
    (hsep : sep.head?.any (fun ch => !isDigit ch) = true)
    (heq : ds ++ (sep ++ t) = ds' ++ (sep ++ t')) :
    ds = ds' ∧ t = t' := by
  have hno : ∀ t, NoDigit (sep ++ t) := fun t ch hch => by
    cases sep with
    | nil => exact Bool.noConfusion hsep
    | cons a sep =>
      obtain rfl := Option.some.inj hch
      simpa using hsep
  obtain ⟨hds, ht⟩ := digits_unique h h' (hno t) (hno t') heq
  exact ⟨hds, List.append_cancel_left ht⟩

/-! ## A buffer that is large enough -/

/-- The buffer has room for every run of digits of the file and a NUL, and at the end of the file
    `strtoul` finds an end in it. -/
structure LargeEnough {size : Nat} (stack : Nat → Buffer size) (file : Bytes) : Prop where
  room : ∀ ds, ds <:+: file → Digits ds → ds.length < size
  ends : ∀ ds, ds <:+ file → Digits ds →
    (strtoul (ds ++ (stack ds.length).bytes.drop ds.length)).isSome

section

variable {size : Nat} {stack : Nat → Buffer size} {file : Bytes}

theorem LargeEnough.of_suffix (h : LargeEnough stack file) {bs : Bytes} (hsuf : bs <:+ file) :
    LargeEnough stack bs :=
  ⟨fun ds hds => h.room ds (hds.trans hsuf.isInfix), fun ds hds => h.ends ds (hds.trans hsuf)⟩

/-- With such a buffer `parse_uint` reads digits and one more byte, or digits up to the end of the
    file. -/
theorem LargeEnough.parseUint (h : LargeEnough stack file) :
    ∃ v ch rest, (parseUintIn stack).run file = .ok ((v, ch), rest) ∧
      ((∃ ds, file = ds ++ ch :: rest) ∨ rest = []) := by
  obtain ⟨ds, rest, rfl, hds, hrest⟩ := digits_split file
  have hlen := h.room ds (List.prefix_append ds rest).isInfix hds
  cases rest with
  | nil =>
    rw [List.append_nil] at h ⊢
    obtain ⟨ul, hul⟩ := Option.isSome_iff_exists.1 (h.ends ds (List.suffix_refl _) hds)
    exact ⟨_, 0, [], by rw [parseUintIn_eof stack hds (Nat.le_of_lt hlen), parsed, hul], Or.inr rfl⟩
  | cons ch rest =>
    exact ⟨_, ch, rest, parseUintIn_ended stack hds hlen (hrest ch rfl) rest, Or.inl ⟨ds, rfl⟩⟩

/-- A cleared buffer that is longer than the file. -/
theorem largeEnough_zero (file : Bytes) :
    LargeEnough (fun _ => Buffer.zero (file.length + 1)) file where
  room ds hds _ := Nat.lt_succ_of_le hds.length_le
  ends ds hds hdigits := by
    have hle := hds.length_le
    obtain ⟨k, hk⟩ : ∃ k, file.length + 1 - ds.length = k + 1 := ⟨file.length - ds.length, by omega⟩
    have hzero : (Buffer.zero (file.length + 1)).bytes.drop ds.length = 0 :: List.replicate k 0 := by
      rw [Buffer.zero, List.drop_replicate, hk, List.replicate_succ]
    rw [hzero, strtoul_stopped hdigits (by decide) (Or.inr rfl)]
    rfl

end

end EventServer
