import EventServer.Client.Calls
import EventServer.Common.Output

/-
  What a call prints while it reads its response.

  `ems_show` and `ems_list_events` take the numbers of a response one by one and print between two
  of them, on an output that may fail at any `write`. `Stage` is one thing that they do there, and
  `play` does a list of them on an output: `gridStages` and `listStages` are those of the two
  loops, given the numbers they read. Where the response ends early a number is what its variable
  holds (`fields`). `wp_showRows_at` and `wp_listLoop_at` tie the stages to the loops.
-/

namespace EventServer.Client

open Lib

/-! ## Stages -/

/-- A step of a call that reads and prints. -/
inductive Stage where
  /-- A number is read. -/
  | take
  /-- A text is printed; a failing `write` ends the call. -/
  | put (text : Bytes)
  /-- A text is printed; a failing `write` goes unnoticed. -/
  | attempt (text : Bytes)
  deriving DecidableEq, Repr

/-- What comes of a list of stages: how many numbers have been read, whether no failing `write` has
    ended it, and the output. -/
structure Played where
  taken : Nat
  ok : Bool
  out : Writer
  deriving DecidableEq, Repr

def play : List Stage → Writer → Played
  | [], w => ⟨0, true, w⟩
  | .take :: as, w => { play as w with taken := (play as w).taken + 1 }
  | .put text :: as, w =>
    if (printStr w text).1 = 0 then play as (printStr w text).2
    else ⟨0, false, (printStr w text).2⟩
  | .attempt text :: as, w => play as (printStr w text).2

/-- What is printed when no `write` fails. -/
def texts : List Stage → Bytes
  | [] => []
  | .take :: as => texts as
  | .put text :: as => text ++ texts as
  | .attempt text :: as => text ++ texts as

/-- The number of numbers that are read when no `write` fails. -/
def takes : List Stage → Nat := List.count .take

/-- What comes before the last number. -/
def beforeLast : List Stage → List Stage
  | [] => []
  | a :: as => if .take ∈ as then a :: beforeLast as else []

/-- The same stages, none of which lets a failing `write` go unnoticed. -/
def strict : List Stage → List Stage
  | [] => []
  | .take :: as => .take :: strict as
  | .put text :: as => .put text :: strict as
  | .attempt text :: as => .put text :: strict as

theorem play_append : ∀ (as bs : List Stage) (w : Writer), play (as ++ bs) w =
    if (play as w).ok then
      { play bs (play as w).out with
        taken := (play as w).taken + (play bs (play as w).out).taken }
    else play as w
  | [], bs, w => by simp [play]
  | .take :: as, bs, w => by
      rw [List.cons_append, play, play, play_append as bs w]
      split
      · simp [Nat.add_right_comm]
      · rfl
  | .put text :: as, bs, w => by
      rw [List.cons_append, play, play]
      split
      · exact play_append as bs _
      · rfl
  | .attempt text :: as, bs, w => by
      rw [List.cons_append, play, play]
      exact play_append as bs _

theorem taken_le : ∀ (as : List Stage) (w : Writer), (play as w).taken ≤ takes as
  | [], _ => Nat.le_refl _
  | .take :: as, w => by
      have := taken_le as w
      simp only [play, takes, List.count_cons_self] at this ⊢
      omega
  | .put text :: as, w => by
      have := taken_le as (printStr w text).2
      simp only [play, takes] at this ⊢
      rw [List.count_cons_of_ne (by simp)]
      split
      · exact this
      · exact Nat.zero_le _
  | .attempt text :: as, w => by
      have := taken_le as (printStr w text).2
      simp only [play, takes] at this ⊢
      rwa [List.count_cons_of_ne (by simp)]

/-- When nothing has ended the stages every number has been read. -/
theorem taken_of_ok : ∀ (as : List Stage) (w : Writer), (play as w).ok = true →
    (play as w).taken = takes as
  | [], _, _ => rfl
  | .take :: as, w, h => by
      have := taken_of_ok as w h
      simp only [play, takes, List.count_cons_self] at this ⊢
      omega
  | .put text :: as, w, h => by
      simp only [play, takes] at h ⊢
      rw [List.count_cons_of_ne (by simp)]
      split at h
      · next h0 =>
        rw [if_pos h0]
        exact taken_of_ok as _ h
      · cases h
  | .attempt text :: as, w, h => by
      simp only [play, takes] at h ⊢
      rw [List.count_cons_of_ne (by simp)]
      exact taken_of_ok as _ h

theorem takes_eq_zero {as : List Stage} (h : .take ∉ as) : takes as = 0 :=
  List.count_eq_zero_of_not_mem h

/-- **All numbers are read exactly when what comes before the last one is performed.** -/
theorem taken_eq_takes_iff : ∀ (as : List Stage) (w : Writer),
    (play as w).taken = takes as ↔ (play (beforeLast as) w).ok = true
  | [], w => iff_of_true rfl rfl
  | a :: as, w => by
      rw [beforeLast]
      by_cases hmem : .take ∈ as
      · have hpos : 0 < takes as := List.count_pos_iff.2 hmem
        rw [if_pos hmem]
        cases a with
        | take =>
          have hrec := taken_eq_takes_iff as w
          simp only [play, takes, List.count_cons_self, Nat.add_right_cancel_iff] at hrec ⊢
          exact hrec
        | put text =>
          have hrec := taken_eq_takes_iff as (printStr w text).2
          simp only [play, takes] at hrec hpos ⊢
          rw [List.count_cons_of_ne (by simp)]
          split
          · exact hrec
          · exact iff_of_false (fun h => by simp only at h; omega) Bool.false_ne_true
        | attempt text =>
          have hrec := taken_eq_takes_iff as (printStr w text).2
          simp only [play, takes] at hrec ⊢
          rw [List.count_cons_of_ne (by simp)]
          exact hrec
      · rw [if_neg hmem]
        refine iff_of_true ?_ rfl
        have hzero : ∀ w, (play as w).taken = 0 := fun w =>
          Nat.le_zero.1 (takes_eq_zero hmem ▸ taken_le as w)
        have hcount : List.count .take as = 0 := takes_eq_zero hmem
        cases a with
        | take => simp only [play, takes, List.count_cons_self, hzero, hcount]
        | put text =>
          simp only [play, takes]
          rw [List.count_cons_of_ne (by simp), hcount]
          split
          · exact hzero _
          · rfl
        | attempt text =>
          simp only [play, takes]
          rw [List.count_cons_of_ne (by simp), hcount]
          exact hzero _

/-! ### What has been printed -/

/-- A text is printed up to the first `write` that fails. -/
theorem printStr_part (w : Writer) (text : Bytes) :
    ∃ part, part <+: text ∧ (printStr w text).2.written = w.written ++ part ∧
      ((printStr w text).1 = 0 ↔ part.length = text.length) := by
  obtain ⟨w', ⟨hrun, -, hwritten⟩ | ⟨hrun, -, k, hk, hwritten⟩⟩ := printStr_cases w text
  · rw [hrun]
    exact ⟨text, List.prefix_refl _, hwritten, iff_of_true rfl rfl⟩
  · rw [hrun]
    refine ⟨text.take k, List.take_prefix _ _, hwritten,
      iff_of_false (by exact (by decide : ¬ (1 : Int32) = 0)) ?_⟩
    rw [List.length_take]
    omega

/-- Stages that have not been ended have printed all of their texts if no failing `write` went
    unnoticed, and less otherwise. -/
theorem play_written : ∀ (as : List Stage) (w : Writer), (play as w).ok = true →
    ∃ text, (play as w).out.written = w.written ++ text ∧ text.length ≤ (texts as).length ∧
      (text.length = (texts as).length ↔ (play (strict as) w).ok = true) ∧
      ((play (strict as) w).ok = true → text = texts as)
  | [], w, _ => ⟨[], by simp [play], Nat.le_refl _, iff_of_true rfl rfl, fun _ => rfl⟩
  | .take :: as, w, h => play_written as w h
  | .put text :: as, w, h => by
      obtain ⟨part, hpart, hwritten, hzero⟩ := printStr_part w text
      simp only [play, texts, strict] at h ⊢
      split at h
      · next h0 =>
        obtain ⟨rest, hrest, hle, hiff, hall⟩ := play_written as _ h
        have hlen := hzero.1 h0
        obtain rfl := hpart.eq_of_length hlen
        refine ⟨part ++ rest, ?_, ?_, ?_, fun hok => ?_⟩
        · rw [if_pos h0, hrest, hwritten, List.append_assoc]
        · rw [List.length_append, List.length_append]
          omega
        · rw [if_pos h0, List.length_append, List.length_append, Nat.add_left_cancel_iff]
          exact hiff
        · rw [if_pos h0] at hok
          rw [hall hok]
      · cases h
  | .attempt text :: as, w, h => by
      obtain ⟨part, hpart, hwritten, hzero⟩ := printStr_part w text
      simp only [play, texts, strict] at h ⊢
      obtain ⟨rest, hrest, hle, hiff, hall⟩ := play_written as _ h
      have hpartLe := hpart.length_le
      refine ⟨part ++ rest, ?_, ?_, ?_, fun hok => ?_⟩
      · rw [hrest, hwritten, List.append_assoc]
      · rw [List.length_append, List.length_append]
        omega
      · rw [List.length_append, List.length_append]
        split
        · next h0 =>
          rw [hzero.1 h0, Nat.add_left_cancel_iff]
          exact hiff
        · next h0 =>
          refine iff_of_false (fun heq => h0 (hzero.2 ?_)) Bool.false_ne_true
          omega
      · split at hok
        · next h0 => rw [hall hok, hpart.eq_of_length (hzero.1 h0)]
        · cases hok

theorem put_start {text full : Bytes} {as : List Stage} {w : Writer}
    (h : ∃ part, (play as (printStr w text).2).out.written =
      (printStr w text).2.written ++ part ∧ part <+: full) :
    ∃ part, (play (.put text :: as) w).out.written = w.written ++ part ∧
      part <+: text ++ full := by
  obtain ⟨part, hpart, hwritten, hzero⟩ := printStr_part w text
  rw [play]
  split
  · next h0 =>
    obtain ⟨rest, hrest, hpre⟩ := h
    obtain rfl := hpart.eq_of_length (hzero.1 h0)
    exact ⟨part ++ rest, by rw [hrest, hwritten, List.append_assoc],
      (List.prefix_append_right_inj part).2 hpre⟩
  · exact ⟨part, hwritten, hpart.trans (List.prefix_append _ _)⟩

/-- Stages that let no failing `write` go unnoticed print a start of their texts. -/
theorem play_strict_start : ∀ (as : List Stage) (w : Writer),
    ∃ text, (play (strict as) w).out.written = w.written ++ text ∧ text <+: texts as
  | [], w => ⟨[], by simp [strict, play], List.nil_prefix⟩
  | .take :: as, w => play_strict_start as w
  | .put text :: as, w => put_start (play_strict_start as (printStr w text).2)
  | .attempt text :: as, w => put_start (play_strict_start as (printStr w text).2)

/-- Without signals and errors everything is printed. -/
theorem play_calm : ∀ (as : List Stage) {w : Writer}, Calm w.turns →
    (play as w).ok = true ∧ (play as w).out.written = w.written ++ texts as
  | [], w, _ => ⟨rfl, by simp [play, texts]⟩
  | .take :: as, w, h => play_calm as h
  | .put text :: as, w, h => by
      obtain ⟨ts, hts, hrun⟩ := printStr_calm h text
      obtain ⟨hok, hwritten⟩ :=
        play_calm as (w := { written := w.written ++ text, turns := ts }) hts
      rw [play, hrun, if_pos rfl, texts]
      exact ⟨hok, by rw [hwritten, List.append_assoc]⟩
  | .attempt text :: as, w, h => by
      obtain ⟨ts, hts, hrun⟩ := printStr_calm h text
      obtain ⟨hok, hwritten⟩ :=
        play_calm as (w := { written := w.written ++ text, turns := ts }) hts
      rw [play, hrun, texts]
      exact ⟨hok, by rw [hwritten, List.append_assoc]⟩

/-! ## The stages of the two loops -/

/-- A number of a response, and its place in the grid. -/
def cellStages (seat : UInt32) : List Stage := [.take, .put (decimal seat), .put (ascii " ")]

/-- The loops of `ems_show`. -/
def gridStages (cols : Nat) : Nat → List UInt32 → List Stage
  | 0, _ => []
  | n + 1, cells =>
    (cells.take cols).flatMap cellStages ++
      .put (ascii "\n") :: gridStages cols n (cells.drop cols)

/-- The line of an event; the tests for -1 let a failing `write` pass, except for the newline. -/
def lineStages (id : UInt32) : List Stage :=
  [.take, .attempt (ascii "Event: "), .attempt (decimal id), .put (ascii "\n")]

/-- The loop of `ems_list_events` and the newline after it. -/
def listStages (ids : List UInt32) : List Stage :=
  if ids = [] then [.put (ascii "\n")] else ids.flatMap lineStages

/-- The numbers that `n` reads of the bytes `bs` give, in a variable that holds `b`. -/
def fields : Nat → Bytes → Buffer 4 → List UInt32
  | 0, _, _ => []
  | n + 1, bs, b =>
    toUInt (b.overwrite (bs.take 4)).bytes :: fields n (bs.drop 4) (b.overwrite (bs.take 4))

/-- What the variable holds after them. -/
def held : Nat → Bytes → Buffer 4 → Buffer 4
  | 0, _, b => b
  | n + 1, bs, b => held n (bs.drop 4) (b.overwrite (bs.take 4))

@[simp] theorem length_fields (n : Nat) (bs : Bytes) (b : Buffer 4) :
    (fields n bs b).length = n := by
  induction n generalizing bs b with
  | zero => rfl
  | succ n ih => rw [fields, List.length_cons, ih]

theorem fields_add (n m : Nat) (bs : Bytes) (b : Buffer 4) :
    fields (n + m) bs b = fields n bs b ++ fields m (bs.drop (4 * n)) (held n bs b) := by
  induction n generalizing bs b with
  | zero => simp [fields, held]
  | succ n ih =>
    rw [Nat.add_right_comm, fields, fields, held, ih, List.drop_drop, Nat.mul_succ, Nat.add_comm 4,
      List.cons_append]

/-- Numbers that are there are read. -/
theorem fields_cellsBytes (cells : List UInt32) (rest : Bytes) (b : Buffer 4) :
    fields cells.length (cellsBytes cells ++ rest) b = cells := by
  induction cells generalizing b with
  | nil => rfl
  | cons c cells ih =>
    have hcons : cellsBytes (c :: cells) ++ rest = uintBytes c ++ (cellsBytes cells ++ rest) :=
      List.append_assoc ..
    have htake : (uintBytes c ++ (cellsBytes cells ++ rest)).take 4 = uintBytes c :=
      List.take_left' (length_uintBytes c)
    have hdrop : (uintBytes c ++ (cellsBytes cells ++ rest)).drop 4 = cellsBytes cells ++ rest :=
      List.drop_left' (length_uintBytes c)
    rw [List.length_cons, hcons, fields, htake, hdrop, ih,
      overwrite_of_length b (length_uintBytes c), toUInt_uintBytes]

theorem play_cell (seat : UInt32) (as : List Stage) (w : Writer) :
    play (cellStages seat ++ as) w =
      if (printStr w (decimal seat)).1 = 0 then
        if (printStr (printStr w (decimal seat)).2 (ascii " ")).1 = 0 then
          { play as (printStr (printStr w (decimal seat)).2 (ascii " ")).2 with
            taken := (play as (printStr (printStr w (decimal seat)).2 (ascii " ")).2).taken + 1 }
        else ⟨1, false, (printStr (printStr w (decimal seat)).2 (ascii " ")).2⟩
      else ⟨1, false, (printStr w (decimal seat)).2⟩ := by
  simp only [cellStages, List.cons_append, List.nil_append, play]
  split_ifs <;> rfl

/-- The output behind the line of an event, up to the newline. -/
def eventOut (w : Writer) (id : UInt32) : Writer :=
  (printStr (printStr w (ascii "Event: ")).2 (decimal id)).2

theorem play_line (id : UInt32) (as : List Stage) (w : Writer) :
    play (lineStages id ++ as) w =
      if (printStr (eventOut w id) (ascii "\n")).1 = 0 then
        { play as (printStr (eventOut w id) (ascii "\n")).2 with
          taken := (play as (printStr (eventOut w id) (ascii "\n")).2).taken + 1 }
      else ⟨1, false, (printStr (eventOut w id) (ascii "\n")).2⟩ := by
  have hout : (printStr (printStr w (ascii "Event: ")).2 (decimal id)).2 = eventOut w id := rfl
  simp only [lineStages, List.cons_append, List.nil_append, play, hout]
  split_ifs <;> rfl

theorem takes_flatMap {f : UInt32 → List Stage} (hf : ∀ c, takes (f c) = 1) (cells : List UInt32) :
    takes (cells.flatMap f) = cells.length := by
  induction cells with
  | nil => rfl
  | cons c cells ih =>
    have hc := hf c
    simp only [takes] at hc ih ⊢
    rw [List.flatMap_cons, List.count_append, hc, ih, List.length_cons, Nat.add_comm]

theorem takes_cellStages (c : UInt32) : takes (cellStages c) = 1 := rfl

theorem takes_lineStages (c : UInt32) : takes (lineStages c) = 1 := rfl

/-! ## The code -/

open Api

variable {σ : Type}

/-- A process that has `bs` to read, on a pipe that ends behind them or not, and `v` and `w` for
    its variables and its output. -/
structure At (eof : Bool) (v : Locals) (bs : Bytes) (w : Writer) (p : Process σ) : Prop where
  locals : p.locals = v
  bytes : p.response_pipe.bytes = bs
  ends : p.response_pipe.eof = eof
  calm : Calm p.response_pipe.turns
  out : p.out = w

section Rules

variable {eof : Bool} {v : Locals} {bs : Bytes} {w : Writer} {p : Process σ} {E : Stop → Prop}
  {Q : Int32 → Process σ → Prop}

theorem wp_fail_at {msg : String} (h : At eof v bs w p)
    (hQ : ∀ p', At eof v bs w p' → Q 1 p') : wp (fail msg) Q E p :=
  hQ _ { h with }

/-- What a field gives that is there, or of which the pipe has only a part before it ends. -/
theorem wp_readOr_at {n : Nat} {msg : String} {var : Locals → Buffer n}
    {put : Locals → Buffer n → Locals} {next : Bytes → Api σ Int32} (h : At eof v bs w p)
    (hn : (ssize (UInt64.ofNat n)).toNat = n) (hend : eof = true ∨ n ≤ bs.length)
    (hnext : ∀ p', At eof (put v ((var v).overwrite (bs.take n))) (bs.drop n) w p' →
      wp (next ((var v).overwrite (bs.take n)).bytes) Q E p') :
    wp (readOr msg var put next) Q E p := by
  obtain ⟨ts, hts, -, hread⟩ := myRead_calm h.calm (UInt64.ofNat n)
  have hcond : n ≤ p.response_pipe.bytes.length ∨ p.response_pipe.eof = true := by
    rw [h.bytes, h.ends]
    exact hend.symm
  rw [hn, if_pos hcond] at hread
  simp only [readOr, wp_bind, wp_get, hread, wp_set]
  rw [if_neg (by omega), h.locals, h.bytes]
  exact hnext _ ⟨rfl, rfl, h.ends, hts, h.out⟩

theorem wp_printStr_at {str : String} (h : At eof v bs w p)
    (hQ : ∀ p', At eof v bs (printStr w (ascii str)).2 p' → Q (printStr w (ascii str)).1 p') :
    wp (Api.printStr str) Q E p := by
  simp only [Api.printStr, wp_bind, wp_get, wp_set, wp_pure]
  rw [h.out]
  exact hQ _ { h with out := rfl }

theorem wp_printUint_at {value : UInt32} (h : At eof v bs w p)
    (hQ : ∀ p', At eof v bs (printStr w (decimal value)).2 p' →
      Q (printStr w (decimal value)).1 p') :
    wp (Api.printUint value) Q E p := by
  simp only [Api.printUint, wp_bind, wp_get, printUint_eq, wp_set, wp_pure]
  rw [h.out]
  exact hQ _ { h with out := rfl }

theorem wp_writeNewlineOr_at {next : Api σ Int32} (h : At eof v bs w p)
    (hok : (printStr w (ascii "\n")).1 = 0 →
      ∀ p', At eof v bs (printStr w (ascii "\n")).2 p' → wp next Q E p')
    (hfail : (printStr w (ascii "\n")).1 ≠ 0 →
      ∀ p', At eof v bs (printStr w (ascii "\n")).2 p' → Q 1 p') :
    wp (writeNewlineOr next) Q E p := by
  obtain ⟨hret, hout⟩ := myWrite_eq w (ascii "\n")
  simp only [writeNewlineOr, wp_bind, wp_get, wp_set]
  rw [h.out]
  split
  · next hfailed => exact wp_fail_at { h with out := hout } (hfail (hret.1 hfailed))
  · next hwritten =>
    exact hok (by_contra fun h0 => hwritten (hret.2 h0)) _ { h with out := hout }

end Rules

section Loops

variable {eof : Bool} {E : Stop → Prop} {Q : Int32 → Process σ → Prop} {next : Api σ Int32}
  {num_cols num_events : UInt64}

/-- The inner loop of `ems_show`. -/
theorem wp_showRow_at {n : Nat} {j : UInt64} {v : Locals} {bs : Bytes} {w : Writer}
    {p : Process σ} (h : At eof v bs w p) (hend : eof = true ∨ 4 * n ≤ bs.length)
    (hj : j.toNat + n = num_cols.toNat)
    (hok : (play ((fields n bs v.seat).flatMap cellStages) w).ok = true → ∀ p',
      At eof { v with seat := held n bs v.seat } (bs.drop (4 * n))
        (play ((fields n bs v.seat).flatMap cellStages) w).out p' → wp next Q E p')
    (hfail : (play ((fields n bs v.seat).flatMap cellStages) w).ok = false → ∀ v' p',
      At eof v' (bs.drop (4 * (play ((fields n bs v.seat).flatMap cellStages) w).taken))
        (play ((fields n bs v.seat).flatMap cellStages) w).out p' → Q 1 p') :
    wp (showRow num_cols next n j) Q E p := by
  induction n generalizing j v bs w p with
  | zero => exact hok rfl p (by simpa [held, fields, play] using h)
  | succ n ih =>
    have hlt : j < num_cols := UInt64.lt_iff_toNat_lt.2 (by omega)
    have hbound := num_cols.toNat_lt
    have hsucc : (j + 1).toNat = j.toNat + 1 := toNat_counter (by omega)
    have hfour : ∀ k, 4 + 4 * k = 4 * (k + 1) := fun k => by omega
    rw [fields, List.flatMap_cons, play_cell] at hok hfail
    rw [showRow]
    refine wp_readOr_at h (by decide) (hend.imp_right fun hle => by omega) fun p₁ h₁ => ?_
    rw [wp_bind]
    refine wp_printUint_at h₁ fun p₂ h₂ => ?_
    split_ifs at hok hfail with hseat hspace
    · rw [if_neg (not_not_intro hseat), if_pos hlt, wp_bind]
      refine wp_printStr_at h₂ fun p₃ h₃ => ?_
      rw [if_neg (not_not_intro hspace)]
      refine ih h₃ (hend.imp_right fun hle => ?_) (by omega)
        (fun hrest p' h' => hok hrest p' ?_) fun hrest v' p' h' => hfail hrest v' p' ?_
      · rw [List.length_drop]
        omega
      · rwa [List.drop_drop, hfour] at h'
      · rwa [List.drop_drop, hfour] at h'
    · rw [if_neg (not_not_intro hseat), if_pos hlt, wp_bind]
      refine wp_printStr_at h₂ fun p₃ h₃ => ?_
      rw [if_pos hspace]
      exact wp_fail_at h₃ (hfail rfl _)
    · rw [if_pos hseat]
      exact wp_fail_at h₂ (hfail rfl _)

/-- The outer loop of `ems_show`. -/
theorem wp_showRows_at {n : Nat} {v : Locals} {bs : Bytes} {w : Writer} {p : Process σ}
    (h : At eof v bs w p) (hend : eof = true ∨ 4 * (n * num_cols.toNat) ≤ bs.length)
    (hok : (play (gridStages num_cols.toNat n (fields (n * num_cols.toNat) bs v.seat)) w).ok =
        true → ∀ v' p', At eof v' (bs.drop (4 * (n * num_cols.toNat)))
        (play (gridStages num_cols.toNat n (fields (n * num_cols.toNat) bs v.seat)) w).out p' →
      wp next Q E p')
    (hfail : (play (gridStages num_cols.toNat n (fields (n * num_cols.toNat) bs v.seat)) w).ok =
        false → ∀ v' p', At eof v' (bs.drop (4 *
          (play (gridStages num_cols.toNat n (fields (n * num_cols.toNat) bs v.seat)) w).taken))
        (play (gridStages num_cols.toNat n (fields (n * num_cols.toNat) bs v.seat)) w).out p' →
      Q 1 p') :
    wp (showRows num_cols next n) Q E p := by
  induction n generalizing v bs w p with
  | zero => exact hok rfl v p (by simpa [gridStages, play] using h)
  | succ n ih =>
    have hsplit : (n + 1) * num_cols.toNat = num_cols.toNat + n * num_cols.toNat := by
      rw [Nat.succ_mul, Nat.add_comm]
    rw [hsplit] at hend hok hfail
    have hrow : (fields (num_cols.toNat + n * num_cols.toNat) bs v.seat).take num_cols.toNat =
        fields num_cols.toNat bs v.seat := by
      rw [fields_add, List.take_left' (length_fields ..)]
    have hrows : (fields (num_cols.toNat + n * num_cols.toNat) bs v.seat).drop num_cols.toNat =
        fields (n * num_cols.toNat) (bs.drop (4 * num_cols.toNat))
          (held num_cols.toNat bs v.seat) := by
      rw [fields_add, List.drop_left' (length_fields ..)]
    have htaken := taken_of_ok ((fields num_cols.toNat bs v.seat).flatMap cellStages) w
    rw [takes_flatMap takes_cellStages, length_fields] at htaken
    rw [gridStages, hrow, hrows, play_append] at hok hfail
    rw [showRows]
    refine wp_showRow_at h (hend.imp_right fun hle => by omega) (by simp)
      (fun hcells p₁ h₁ => ?_) fun hcells v' p' h' => ?_
    · rw [if_pos hcells, htaken hcells, play] at hok hfail
      refine wp_writeNewlineOr_at h₁ (fun hnl p₂ h₂ => ?_) fun hnl p₂ h₂ => ?_
      · rw [if_pos hnl] at hok hfail
        refine ih h₂ (hend.imp_right fun hle => ?_)
          (fun hrest v' p' h' => hok hrest v' p' ?_) fun hrest v' p' h' => hfail hrest v' p' ?_
        · rw [List.length_drop]
          omega
        · rwa [List.drop_drop, ← Nat.mul_add] at h'
        · rwa [List.drop_drop, ← Nat.mul_add] at h'
      · rw [if_neg hnl] at hfail
        exact hfail rfl _ _ h₂
    · rw [if_neg (by rw [hcells]; exact Bool.false_ne_true)] at hfail
      exact hfail hcells v' p' h'

/-- `print_str` and `print_uint` never give the -1 that `ems_list_events` tests for. -/
theorem printStr_ne (w : Writer) (text : Bytes) : ¬ (printStr w text).1 = -1 := by
  obtain ⟨w', ⟨hrun, -⟩ | ⟨hrun, -⟩⟩ := printStr_cases w text
  · rw [hrun]
    exact (by decide : ¬ (0 : Int32) = -1)
  · rw [hrun]
    exact (by decide : ¬ (1 : Int32) = -1)

/-- An event of the loop of `ems_list_events`, up to the newline. -/
theorem wp_listEvent_at {n : Nat} {i : UInt64} {v : Locals} {bs : Bytes} {w : Writer}
    {p : Process σ} (h : At eof v bs w p) (hend : eof = true ∨ 4 ≤ bs.length)
    (hnext : ∀ p', At eof { v with event_id := v.event_id.overwrite (bs.take 4) } (bs.drop 4)
      (eventOut w (toUInt (v.event_id.overwrite (bs.take 4)).bytes)) p' →
      wp (if i < num_events - 1 then writeNewlineOr (listLoop num_events next n (i + 1))
        else listLoop num_events next n (i + 1)) Q E p') :
    wp (listLoop num_events next (n + 1) i) Q E p := by
  rw [listLoop]
  refine wp_readOr_at h (by decide) hend fun p₁ h₁ => ?_
  rw [wp_bind]
  refine wp_printStr_at h₁ fun p₂ h₂ => ?_
  rw [if_neg (printStr_ne _ _), wp_bind]
  refine wp_printUint_at h₂ fun p₃ h₃ => ?_
  rw [if_neg (printStr_ne _ _)]
  exact hnext p₃ h₃

/-- The loop of `ems_list_events` with the newline after it, when there is an event. -/
theorem wp_listLoop_at {n : Nat} {i : UInt64} {v : Locals} {bs : Bytes} {w : Writer}
    {p : Process σ} (h : At eof v bs w p) (hend : eof = true ∨ 4 * (n + 1) ≤ bs.length)
    (hi : i.toNat + n + 1 = num_events.toNat)
    (hok : (play ((fields (n + 1) bs v.event_id).flatMap lineStages) w).ok = true → ∀ v' p',
      At eof v' (bs.drop (4 * (n + 1)))
        (play ((fields (n + 1) bs v.event_id).flatMap lineStages) w).out p' → wp next Q E p')
    (hfail : (play ((fields (n + 1) bs v.event_id).flatMap lineStages) w).ok = false → ∀ v' p',
      At eof v' (bs.drop (4 * (play ((fields (n + 1) bs v.event_id).flatMap lineStages) w).taken))
        (play ((fields (n + 1) bs v.event_id).flatMap lineStages) w).out p' → Q 1 p') :
    wp (listLoop num_events (writeNewlineOr next) (n + 1) i) Q E p := by
  have hone : (1 : UInt64) ≤ num_events := UInt64.le_iff_toNat_le.2 (by simp; omega)
  have hmore : ∀ i : UInt64, i < num_events - 1 ↔ i.toNat + 1 < num_events.toNat := fun i => by
    rw [UInt64.lt_iff_toNat_lt, UInt64.toNat_sub_of_le _ _ hone]
    simp
    omega
  clear hone
  induction n generalizing i v bs w p with
  | zero =>
    rw [fields, fields, List.flatMap_cons, List.flatMap_nil, play_line] at hok hfail
    simp only [play, Nat.zero_add, Nat.mul_one] at hok hfail
    refine wp_listEvent_at h hend fun p₁ h₁ => ?_
    rw [if_neg (by rw [hmore]; omega), listLoop]
    refine wp_writeNewlineOr_at h₁ (fun hnl p' h' => ?_) fun hnl p' h' => ?_
    · rw [if_pos hnl] at hok
      exact hok rfl _ p' h'
    · rw [if_neg hnl] at hfail
      exact hfail rfl _ p' h'
  | succ n ih =>
    have hbound := num_events.toNat_lt
    have hsucc : (i + 1).toNat = i.toNat + 1 := toNat_counter (by omega)
    have hfour : ∀ k, 4 + 4 * k = 4 * (k + 1) := fun k => by omega
    rw [fields, List.flatMap_cons, play_line] at hok hfail
    refine wp_listEvent_at h (hend.imp_right fun hle => by omega) fun p₁ h₁ => ?_
    rw [if_pos ((hmore i).2 (by omega))]
    refine wp_writeNewlineOr_at h₁ (fun hnl p₂ h₂ => ?_) fun hnl p₂ h₂ => ?_
    · rw [if_pos hnl] at hok hfail
      dsimp only at hok hfail
      refine ih h₂ (hend.imp_right fun hle => ?_) (by omega) ?_ ?_
      · rw [List.length_drop]
        omega
      · intro hrest v' p' h'
        dsimp only at hrest h'
        rw [List.drop_drop, hfour] at h'
        exact hok hrest v' p' h'
      · intro hrest v' p' h'
        dsimp only at hrest h'
        rw [List.drop_drop, hfour] at h'
        exact hfail hrest v' p' h'
    · rw [if_neg hnl] at hfail
      exact hfail rfl _ _ h₂

end Loops

/-! ## A call -/

/-- What the variables hold after reading the fields in front of the numbers. -/
def resultOf (v : Locals) (bs : Bytes) : Int32 := toInt (v.result.overwrite (bs.take 4)).bytes

def rowsOf (v : Locals) (bs : Bytes) : UInt64 :=
  toSize (v.num_rows.overwrite ((bs.drop 4).take 8)).bytes

def colsOf (v : Locals) (bs : Bytes) : UInt64 :=
  toSize (v.num_cols.overwrite ((bs.drop 12).take 8)).bytes

def eventsOf (v : Locals) (bs : Bytes) : UInt64 :=
  toSize (v.num_events.overwrite ((bs.drop 4).take 8)).bytes

/-- The result ends the call. -/
def Ended : Call → Int32 → Prop
  | .emsListEvents, result => result = 1 ∨ result = 2
  | _, result => result = 1

instance (c : Call) (result : Int32) : Decidable (Ended c result) := by
  cases c <;> unfold Ended <;> infer_instance

/-- How many bytes come before the numbers. -/
def headerSize (c : Call) (result : Int32) : Nat :=
  match c with
  | .emsCreate _ _ _ => 4
  | .emsReserve _ _ => 4
  | .emsShow _ => if result = 1 then 4 else 20
  | .emsListEvents => if result = 1 ∨ result = 2 then 4 else 12

/-- What a call does behind the fields in front of the numbers, when it has `bs` to read. -/
def stages (c : Call) (v : Locals) (bs : Bytes) : List Stage :=
  match c with
  | .emsCreate _ _ _ => []
  | .emsReserve _ _ => []
  | .emsShow _ =>
    if resultOf v bs = 1 then []
    else gridStages (colsOf v bs).toNat (rowsOf v bs).toNat
      (fields ((rowsOf v bs).toNat * (colsOf v bs).toNat) (bs.drop 20) v.seat)
  | .emsListEvents =>
    if resultOf v bs = 1 then []
    else if resultOf v bs = 2 then [.attempt (ascii "No events\n")]
    else listStages (fields (eventsOf v bs).toNat (bs.drop 12) v.event_id)

/-- What a call returns that has done all of this, or not. -/
def returnCode (pipes : Pipes) (c : Call) (result : Int32) (ok : Bool) : Int32 :=
  if ¬ Ended c result ∧ ok = true ∧ pipes.closeRequest = true ∧ pipes.closeResponse = true then
    result
  else 1

section Call

variable {eof : Bool} {v : Locals} {bs : Bytes} {w : Writer} {p : Process σ} {E : Stop → Prop}
  {Q : Int32 → Process σ → Prop} {pipes : Pipes}

theorem takes_gridStages (cols : Nat) : ∀ (n : Nat) (cells : List UInt32),
    cells.length = n * cols → takes (gridStages cols n cells) = cells.length
  | 0, cells, h => by
      rw [Nat.zero_mul] at h
      rw [h]
      rfl
  | n + 1, cells, h => by
      rw [Nat.succ_mul] at h
      have hrow := takes_flatMap takes_cellStages (cells.take cols)
      have hrest := takes_gridStages cols n (cells.drop cols) (by rw [List.length_drop]; omega)
      rw [List.length_take] at hrow
      rw [List.length_drop] at hrest
      simp only [takes] at hrow hrest ⊢
      rw [gridStages, List.count_append, List.count_cons_of_ne (by simp), hrow, hrest]
      omega

theorem takes_listStages (ids : List UInt32) : takes (listStages ids) = ids.length := by
  rw [listStages]
  split
  · next h => rw [h]; rfl
  · exact takes_flatMap takes_lineStages ids

/-- The numbers that a call reads. -/
theorem takes_stages_show (id : UInt32) (v : Locals) (bs : Bytes) (h1 : resultOf v bs ≠ 1) :
    takes (stages (.emsShow id) v bs) = (rowsOf v bs).toNat * (colsOf v bs).toNat := by
  rw [stages, if_neg h1, takes_gridStages _ _ _ (length_fields ..), length_fields]

theorem takes_stages_list (v : Locals) (bs : Bytes) (h1 : resultOf v bs ≠ 1)
    (h2 : resultOf v bs ≠ 2) : takes (stages .emsListEvents v bs) = (eventsOf v bs).toNat := by
  rw [stages, if_neg h1, if_neg h2, takes_listStages, length_fields]

theorem wp_close_at {c : Call} {result : Int32} (hresult : ¬ Ended c result)
    (h : At eof v bs w p) (hQ : ∀ p', At eof v bs w p' → Q (returnCode pipes c result true) p') :
    wp (close pipes result) Q E p := by
  rw [close]
  rw [returnCode] at hQ
  cases hrequest : pipes.closeRequest with
  | false => exact wp_fail_at h (by simpa [hrequest] using hQ)
  | true =>
    cases hresponse : pipes.closeResponse with
    | false => exact wp_fail_at h (by simpa [hresponse] using hQ)
    | true =>
      have hdone : ∀ p', At eof v bs w p' → Q result p' := by
        simpa [hrequest, hresponse, hresult] using hQ
      exact hdone p h

theorem four_le_headerSize (c : Call) (result : Int32) : 4 ≤ headerSize c result := by
  cases c with
  | emsCreate id rows cols => exact Nat.le_refl 4
  | emsReserve id args => exact Nat.le_refl 4
  | emsShow id =>
    rw [headerSize]
    split <;> omega
  | emsListEvents =>
    rw [headerSize]
    split <;> omega

/-- Opening the response pipe and reading the result. -/
theorem wp_response_at {unopened : Api σ Unit} {refused : String} {next : Int32 → Api σ Int32}
    (h : At eof v bs w p) (hend : eof = true ∨ 4 ≤ bs.length)
    (hopen : pipes.openResponse = true ∨ wp unopened (fun _ => Q 1) E p)
    (hone : resultOf v bs = 1 → ∀ v' p', At eof v' (bs.drop 4) w p' → Q 1 p')
    (hnext : resultOf v bs ≠ 1 → ∀ p',
      At eof { v with result := v.result.overwrite (bs.take 4) } (bs.drop 4) w p' →
      wp (next (resultOf v bs)) Q E p') :
    wp (response pipes (return ()) unopened refused next) Q E p := by
  rw [response, wp_bind, wp_pure]
  cases hopened : pipes.openResponse with
  | false =>
    rw [Bool.not_false, if_pos rfl, wp_bind]
    exact hopen.resolve_left (by rw [hopened]; exact Bool.false_ne_true)
  | true =>
    rw [Bool.not_true, if_neg Bool.false_ne_true]
    refine wp_readOr_at h (by decide) hend fun p₁ h₁ => ?_
    rw [wp_ite]
    exact ⟨fun h1 => wp_fail_at h₁ (hone h1 _), fun h1 => hnext h1 p₁ h₁⟩

/-- The fields in front of the seats. -/
theorem wp_showHeader_at {next : UInt64 → UInt64 → Api σ Int32}
    (h : At eof { v with result := v.result.overwrite (bs.take 4) } (bs.drop 4) w p)
    (hend : eof = true ∨ 20 ≤ bs.length)
    (hnext : ∀ v' p', v'.seat = v.seat → At eof v' (bs.drop 20) w p' →
      wp (next (rowsOf v bs) (colsOf v bs)) Q E p') :
    wp (readOr "Failed to read num_rows.\n" Locals.num_rows (fun v b => { v with num_rows := b })
        fun num_rows =>
      readOr "Failed to read num_cols.\n" Locals.num_cols (fun v b => { v with num_cols := b })
        fun num_cols => next (toSize num_rows) (toSize num_cols)) Q E p := by
  refine wp_readOr_at h (by decide) (hend.imp_right fun hle => ?_) fun p₁ h₁ => ?_
  · rw [List.length_drop]
    omega
  refine wp_readOr_at h₁ (by decide) (hend.imp_right fun hle => ?_) fun p₂ h₂ => ?_
  · rw [List.length_drop, List.length_drop]
    omega
  simp only [List.drop_drop, Nat.reduceAdd] at h₂ ⊢
  refine hnext _ p₂ ?_ h₂
  rfl

/-- The seats behind them. -/
theorem wp_showSeats_at {v' : Locals} {num_rows num_cols : UInt64} {next : Api σ Int32}
    {b : Buffer 4} (hseat : v'.seat = b) (h : At eof v' bs w p)
    (hend : eof = true ∨ 4 * (num_rows.toNat * num_cols.toNat) ≤ bs.length) {ss : List Stage}
    (hss : ss = gridStages num_cols.toNat num_rows.toNat
      (fields (num_rows.toNat * num_cols.toNat) bs b))
    (hok : (play ss w).ok = true → ∀ v' p',
      At eof v' (bs.drop (4 * (num_rows.toNat * num_cols.toNat))) (play ss w).out p' →
      wp next Q E p')
    (hfail : (play ss w).ok = false → ∀ v' p',
      At eof v' (bs.drop (4 * (play ss w).taken)) (play ss w).out p' → Q 1 p') :
    wp (showRows num_cols next num_rows.toNat) Q E p := by
  subst hseat hss
  exact wp_showRows_at h hend hok hfail

/-- The response to a show request, behind its result. -/
theorem wp_showResponse_at {next : Api σ Int32} {id : UInt32} (h1 : resultOf v bs ≠ 1)
    (h : At eof { v with result := v.result.overwrite (bs.take 4) } (bs.drop 4) w p)
    (hend : eof = true ∨ 20 + 4 * takes (stages (.emsShow id) v bs) ≤ bs.length)
    (hok : (play (stages (.emsShow id) v bs) w).ok = true → ∀ v' p',
      At eof v' (bs.drop (20 + 4 * (play (stages (.emsShow id) v bs) w).taken))
        (play (stages (.emsShow id) v bs) w).out p' → wp next Q E p')
    (hfail : (play (stages (.emsShow id) v bs) w).ok = false → ∀ v' p',
      At eof v' (bs.drop (20 + 4 * (play (stages (.emsShow id) v bs) w).taken))
        (play (stages (.emsShow id) v bs) w).out p' → Q 1 p') :
    wp (readOr "Failed to read num_rows.\n" Locals.num_rows (fun v b => { v with num_rows := b })
        fun num_rows =>
      readOr "Failed to read num_cols.\n" Locals.num_cols (fun v b => { v with num_cols := b })
        fun num_cols =>
      showRows (toSize num_cols) next (toSize num_rows).toNat) Q E p := by
  have htakes := takes_stages_show id v bs h1
  have htaken := taken_of_ok (stages (.emsShow id) v bs) w
  rw [htakes] at hend htaken
  refine @wp_showHeader_at _ eof v bs w p E Q
    (fun num_rows num_cols => showRows num_cols next num_rows.toNat) h
    (hend.imp_right fun hle => by omega) fun v' p₁ hseat h₁ => ?_
  refine wp_showSeats_at hseat h₁ (hend.imp_right fun hle => ?_) (if_neg h1)
    (fun hplay v' p' h' => hok hplay v' p' ?_) fun hplay v' p' h' => hfail hplay v' p' ?_
  · rw [List.length_drop]
    omega
  · rw [List.drop_drop] at h'
    rwa [htaken hplay]
  · rwa [List.drop_drop] at h'

/-- The field in front of the ids. -/
theorem wp_listHeader_at {next : UInt64 → Api σ Int32}
    (h : At eof { v with result := v.result.overwrite (bs.take 4) } (bs.drop 4) w p)
    (hend : eof = true ∨ 12 ≤ bs.length)
    (hnext : ∀ v' p', v'.event_id = v.event_id → At eof v' (bs.drop 12) w p' →
      wp (next (eventsOf v bs)) Q E p') :
    wp (readOr "Failed to read num_events.\n" Locals.num_events
        (fun v b => { v with num_events := b }) fun num_events =>
      next (toSize num_events)) Q E p := by
  refine wp_readOr_at h (by decide) (hend.imp_right fun hle => ?_) fun p₁ h₁ => ?_
  · rw [List.length_drop]
    omega
  rw [List.drop_drop] at h₁
  refine hnext _ p₁ ?_ h₁
  rfl

/-- The ids behind it, and the newline behind them. -/
theorem wp_listIds_at {v' : Locals} {num_events : UInt64} {next : Api σ Int32} {b : Buffer 4}
    (hid : v'.event_id = b) (h : At eof v' bs w p)
    (hend : eof = true ∨ 4 * num_events.toNat ≤ bs.length) {ss : List Stage}
    (hss : ss = listStages (fields num_events.toNat bs b))
    (hok : (play ss w).ok = true → ∀ v' p',
      At eof v' (bs.drop (4 * num_events.toNat)) (play ss w).out p' → wp next Q E p')
    (hfail : (play ss w).ok = false → ∀ v' p',
      At eof v' (bs.drop (4 * (play ss w).taken)) (play ss w).out p' → Q 1 p') :
    wp (listLoop num_events (writeNewlineOr next) num_events.toNat 0) Q E p := by
  subst hid
  cases hn : num_events.toNat with
  | zero =>
    -- no event: the newline alone
    rw [hn, fields, listStages, if_pos rfl] at hss
    subst hss
    rw [play, play] at hok hfail
    rw [hn] at hok
    rw [listLoop]
    refine wp_writeNewlineOr_at h (fun hnl p' h' => ?_) fun hnl p' h' => ?_
    · rw [if_pos hnl] at hok
      exact hok rfl _ p' h'
    · rw [if_neg hnl] at hfail
      exact hfail rfl _ p' h'
  | succ n =>
    rw [hn] at hend hss hok
    rw [listStages, if_neg (by rw [fields]; exact List.cons_ne_nil _ _)] at hss
    subst hss
    exact wp_listLoop_at h hend (by rw [hn]; simp) hok hfail

/-- The response to a list request, behind its result. -/
theorem wp_listResponse_at {next : Api σ Int32} (h1 : resultOf v bs ≠ 1) (h2 : resultOf v bs ≠ 2)
    (h : At eof { v with result := v.result.overwrite (bs.take 4) } (bs.drop 4) w p)
    (hend : eof = true ∨ 12 + 4 * takes (stages .emsListEvents v bs) ≤ bs.length)
    (hok : (play (stages .emsListEvents v bs) w).ok = true → ∀ v' p',
      At eof v' (bs.drop (12 + 4 * (play (stages .emsListEvents v bs) w).taken))
        (play (stages .emsListEvents v bs) w).out p' → wp next Q E p')
    (hfail : (play (stages .emsListEvents v bs) w).ok = false → ∀ v' p',
      At eof v' (bs.drop (12 + 4 * (play (stages .emsListEvents v bs) w).taken))
        (play (stages .emsListEvents v bs) w).out p' → Q 1 p') :
    wp (readOr "Failed to read num_events.\n" Locals.num_events
        (fun v b => { v with num_events := b }) fun num_events =>
      listLoop (toSize num_events) (writeNewlineOr next) (toSize num_events).toNat 0) Q E p := by
  have htakes := takes_stages_list v bs h1 h2
  have htaken := taken_of_ok (stages .emsListEvents v bs) w
  have hss : stages .emsListEvents v bs =
      listStages (fields (eventsOf v bs).toNat (bs.drop 12) v.event_id) := by
    rw [stages, if_neg h1, if_neg h2]
  rw [htakes] at hend htaken
  refine @wp_listHeader_at _ eof v bs w p E Q
    (fun num_events => listLoop num_events (writeNewlineOr next) num_events.toNat 0) h
    (hend.imp_right fun hle => by omega) fun v' p₁ hid h₁ => ?_
  refine wp_listIds_at hid h₁ (hend.imp_right fun hle => ?_) hss
    (fun hplay v' p' h' => hok hplay v' p' ?_) fun hplay v' p' h' => hfail hplay v' p' ?_
  · rw [List.length_drop]
    omega
  · rw [List.drop_drop] at h'
    rwa [htaken hplay]
  · rwa [List.drop_drop] at h'

/-- **A call reads the fields in front of the numbers and goes through its stages.** -/
theorem wp_receiveResponse_at (c : Call) (h : At eof v bs w p)
    (hend : eof = true ∨ headerSize c (resultOf v bs) + 4 * takes (stages c v bs) ≤ bs.length)
    (hopen : pipes.openResponse = true ∨ ∀ p', At eof v bs w p' → Q 1 p')
    (hQ : ∀ v' p', At eof v' (bs.drop (headerSize c (resultOf v bs) +
        4 * (play (stages c v bs) w).taken)) (play (stages c v bs) w).out p' →
      Q (returnCode pipes c (resultOf v bs) (play (stages c v bs) w).ok) p') :
    wp (receiveResponse pipes (return ()) c) Q E p := by
  have hresult : eof = true ∨ 4 ≤ bs.length := hend.imp_right fun hle => by
    have := four_le_headerSize c (resultOf v bs)
    omega
  have hended : ∀ ok, Ended c (resultOf v bs) → returnCode pipes c (resultOf v bs) ok = 1 :=
    fun ok h1 => if_neg fun hr => hr.1 h1
  have hfailed : returnCode pipes c (resultOf v bs) false = 1 :=
    if_neg fun hr => Bool.false_ne_true hr.2.1
  cases c with
  | emsCreate id rows cols =>
    rw [receiveResponse]
    refine wp_response_at h hresult (hopen.imp_right fun hQ' => hQ' p h) (fun h1 v' p' h' => ?_)
      fun h1 p₁ h₁ => wp_close_at (c := .emsCreate id rows cols) h1 h₁ fun p' h' => hQ _ p' h'
    exact hended true h1 ▸ hQ v' p' h'
  | emsReserve id args =>
    rw [receiveResponse]
    refine wp_response_at h hresult (hopen.imp_right fun hQ' => hQ' p h) (fun h1 v' p' h' => ?_)
      fun h1 p₁ h₁ => wp_close_at (c := .emsReserve id args) h1 h₁ fun p' h' => hQ _ p' h'
    exact hended true h1 ▸ hQ v' p' h'
  | emsShow id =>
    rw [receiveResponse]
    refine wp_response_at h hresult (hopen.imp_right fun hQ' => hQ' p h) (fun h1 v' p' h' => ?_)
      fun h1 p₁ h₁ => ?_
    · have hss : stages (.emsShow id) v bs = [] := if_pos h1
      rw [hended _ h1, hss, headerSize, if_pos h1] at hQ
      exact hQ v' p' h'
    · rw [headerSize, if_neg h1] at hend hQ
      refine wp_showResponse_at h1 h₁ hend (fun hplay v' p₂ h₂ => ?_)
        fun hplay v' p' h' => ?_
      · rw [hplay] at hQ
        exact wp_close_at (c := .emsShow id) h1 h₂ (hQ v')
      · rw [hplay, hfailed] at hQ
        exact hQ v' p' h'
  | emsListEvents =>
    rw [receiveResponse]
    refine wp_response_at h hresult (hopen.imp_right fun hQ' => ?_) (fun h1 v' p' h' => ?_)
      fun h1 p₁ h₁ => ?_
    · exact hQ' _ { h with }
    · have hss : stages .emsListEvents v bs = [] := if_pos h1
      rw [hended _ (Or.inl h1), hss, headerSize, if_pos (Or.inl h1)] at hQ
      exact hQ v' p' h'
    · by_cases h2 : resultOf v bs = 2
      · have hss : stages .emsListEvents v bs = [.attempt (ascii "No events\n")] :=
          (if_neg h1).trans (if_pos h2)
        rw [hended _ (Or.inr h2), hss, headerSize, if_pos (Or.inr h2)] at hQ
        rw [if_pos h2, wp_bind]
        exact wp_printStr_at h₁ fun p' h' => hQ _ p' h'
      · have h12 : ¬ (resultOf v bs = 1 ∨ resultOf v bs = 2) := fun h12 => h12.elim h1 h2
        rw [headerSize, if_neg h12] at hend hQ
        rw [if_neg h2]
        refine wp_listResponse_at h1 h2 h₁ hend (fun hplay v' p₂ h₂ => ?_) fun hplay v' p' h' => ?_
        · rw [hplay] at hQ
          exact wp_close_at (c := .emsListEvents) h12 h₂ (hQ v')
        · rw [hplay, hfailed] at hQ
          exact hQ v' p' h'

/-- A field of the request. -/
theorem wp_writeOr_at {msg : String} {buffer : Bytes} {next : Api σ Int32} (h : At eof v bs w p)
    (hfail : Calm p.request_pipe.turns ∨ ∀ p', At eof v bs w p' → Q 1 p')
    (hnext : ∀ p', At eof v bs w p' →
      (Calm p'.request_pipe.turns ∨ ∀ p', At eof v bs w p' → Q 1 p') → wp next Q E p') :
    wp (writeOr msg buffer next) Q E p := by
  simp only [writeOr, wp_bind, wp_get, wp_set]
  obtain hcalm | hfail := hfail
  · obtain ⟨ts, hts, -, hw⟩ := myWrite_calm hcalm buffer
    rw [hw, if_neg (by omega)]
    exact hnext _ { h with } (Or.inl hts)
  · split
    · exact wp_fail_at { h with } hfail
    · exact hnext _ { h with } (Or.inr hfail)

theorem wp_writeArrayOr_at {msg : String} {ns : List UInt64} {n : UInt64} {next : Api σ Int32}
    (hlen : n.toNat ≤ ns.length) (h : At eof v bs w p)
    (hfail : Calm p.request_pipe.turns ∨ ∀ p', At eof v bs w p' → Q 1 p')
    (hnext : ∀ p', At eof v bs w p' →
      (Calm p'.request_pipe.turns ∨ ∀ p', At eof v bs w p' → Q 1 p') → wp next Q E p') :
    wp (writeArrayOr msg ns (n * 8) next) Q E p := by
  have hmul : (n * 8).toNat ≤ n.toNat * 8 := by
    rw [UInt64.toNat_mul]
    exact Nat.mod_le _ _
  have hsize : (ssize (n * 8)).toNat ≤ (n * 8).toNat := by
    rw [ssize]
    split <;> omega
  rw [writeArrayOr, if_pos (by rw [length_sizesBytes]; omega)]
  exact wp_writeOr_at h hfail hnext

theorem wp_request_at {unopened : Api σ Unit} {op_code : UInt8} {next : Api σ Int32}
    (h : At eof v bs w p) (hunopened : wp unopened (fun _ => At eof v bs w) E p)
    (hfail : pipes.openRequest = true ∧ Calm p.request_pipe.turns ∨
      ∀ p', At eof v bs w p' → Q 1 p')
    (hnext : ∀ p', At eof v bs w p' →
      (Calm p'.request_pipe.turns ∨ ∀ p', At eof v bs w p' → Q 1 p') → wp next Q E p') :
    wp (request pipes unopened op_code next) Q E p := by
  rw [request]
  cases hopened : pipes.openRequest with
  | false =>
    rw [Bool.not_false, if_pos rfl, wp_bind]
    have hfail := hfail.resolve_left fun hr => by
      rw [hopened] at hr
      exact Bool.false_ne_true hr.1
    exact wp_mono hunopened (fun _ p' h' => hfail p' h') fun _ he => he
  | true =>
    rw [Bool.not_true, if_neg Bool.false_ne_true]
    refine wp_writeOr_at h (hfail.imp_left fun hr => hr.2) fun p₁ h₁ hfail₁ => ?_
    rw [writeSessionIdOr, wp_bind, wp_get]
    exact wp_writeOr_at h₁ hfail₁ hnext

/-- Sending the request leaves the response and the output as they are. -/
theorem wp_sendRequest_at {c : Call} (hvalid : c.Valid) {next : Api σ Int32}
    (h : At eof v bs w p)
    (hfail : pipes.openRequest = true ∧ Calm p.request_pipe.turns ∨
      ∀ p', At eof v bs w p' → Q 1 p')
    (hnext : ∀ p', At eof v bs w p' → wp next Q E p') :
    wp (sendRequest pipes c next) Q E p := by
  cases c with
  | emsCreate id rows cols =>
    exact wp_request_at h h hfail fun _ h₁ f₁ => wp_writeOr_at h₁ f₁ fun _ h₂ f₂ =>
      wp_writeOr_at h₂ f₂ fun _ h₃ f₃ => wp_writeOr_at h₃ f₃ fun p' h' _ => hnext p' h'
  | emsReserve id args =>
    exact wp_request_at h h hfail fun _ h₁ f₁ => wp_writeOr_at h₁ f₁ fun _ h₂ f₂ =>
      wp_writeOr_at h₂ f₂ fun _ h₃ f₃ => wp_writeArrayOr_at hvalid.1 h₃ f₃ fun _ h₄ f₄ =>
      wp_writeArrayOr_at hvalid.2 h₄ f₄ fun p' h' _ => hnext p' h'
  | emsShow id =>
    exact wp_request_at h h hfail fun _ h₁ f₁ => wp_writeOr_at h₁ f₁ fun p' h' _ => hnext p' h'
  | emsListEvents =>
    exact wp_request_at h { h with } hfail fun p' h' _ => hnext p' h'

/-- A call: whether its request can be sent or not, and whatever comes of its response. -/
theorem wp_issue_at {c : Call} (hvalid : c.Valid) (h : At eof v bs w p)
    (hend : eof = true ∨ headerSize c (resultOf v bs) + 4 * takes (stages c v bs) ≤ bs.length)
    (hfail : pipes.openRequest = true ∧ pipes.openResponse = true ∧ Calm p.request_pipe.turns ∨
      ∀ p', At eof v bs w p' → Q 1 p')
    (hQ : ∀ v' p', At eof v' (bs.drop (headerSize c (resultOf v bs) +
        4 * (play (stages c v bs) w).taken)) (play (stages c v bs) w).out p' →
      Q (returnCode pipes c (resultOf v bs) (play (stages c v bs) w).ok) p') :
    wp (c.issue pipes (return ())) Q E p := by
  rw [issue_eq]
  refine wp_sendRequest_at hvalid h (hfail.imp_left fun hr => ⟨hr.1, hr.2.2⟩) fun p₁ h₁ => ?_
  exact wp_receiveResponse_at c h₁ hend (hfail.imp_left fun hr => hr.2.1) hQ

end Call

end EventServer.Client
