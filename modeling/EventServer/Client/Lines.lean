import EventServer.Client.Commands
import EventServer.Lib.Lines

/-
  Lines of a job file.

  The parsers do not look for the newline first: they find it where they read on, and `cleanup`
  after that skips the next line. `Format.overruns` and `Overruns` say for which lines this happens,
  and `nextDirective_line` what an iteration does with any other line. `linesIndependent_iff` is the
  result: the lines of a file are independent exactly when none of them overruns, the last line
  apart.
-/

namespace EventServer.Client

open Lib

/-! ## Operands -/

namespace Format

variable {α β : Type}

/-- Does a field that is not as expected end with the newline of the line `l`? -/
def overruns : Format α → Bytes → Bool
  | .done _, _ => false
  | .reject _, _ => false
  | .uint ends _ next, l =>
    match l.dropWhile isDigit with
    | [] => false
    | ch :: l' =>
      match uintOf (l.takeWhile isDigit) with
      | none => ch = 10
      | some v => if ch ∈ ends then (next v ch).overruns l' else ch = 10
  | .char _ _ _, [] => false
  | .char ok _ next, ch :: l' => if ch ∈ ok then (next ch).overruns l' else ch = 10

def IsDone (f : Format α) : Prop := ∃ a, f = .done a

/-- The format is done after a byte that ends a command, and not before. -/
def Lined : Format α → Prop
  | .done _ => False
  | .reject _ => True
  | .uint ends _ next =>
    ∀ v, ∀ ch ∈ ends, if ch ∈ lineEnds then (next v ch).IsDone else (next v ch).Lined
  | .char ok _ next => ∀ ch ∈ ok, if ch ∈ lineEnds then (next ch).IsDone else (next ch).Lined

/-- What is returned for a field that is not as expected satisfies `p`. -/
def Fails (p : α → Prop) : Format α → Prop
  | .done _ => True
  | .reject _ => True
  | .uint _ failed next => (∀ v, p (failed v)) ∧ ∀ v ch, (next v ch).Fails p
  | .char _ failed next => p failed ∧ ∀ ch, (next ch).Fails p

theorem IsDone.map {g : α → β} {f : Format α} (h : f.IsDone) : (f.map g).IsDone := by
  obtain ⟨a, rfl⟩ := h
  exact ⟨g a, rfl⟩

theorem Lined.map {g : α → β} {f : Format α} (h : f.Lined) : (f.map g).Lined := by
  induction f with
  | done a => exact h
  | reject a => exact h
  | uint ends failed next ih =>
    intro v ch hch
    have hnext := h v ch hch
    split at hnext
    · next hend => rw [if_pos hend]; exact hnext.map
    · next hend => rw [if_neg hend]; exact ih v ch hnext
  | char ok failed next ih =>
    intro ch hch
    have hnext := h ch hch
    split at hnext
    · next hend => rw [if_pos hend]; exact hnext.map
    · next hend => rw [if_neg hend]; exact ih ch hnext

theorem not_mem_lineEnds {bs : Bytes} (h10 : 10 ∉ bs) (h0 : 0 ∉ bs) {ch : UInt8} (hch : ch ∈ bs) :
    ch ∉ lineEnds := fun hend => by
  obtain rfl | rfl := mem_lineEnds.1 hend
  · exact h10 hch
  · exact h0 hch

theorem lined_uint {ends : Bytes} {failed : Option UInt32 → α} {next : UInt32 → UInt8 → Format α}
    (h10 : 10 ∉ ends) (h0 : 0 ∉ ends) (h : ∀ v ch, (next v ch).Lined) :
    (uint ends failed next).Lined :=
  fun v ch hch => by
    rw [if_neg (not_mem_lineEnds h10 h0 hch)]
    exact h v ch

theorem lined_uint_last {failed : Option UInt32 → α} {next : UInt32 → UInt8 → Format α}
    (h : ∀ v ch, (next v ch).IsDone) : (uint lineEnds failed next).Lined :=
  fun v ch hch => by
    rw [if_pos hch]
    exact h v ch

theorem lined_char {ok : Bytes} {failed : α} {next : UInt8 → Format α}
    (h10 : 10 ∉ ok) (h0 : 0 ∉ ok) (h : ∀ ch, (next ch).Lined) :
    (char ok failed next).Lined :=
  fun ch hch => by
    rw [if_neg (not_mem_lineEnds h10 h0 hch)]
    exact h ch

theorem lined_char_last {failed : α} {next : UInt8 → Format α} (h : ∀ ch, (next ch).IsDone) :
    (char lineEnds failed next).Lined :=
  fun ch hch => by
    rw [if_pos hch]
    exact h ch

theorem Fails.map {g : α → β} {p : β → Prop} {f : Format α} (h : f.Fails (p ∘ g)) :
    (f.map g).Fails p := by
  induction f with
  | done a => trivial
  | reject a => trivial
  | uint ends failed next ih => exact ⟨h.1, fun v ch => ih v ch (h.2 v ch)⟩
  | char ok failed next ih => exact ⟨h.1, fun ch => ih ch (h.2 ch)⟩

end Format

open Format in
theorem parseCreate_lined : parseCreate.Lined :=
  lined_uint (by decide) (by decide) fun _ _ => lined_uint (by decide) (by decide) fun _ _ =>
    lined_uint_last fun _ _ => ⟨_, rfl⟩

open Format in
theorem reserveLoop_lined (room : Nat) (r : Reservation) : (reserveLoop room r).Lined := by
  induction room generalizing r with
  | zero => trivial
  | succ room ih =>
    refine lined_char (by decide) (by decide) fun _ =>
      lined_uint (by decide) (by decide) fun x _ =>
      lined_uint (by decide) (by decide) fun y _ =>
      lined_char (by decide) (by decide) fun ch => ?_
    dsimp only
    split
    · split
      · trivial
      · exact lined_char_last fun _ => ⟨_, rfl⟩
    · exact ih _

open Format in
theorem parseReserve_lined (max : Nat) : (parseReserve max).Lined :=
  lined_uint (by decide) (by decide) fun _ _ =>
    lined_char (by decide) (by decide) fun _ => reserveLoop_lined max _

open Format in
theorem parseShow_lined : parseShow.Lined := lined_uint_last fun _ _ => ⟨_, rfl⟩

open Format in
theorem parseWait_lined (thread_id : Bool) : (parseWait thread_id).Lined := by
  intro v ch hch
  by_cases hspace : ch = ' '.toUInt8
  · subst hspace
    rw [if_neg (by decide)]
    dsimp only
    rw [if_pos rfl]
    cases thread_id with
    | false => trivial
    | true => exact lined_uint_last fun _ _ => ⟨_, rfl⟩
  · have hend : ch ∈ lineEnds := (List.mem_cons.1 hch).resolve_left hspace
    rw [if_pos hend]
    dsimp only
    rw [if_neg hspace]
    exact ⟨_, rfl⟩

/-! ## One line -/

/-- A line with its newline, without NUL bytes and long runs of digits. -/
structure Line (l : Bytes) : Prop where
  ended : ∃ content, 10 ∉ content ∧ l = content ++ [10]
  noNul : 0 ∉ l
  short : ShortRuns l

/-- The newline is the last byte of a line. -/
theorem Line.next {ch : UInt8} {l : Bytes} (h : Line (ch :: l)) :
    ch = 10 ∧ l = [] ∨ ch ≠ 10 ∧ Line l := by
  obtain ⟨content, hcontent, hl⟩ := h.ended
  cases content with
  | nil =>
    rw [List.nil_append, List.cons.injEq] at hl
    exact Or.inl hl
  | cons ch' content =>
    rw [List.cons_append, List.cons.injEq] at hl
    obtain ⟨rfl, rfl⟩ := hl
    rw [List.mem_cons, not_or] at hcontent
    refine Or.inr ⟨fun hch => hcontent.1 hch.symm, ⟨content, hcontent.2, rfl⟩, ?_, ?_⟩
    · exact fun h0 => h.noNul (List.mem_cons_of_mem _ h0)
    · exact h.short.of_suffix (List.suffix_cons ch _)

/-- What `cleanup` does after it has been decided to skip the line at the byte `ch`. -/
theorem Line.skip {ch : UInt8} {l : Bytes} (h : Line (ch :: l)) (rest : Bytes) :
    skipLine (l ++ rest) = if ch = 10 then skipLine rest else rest := by
  obtain ⟨rfl, rfl⟩ | ⟨hch, hl⟩ := h.next
  · rfl
  · obtain ⟨content, hcontent, rfl⟩ := hl.ended
    rw [if_neg hch, List.append_assoc]
    exact skipLine_line hcontent rest

theorem Line.of_digits {ds l : Bytes} (hds : Digits ds) (h : Line (ds ++ l)) : Line l := by
  induction ds with
  | nil => exact h
  | cons d ds ih =>
    obtain ⟨hd, hds⟩ := digits_cons.1 hds
    obtain ⟨rfl, -⟩ | ⟨-, h⟩ := h.next
    · exact absurd hd (by decide)
    · exact ih hds h

/-- A line does not end with a number. -/
theorem Line.number {l : Bytes} (h : Line l) :
    ∃ ds ch l', l = ds ++ ch :: l' ∧ Digits ds ∧ ds.length ≤ 15 ∧ isDigit ch = false ∧
      Line (ch :: l') := by
  obtain ⟨ds, ch, l', rfl, hds, hlen, hch⟩ | ⟨hds, -⟩ := h.short.number_cases
  · exact ⟨ds, ch, l', rfl, hds, hlen, hch, h.of_digits hds⟩
  · obtain ⟨content, -, rfl⟩ := h.ended
    exact absurd (hds 10 (by simp)) (by decide)

namespace Format

variable {α : Type} {stack : Stack} {p : α → Prop}

/-- `f` reads its fields from the line `l`: what it returns does not depend on the rest of the file,
    of which the next line is skipped if `f` overruns. -/
def OnLine (stack : Stack) (p : α → Prop) (f : Format α) (l : Bytes) : Prop :=
  ∃ a, (f.overruns l = true → p a) ∧ ∀ rest, (f.run stack).run (l ++ rest) =
    .ok (a, if f.overruns l = true then skipLine rest else rest)

/-- A byte of the line: with one that is not as expected the line is skipped. -/
theorem run_line_next {f : Format α} {ok : Bytes} {ch : UInt8} {l : Bytes} {failed : α}
    (h : Line (ch :: l)) (hf : ch ∈ ok → if ch ∈ lineEnds then f.IsDone else f.Lined)
    (hp : p failed) (ih : f.Lined → Line l → f.OnLine stack p l) :
    ∃ a, ((if ch ∈ ok then f.overruns l else ch = 10) = true → p a) ∧
      ∀ rest, (if ch ∈ ok then (f.run stack).run (l ++ rest)
        else .ok (failed, skipLine (l ++ rest))) =
        .ok (a, if (if ch ∈ ok then f.overruns l else ch = 10) = true then skipLine rest
          else rest) := by
  by_cases hok : ch ∈ ok
  · simp only [hok, if_true]
    have hfok := hf hok
    obtain ⟨rfl, rfl⟩ | ⟨hch, hl⟩ := h.next
    · rw [if_pos (by decide)] at hfok
      obtain ⟨a, rfl⟩ := hfok
      exact ⟨a, fun h => Bool.noConfusion h, fun rest => rfl⟩
    · rw [if_neg fun hend => (mem_lineEnds.1 hend).elim hch fun h0 =>
        h.noNul (h0 ▸ List.mem_cons_self ..)] at hfok
      exact ih hfok hl
  · simp only [hok, if_false]
    refine ⟨failed, fun _ => hp, fun rest => ?_⟩
    rw [h.skip rest]
    simp only [decide_eq_true_eq]

theorem run_line (stack : Stack) {f : Format α} (hf : f.Lined) (hp : f.Fails p) {l : Bytes}
    (h : Line l) :
    f.OnLine stack p l := by
  induction f generalizing l with
  | done a => exact hf.elim
  | reject a =>
    obtain ⟨content, hcontent, rfl⟩ := h.ended
    refine ⟨a, fun h => Bool.noConfusion h, fun rest => ?_⟩
    rw [List.append_assoc]
    exact congrArg (fun bs => Except.ok (a, bs)) (skipLine_line hcontent rest)
  | uint ends failed next ih =>
    obtain ⟨ds, ch, l', rfl, hds, hlen, hch, hl⟩ := h.number
    have hrun : ∀ rest, (parseUint stack).run ((ds ++ ch :: l') ++ rest) =
        .ok ((uintOf ds, ch), l' ++ rest) := fun rest => by
      rw [List.append_assoc]
      exact parseUint_ended stack hds hlen hch (l' ++ rest)
    simp only [OnLine, overruns, takeWhile_digits hds hch, dropWhile_digits hds hch, run_uint, hrun]
    cases uintOf ds with
    | none =>
      refine ⟨failed none, fun _ => hp.1 none, fun rest => ?_⟩
      dsimp only
      rw [hl.skip rest]
      simp only [decide_eq_true_eq]
    | some v => exact run_line_next hl (hf v ch) (hp.1 (some v)) fun hf' => ih v ch hf' (hp.2 v ch)
  | char ok failed next ih =>
    cases l with
    | nil =>
      obtain ⟨content, -, hl⟩ := h.ended
      simp at hl
    | cons ch l =>
      simp only [OnLine, overruns, List.cons_append, run_char_cons]
      exact run_line_next h (hf ch) hp.1 fun hf' => ih ch hf' (hp.2 ch)

end Format

/-! ## Lines of a file -/

/-- Is the newline of `l` read where something else is expected? -/
def Shape.overruns (l : Bytes) : Shape → Bool
  | .operands word f =>
    10 ∈ l.take word.length || l.take word.length = word && f.overruns (l.drop word.length)
  | .whole word _ => 10 ∈ l.take word.length
  | .skipped _ => false
  | .blank => false

/-- The newline ends the line where more is expected of it: within the keyword, or in front of a
    field that cannot start with it, or behind a number that is too large. -/
def Overruns : Bytes → Bool
  | [] => false
  | ch :: l => (shapeOf ch).overruns l

/-- A keyword has no newline and is followed by fields that end with the line. -/
def Shape.Sound : Shape → Prop
  | .operands word f => 10 ∉ word ∧ f.Lined ∧ f.Fails (· = .invalid)
  | .whole word _ => 10 ∉ word
  | .skipped _ => True
  | .blank => True

theorem parseCreate_fails : parseCreate.Fails (· = none) :=
  ⟨fun _ => rfl, fun _ _ => ⟨fun _ => rfl, fun _ _ => ⟨fun _ => rfl, fun _ _ => trivial⟩⟩⟩

theorem reserveLoop_fails (room : Nat) (r : Reservation) :
    (reserveLoop room r).Fails (fun r => r.1 = 0) := by
  induction room generalizing r with
  | zero => trivial
  | succ room ih =>
    refine ⟨rfl, fun _ => ⟨fun _ => rfl, fun x _ => ⟨fun _ => rfl, fun y _ => ⟨rfl, fun ch => ?_⟩⟩⟩⟩
    dsimp only
    split
    · split
      · trivial
      · exact ⟨rfl, fun _ => trivial⟩
    · exact ih _

theorem parseReserve_fails (max : Nat) : (parseReserve max).Fails (fun r => r.1 = 0) :=
  ⟨fun _ => rfl, fun _ _ => ⟨rfl, fun _ => reserveLoop_fails max _⟩⟩

theorem parseShow_fails : parseShow.Fails (· = none) := ⟨fun _ => rfl, fun _ _ => trivial⟩

theorem parseWait_fails (thread_id : Bool) : (parseWait thread_id).Fails (fun r => r.1 = -1) := by
  refine ⟨fun _ => rfl, fun v ch => ?_⟩
  dsimp only
  split
  · split
    · exact ⟨fun _ => rfl, fun _ _ => trivial⟩
    · trivial
  · trivial

theorem Format.Fails.mono {α : Type} {p q : α → Prop} {f : Format α} (h : f.Fails p)
    (hpq : ∀ a, p a → q a) : f.Fails q := by
  induction f with
  | done a => trivial
  | reject a => trivial
  | uint ends failed next ih =>
    exact ⟨fun v => hpq _ (h.1 v), fun v ch => ih v ch (h.2 v ch)⟩
  | char ok failed next ih => exact ⟨hpq _ h.1, fun ch => ih ch (h.2 ch)⟩

theorem shapeOf_sound (ch : UInt8) : (shapeOf ch).Sound := by
  refine shapeOf_induction ?_ ?_ ?_ ?_ ?_ ?_ ?_ ?_ ?_ ch
  · refine ⟨by decide, parseCreate_lined.map, (parseCreate_fails.mono fun a h => ?_).map⟩
    rw [h]
    rfl
  · refine ⟨by decide, (parseReserve_lined _).map, ((parseReserve_fails _).mono fun a h => ?_).map⟩
    exact if_pos h
  · refine ⟨by decide, parseShow_lined.map, (parseShow_fails.mono fun a h => ?_).map⟩
    rw [h]
    rfl
  · exact (by decide : 10 ∉ ascii "IST")
  · refine ⟨by decide, (parseWait_lined _).map, ((parseWait_fails _).mono fun a h => ?_).map⟩
    exact if_pos h
  · exact (by decide : 10 ∉ ascii "ELP")
  · trivial
  · trivial
  · trivial

/-- Does a read of `n` bytes reach the end of the line? -/
theorem Line.mem_take_iff {l : Bytes} (h : Line l) (n : Nat) : 10 ∈ l.take n ↔ l.length ≤ n := by
  obtain ⟨content, hcontent, rfl⟩ := h.ended
  constructor
  · intro hmem
    by_contra hlt
    rw [List.length_append, List.length_singleton] at hlt
    rw [List.take_append_of_le_length (by omega)] at hmem
    exact hcontent (List.mem_of_mem_take hmem)
  · intro hle
    rw [List.take_of_length_le hle]
    simp

theorem Line.drop {l : Bytes} (h : Line l) {n : Nat} (hn : n < l.length) : Line (l.drop n) := by
  induction n generalizing l with
  | zero => exact h
  | succ n ih =>
    cases l with
    | nil => simp at hn
    | cons ch l =>
      obtain ⟨-, rfl⟩ | ⟨-, hl⟩ := h.next
      · simp at hn
      · exact ih hl (by simpa using hn)

theorem Line.skipLine_append {l : Bytes} (h : Line l) (rest : Bytes) :
    skipLine (l ++ rest) = rest := by
  obtain ⟨content, hcontent, rfl⟩ := h.ended
  rw [List.append_assoc]
  exact skipLine_line hcontent rest

theorem Line.endLine_append {l : Bytes} (h : Line l) (d : Directive) :
    ∃ d', ∀ rest, endLine d (l ++ rest) = (d', rest) := by
  cases l with
  | nil =>
    obtain ⟨content, -, hl⟩ := h.ended
    simp at hl
  | cons ch l =>
    obtain ⟨rfl, rfl⟩ | ⟨hch, hl⟩ := h.next
    · exact ⟨d, fun rest => rfl⟩
    · refine ⟨.invalid, fun rest => ?_⟩
      rw [List.cons_append, endLine, if_neg hch, hl.skipLine_append]

theorem shapeOf_eq_blank {ch : UInt8} (h : shapeOf ch = .blank) : ch = 10 := by
  unfold shapeOf at h
  split_ifs at h
  assumption

/-- A keyword that is shorter than the line. -/
theorem Line.read {l : Bytes} {n : Nat} (hn : n < l.length) (rest : Bytes) :
    (l ++ rest).take n = l.take n ∧ (l ++ rest).drop n = l.drop n ++ rest :=
  ⟨List.take_append_of_le_length (by omega), List.drop_append_of_le_length (by omega)⟩

/-- The rest of a line that does not overrun. -/
theorem Shape.run_line (stack : Stack) {s : Shape} (hs : s.Sound) {l : Bytes} (h : Line l)
    (hl : s.overruns l = false) (hblank : s ≠ .blank) :
    ∃ d, ∀ rest, s.run stack (l ++ rest) = .ok (d, rest) := by
  have hkeyword : ∀ {word : Bytes}, 10 ∉ l.take word.length → word.length < l.length :=
    fun {word} hmem => Nat.lt_of_not_le fun hle => hmem ((h.mem_take_iff _).2 hle)
  cases s with
  | operands word f =>
    simp only [Shape.overruns, Bool.or_eq_false_iff, decide_eq_false_iff_not,
      Bool.and_eq_false_iff] at hl
    have hn := hkeyword hl.1
    by_cases hword : l.take word.length = word
    · obtain ⟨a, -, hrun⟩ := Format.run_line stack hs.2.1 hs.2.2 (h.drop hn)
      refine ⟨a, fun rest => ?_⟩
      rw [Shape.run, (Line.read hn rest).1, (Line.read hn rest).2, if_pos hword, hrun,
        hl.2.resolve_left (not_not_intro hword)]
      rfl
    · refine ⟨.invalid, fun rest => ?_⟩
      rw [Shape.run, (Line.read hn rest).1, (Line.read hn rest).2, if_neg hword,
        (h.drop hn).skipLine_append]
  | whole word d =>
    have hn := hkeyword (of_decide_eq_false hl)
    by_cases hword : l.take word.length = word
    · obtain ⟨d', hd'⟩ := (h.drop hn).endLine_append d
      refine ⟨d', fun rest => ?_⟩
      rw [Shape.run, (Line.read hn rest).1, (Line.read hn rest).2, if_pos hword, hd']
    · refine ⟨.invalid, fun rest => ?_⟩
      rw [Shape.run, (Line.read hn rest).1, (Line.read hn rest).2, if_neg hword,
        (h.drop hn).skipLine_append]
  | skipped d =>
    exact ⟨d, fun rest => by rw [Shape.run, h.skipLine_append]⟩
  | blank => exact absurd rfl hblank

/-- A line that overruns is rejected, with something of the next line. -/
theorem Shape.run_overrun (stack : Stack) {s : Shape} (hs : s.Sound) {l : Bytes} (h : Line l)
    (hl : s.overruns l = true) (rest : Bytes) :
    ∃ k, s.run stack (l ++ rest) = .ok (.invalid, skipLine (rest.drop k)) := by
  -- the newline is among the bytes that are read for the keyword
  have hkeyword : ∀ {word : Bytes}, 10 ∉ word → 10 ∈ l.take word.length →
      (l ++ rest).take word.length ≠ word ∧
        (l ++ rest).drop word.length = rest.drop (word.length - l.length) := by
    intro word hword hmem
    have hle := (h.mem_take_iff _).1 hmem
    constructor
    · intro heq
      rw [← heq, List.take_append, List.take_of_length_le hle] at hword
      rw [List.take_of_length_le hle] at hmem
      exact hword (List.mem_append_left _ hmem)
    · rw [List.drop_append, List.drop_eq_nil_of_le hle, List.nil_append]
  cases s with
  | operands word f =>
    simp only [Shape.overruns, Bool.or_eq_true, decide_eq_true_eq, Bool.and_eq_true] at hl
    by_cases hmem : 10 ∈ l.take word.length
    · obtain ⟨hread, hdrop⟩ := hkeyword hs.1 hmem
      exact ⟨_, by rw [Shape.run, if_neg hread, hdrop]⟩
    · obtain ⟨hword, hover⟩ := hl.resolve_left hmem
      have hn : word.length < l.length :=
        Nat.lt_of_not_le fun hle => hmem ((h.mem_take_iff _).2 hle)
      obtain ⟨a, ha, hrun⟩ := Format.run_line stack hs.2.1 hs.2.2 (h.drop hn)
      refine ⟨0, ?_⟩
      rw [Shape.run, (Line.read hn rest).1, (Line.read hn rest).2, if_pos hword, hrun,
        if_pos hover, ha hover, List.drop_zero]
  | whole word d =>
    obtain ⟨hread, hdrop⟩ := hkeyword hs (of_decide_eq_true hl)
    exact ⟨_, by rw [Shape.run, if_neg hread, hdrop]⟩
  | skipped d => exact Bool.noConfusion hl
  | blank => exact Bool.noConfusion hl

theorem nextDirective_line (stack : Stack) {l : Bytes} (h : Line l) (hl : Overruns l = false) :
    ∃ d, d ≠ .eoc ∧ ∀ rest, (nextDirective stack).run (l ++ rest) = .ok (d, rest) := by
  cases l with
  | nil =>
    obtain ⟨content, -, hl⟩ := h.ended
    simp at hl
  | cons ch l =>
    obtain ⟨rfl, rfl⟩ | ⟨hch, hl'⟩ := h.next
    · exact ⟨.empty, Directive.noConfusion, fun rest => rfl⟩
    · obtain ⟨d, hd⟩ := (shapeOf ch).run_line stack (shapeOf_sound ch) hl' hl
        fun hblank => hch (shapeOf_eq_blank hblank)
      refine ⟨d, shapeOf_ne_eoc (hd []), fun rest => ?_⟩
      rw [List.cons_append, nextDirective_cons, hd]

theorem nextDirective_overrun (stack : Stack) {l : Bytes} (h : Line l) (hl : Overruns l = true)
    (rest : Bytes) :
    ∃ k, (nextDirective stack).run (l ++ rest) = .ok (.invalid, skipLine (rest.drop k)) := by
  cases l with
  | nil => exact Bool.noConfusion hl
  | cons ch l =>
    obtain ⟨rfl, rfl⟩ | ⟨hch, hl'⟩ := h.next
    · exact Bool.noConfusion hl
    · obtain ⟨k, hk⟩ := (shapeOf ch).run_overrun stack (shapeOf_sound ch) hl' hl rest
      exact ⟨k, by rw [List.cons_append, nextDirective_cons, hk]⟩

/-! ## A last line without an end -/

/-- After a byte of a line without an end. -/
theorem Format.run_last_next {α : Type} {stack : Stack} {f : Format α} {ok : Bytes} {ch : UInt8}
    {bs rest : Bytes} {a failed : α}
    (hf : ch ∈ ok → if ch ∈ lineEnds then f.IsDone else f.Lined)
    (hline : 10 ∉ ch :: bs) (hnul : 0 ∉ ch :: bs)
    (ih : f.Lined → 10 ∉ bs → 0 ∉ bs → (f.run stack).run bs = .ok (a, rest) → rest = [])
    (h : (if ch ∈ ok then (f.run stack).run bs else .ok (failed, skipLine bs)) = .ok (a, rest)) :
    rest = [] := by
  rw [List.mem_cons, not_or] at hline hnul
  split at h
  · next hok =>
    have hfok := hf hok
    rw [if_neg fun hend => (mem_lineEnds.1 hend).elim (fun he => hline.1 he.symm) fun he =>
      hnul.1 he.symm] at hfok
    exact ih hfok hline.2 hnul.2 h
  · cases h
    exact skipLine_of_not_mem hline.2

theorem Format.run_last {α : Type} {stack : Stack} {f : Format α} (hf : f.Lined) {bs rest : Bytes}
    (hline : 10 ∉ bs) (hnul : 0 ∉ bs) {a : α} (h : (f.run stack).run bs = .ok (a, rest)) :
    rest = [] := by
  induction f generalizing bs with
  | done a => exact hf.elim
  | reject a =>
    cases h
    exact skipLine_of_not_mem hline
  | uint ends failed next ih =>
    rw [run_uint] at h
    rcases hparse : (parseUint stack).run bs with e | ⟨⟨v, ch⟩, rest'⟩
    · rw [hparse] at h
      cases h
    · rw [hparse] at h
      obtain ⟨ds, rfl, -⟩ | ⟨-, -, rfl, rfl, -⟩ := parseUint_ok hparse
      · rw [List.mem_append, not_or] at hline hnul
        cases v with
        | none =>
          cases h
          exact skipLine_of_not_mem fun h10 => hline.2 (List.mem_cons_of_mem _ h10)
        | some v => exact run_last_next (hf v ch) hline.2 hnul.2 (fun hf' => ih v ch hf') h
      · -- the file has ended, and nothing is put back
        cases v with
        | none =>
          cases h
          rfl
        | some v =>
          by_cases hok : 0 ∈ ends
          · simp only [hok, if_true] at h
            exact List.suffix_nil.1 (run_suffix h)
          · simp only [hok, if_false] at h
            cases h
            rfl
  | char ok failed next ih =>
    cases bs with
    | nil => exact List.suffix_nil.1 (run_suffix h)
    | cons ch bs =>
      rw [run_char_cons] at h
      exact run_last_next (hf ch) hline hnul (fun hf' => ih ch hf') h

theorem nextDirective_last {stack : Stack} {text rest : Bytes} (hline : 10 ∉ text)
    (hnul : 0 ∉ text) {d : Directive} (h : (nextDirective stack).run text = .ok (d, rest)) :
    rest = [] := by
  cases text with
  | nil =>
    cases h
    rfl
  | cons ch text =>
    rw [nextDirective_cons] at h
    rw [List.mem_cons, not_or] at hline hnul
    have hdrop : ∀ {n : Nat} {b : UInt8}, b ∉ text → b ∉ text.drop n :=
      fun hb hmem => hb (List.mem_of_mem_drop hmem)
    have hsound := shapeOf_sound ch
    cases hs : shapeOf ch with
    | operands word f =>
      rw [hs] at h hsound
      rw [Shape.run] at h
      split at h
      · exact f.run_last hsound.2.1 (hdrop hline.2) (hdrop hnul.2) h
      · cases h
        exact skipLine_of_not_mem (hdrop hline.2)
    | whole word d' =>
      rw [hs, Shape.run] at h
      split at h
      · cases hrest : text.drop word.length with
        | nil =>
          rw [hrest] at h
          cases h
          rfl
        | cons ch' bs =>
          have hline' := hdrop (n := word.length) hline.2
          rw [hrest, List.mem_cons, not_or] at hline'
          rw [hrest, endLine, if_neg fun h10 => hline'.1 h10.symm] at h
          cases h
          exact skipLine_of_not_mem hline'.2
      · cases h
        exact skipLine_of_not_mem (hdrop hline.2)
    | skipped d' =>
      rw [hs] at h
      cases h
      exact skipLine_of_not_mem hline.2
    | blank => exact absurd (shapeOf_eq_blank hs).symm hline.1

/-! ## Independence of lines -/

/-- The requests for each line on its own. -/
def requestsOfLines (stack : Stack) : List Bytes → Except Stop (List Call)
  | [] => .ok []
  | l :: ls => do return (← requests stack l) ++ (← requestsOfLines stack ls)

/-- No line has an influence on what another line means, and a line that is rejected is skipped to
    its end and not further. -/
structure LinesIndependent (stack : Stack) (file : Bytes) : Prop where
  requests_eq : requests stack file = requestsOfLines stack (lines 10 file)
  rejected : ∀ rest rest', Reaches stack file rest →
    (nextDirective stack).run rest = .ok (.invalid, rest') → rest' = skipLine rest

theorem Reaches.cases {stack : Stack} {file rest rest' : Bytes} {d : Directive}
    (hnext : (nextDirective stack).run file = .ok (d, rest)) (h : Reaches stack file rest') :
    rest' = file ∨ Reaches stack rest rest' := by
  cases h with
  | refl => exact Or.inl rfl
  | step hnext' hd h =>
    rw [hnext] at hnext'
    cases hnext'
    exact Or.inr h

theorem Reaches.nil {stack : Stack} {rest : Bytes} (h : Reaches stack [] rest) : rest = [] := by
  cases h with
  | refl => rfl
  | step hnext hd h =>
    cases hnext
    exact absurd rfl hd

/-- A file of which one iteration leaves nothing. -/
theorem linesIndependent_single {stack : Stack} {file : Bytes} (hlines : lines 10 file = [file])
    (hskip : skipLine file = [])
    (hrest : ∀ d rest, (nextDirective stack).run file = .ok (d, rest) → rest = []) :
    LinesIndependent stack file := by
  refine ⟨?_, fun rest rest' hreach hrejected => ?_⟩
  · rw [hlines, requestsOfLines, requestsOfLines]
    cases hreq : requests stack file with
    | error e => rfl
    | ok cs => exact congrArg Except.ok (List.append_nil cs).symm
  · cases hreach with
    | refl => rw [hrest _ _ hrejected, hskip]
    | step hnext hd hreach =>
      rw [hrest _ _ hnext] at hreach
      rw [hreach.nil] at hrejected
      cases hrejected

theorem skipLine_drop_ne {bs : Bytes} (k : Nat) (hne : bs ≠ []) : skipLine (bs.drop k) ≠ bs := by
  cases bs with
  | nil => exact absurd rfl hne
  | cons ch bs =>
    have hsuffix : skipLine ((ch :: bs).drop k) <:+ bs := by
      cases k with
      | zero =>
        rw [List.drop_zero, skipLine]
        split
        · exact List.suffix_refl bs
        · exact skipLine_suffix bs
      | succ k => exact (skipLine_suffix _).trans (List.drop_suffix k bs)
    intro h
    have hle := hsuffix.length_le
    rw [h, List.length_cons] at hle
    omega

theorem map_append_inj {cs : List Call} {x y : Except Stop (List Call)}
    (h : x.map (cs ++ ·) = y.map (cs ++ ·)) : x = y := by
  cases x with
  | error e => cases y with
    | error e' => exact congrArg Except.error (Except.error.inj h)
    | ok ds => cases h
  | ok ds => cases y with
    | error e => cases h
    | ok ds' => exact congrArg Except.ok (List.append_cancel_left (Except.ok.inj h))

/-- A line in front of a file does what it does on its own. -/
theorem linesIndependent_cons {stack : Stack} {content rest : Bytes} (hcontent : 10 ∉ content)
    {d : Directive} (hd : d ≠ .eoc)
    (hrun : ∀ rest, (nextDirective stack).run (content ++ 10 :: rest) = .ok (d, rest)) :
    LinesIndependent stack (content ++ 10 :: rest) ↔ LinesIndependent stack rest := by
  have hfile : requests stack (content ++ 10 :: rest) =
      (requests stack rest).map (d.calls ++ ·) := requests_next (hrun rest) hd
  have hline : requests stack (content ++ [10]) = .ok d.calls := by
    rw [requests_next (hrun []) hd, requests_nil]
    exact congrArg Except.ok (List.append_nil d.calls)
  have hlines : requestsOfLines stack (lines 10 (content ++ 10 :: rest)) =
      (requestsOfLines stack (lines 10 rest)).map (d.calls ++ ·) := by
    rw [lines_append_newline hcontent, requestsOfLines, hline]
    cases requestsOfLines stack (lines 10 rest) <;> rfl
  constructor
  · rintro ⟨hreq, hrej⟩
    refine ⟨?_, fun rest₁ rest₂ hreach => hrej rest₁ rest₂ (.step (hrun rest) hd hreach)⟩
    rw [hfile, hlines] at hreq
    exact map_append_inj hreq
  · rintro ⟨hreq, hrej⟩
    refine ⟨by rw [hfile, hlines, hreq], fun rest₁ rest₂ hreach hrejected => ?_⟩
    obtain rfl | hreach := hreach.cases (hrun rest)
    · rw [hrun rest] at hrejected
      cases hrejected
      exact (skipLine_line hcontent _).symm
    · exact hrej rest₁ rest₂ hreach hrejected

theorem dropLast_lines_cons {content rest : Bytes} (hcontent : 10 ∉ content) (hne : rest ≠ []) :
    (lines 10 (content ++ 10 :: rest)).dropLast = (content ++ [10]) :: (lines 10 rest).dropLast := by
  rw [lines_append_newline hcontent, List.dropLast_cons_of_ne_nil fun h => hne (lines_eq_nil.1 h)]

/-- **Lines of a job file are independent exactly when none but the last overruns.** -/
theorem linesIndependent_iff (stack : Stack) {file : Bytes} (hnul : 0 ∉ file)
    (hshort : ShortRuns file) :
    LinesIndependent stack file ↔ ∀ l ∈ (lines 10 file).dropLast, Overruns l = false := by
  induction file using lines_induction (10 : UInt8) with
  | hnil =>
    refine iff_of_true ⟨rfl, fun rest rest' hreach hrejected => ?_⟩ (by simp)
    rw [hreach.nil] at hrejected
    cases hrejected
  | hlast text hline hne =>
    have hlines : lines 10 text = [text] := lines_of_not_mem hline hne
    rw [hlines]
    exact iff_of_true (linesIndependent_single hlines (skipLine_of_not_mem hline)
      fun d rest h => nextDirective_last hline hnul h) (by simp)
  | hline content rest hcontent ih =>
    have hsplit : content ++ 10 :: rest = content ++ [10] ++ rest := by simp
    have hline : Line (content ++ [10]) := by
      refine ⟨⟨content, hcontent, rfl⟩, fun h0 => hnul ?_, fun ds hds => hshort ds ?_⟩
      · rw [hsplit]
        exact List.mem_append_left _ h0
      · rw [hsplit]
        exact hds.trans (List.prefix_append _ rest).isInfix
    have hsuffix : rest <:+ content ++ 10 :: rest :=
      (List.suffix_cons 10 rest).trans (List.suffix_append content _)
    by_cases hne : rest = []
    · -- the line is the last one
      subst hne
      have hlines : lines 10 (content ++ [10]) = [content ++ [10]] :=
        lines_append_newline hcontent []
      rw [hlines]
      refine iff_of_true (linesIndependent_single hlines (skipLine_line hcontent [])
        fun d rest h => ?_) (by simp)
      rw [← List.append_nil (content ++ [10])] at h
      cases hover : Overruns (content ++ [10]) with
      | false =>
        obtain ⟨d', -, hrun⟩ := nextDirective_line stack hline hover
        rw [hrun] at h
        cases h
        rfl
      | true =>
        obtain ⟨k, hk⟩ := nextDirective_overrun stack hline hover []
        rw [hk, List.drop_nil] at h
        cases h
        rfl
    · rw [dropLast_lines_cons hcontent hne, List.forall_mem_cons, hsplit]
      cases hover : Overruns (content ++ [10]) with
      | false =>
        obtain ⟨d, hd, hrun⟩ := nextDirective_line stack hline hover
        rw [← hsplit, linesIndependent_cons hcontent hd fun rest => by rw [← hrun rest]; simp,
          ih (fun h0 => hnul (hsuffix.subset h0)) (hshort.of_suffix hsuffix)]
        exact (and_iff_right rfl).symm
      | true =>
        refine iff_of_false (fun h => ?_) fun h => Bool.noConfusion h.1
        obtain ⟨k, hk⟩ := nextDirective_overrun stack hline hover rest
        have heq := h.rejected _ _ (.refl _) hk
        rw [hline.skipLine_append] at heq
        exact skipLine_drop_ne k hne heq

/-- Rejected and accepted lines in a file of which no line overruns. -/
theorem linesIndependent_lists :
    LinesIndependent (fun _ => .zero 16) (ascii "LISTS\nSHOW 7\n") :=
  (linesIndependent_iff _ (by decide) (.of_countP (by decide))).2 (by decide)

/-- A line with a single letter swallows two lines with commands. -/
theorem not_linesIndependent_letter :
    0 ∉ ascii "C\nLIST\nLIST\n" ∧ ShortRuns (ascii "C\nLIST\nLIST\n") ∧
      requests (fun _ => .zero 16) (ascii "C\nLIST\nLIST\n") = .ok [] ∧
      requestsOfLines (fun _ => .zero 16) (lines 10 (ascii "C\nLIST\nLIST\n")) =
        .ok [.emsListEvents, .emsListEvents] ∧
      ¬ LinesIndependent (fun _ => .zero 16) (ascii "C\nLIST\nLIST\n") := by
  have hlost : requests (fun _ => .zero 16) (ascii "C\nLIST\nLIST\n") = .ok [] := rfl
  have hlines : requestsOfLines (fun _ => .zero 16) (lines 10 (ascii "C\nLIST\nLIST\n")) =
      .ok [.emsListEvents, .emsListEvents] := by
    have hfirst : requests (fun _ => .zero 16) (ascii "C\n") = .ok [] := rfl
    have hlist : requests (fun _ => .zero 16) (ascii "LIST\n") = .ok [.emsListEvents] := rfl
    have hcut : lines 10 (ascii "C\nLIST\nLIST\n") =
        [ascii "C\n", ascii "LIST\n", ascii "LIST\n"] := by decide
    rw [hcut, requestsOfLines, requestsOfLines, requestsOfLines, hfirst, hlist]
    rfl
  refine ⟨by decide, .of_countP (by decide), hlost, hlines, fun h => ?_⟩
  have heq := h.requests_eq
  rw [hlost, hlines] at heq
  cases heq

end EventServer.Client
