import EventServer.Common.Scan

/-
  What `parse_uint` can be relied on for, and that it reads what `print_uint` prints.

  The digits of a number stand in the 16 bytes of a local array, where `strtoul` finds its end by
  a NUL. `parse_uint` stores that NUL in place of the byte that ends the number. At the end of the
  file it stores none, and nothing keeps the digits from filling the array. So it is as good as its
  description exactly for the inputs that are `Delimited` (`returns_iff`): up to 15 digits and a
  byte that is none.
-/

namespace EventServer

open Lib

/-- The digits that come next. -/
def digitRun (bs : Bytes) : Bytes := bs.takeWhile isDigit

/-- The digits that come next leave room for a NUL, and a byte comes after them. -/
def Delimited (bs : Bytes) : Prop := (digitRun bs).length ≤ 15 ∧ bs.dropWhile isDigit ≠ []

instance (bs : Bytes) : Decidable (Delimited bs) := inferInstanceAs (Decidable (_ ∧ _))

theorem delimited_append {ds : Bytes} (h : Digits ds) (hlen : ds.length ≤ 15) {ch : UInt8}
    (hch : isDigit ch = false) (rest : Bytes) : Delimited (ds ++ ch :: rest) := by
  refine ⟨?_, ?_⟩
  · rwa [digitRun, takeWhile_digits h hch]
  · rw [dropWhile_digits h hch]
    exact List.cons_ne_nil ch rest

/-- An array that happens to hold nines. -/
def nines : Buffer 16 := ⟨List.replicate 16 57, rfl⟩

/-- At the end of the file the digits can go on in what the array held before. -/
theorem parseUint_eof_nines {ds : Bytes} (h : Digits ds) (hlen : ds.length ≤ 15) :
    (parseUint fun _ => nines).run ds = .error .outOfBounds := by
  have hall : Digits (leftover (fun _ => nines) ds) := by
    intro d hd
    obtain hd | hd := List.mem_append.1 hd
    · exact h d hd
    · rw [List.eq_of_mem_replicate (List.mem_of_mem_drop hd)]
      rfl
  have hne : leftover (fun _ => nines) ds ≠ [] := by
    refine List.append_ne_nil_of_right_ne_nil _ (List.ne_nil_of_length_pos ?_)
    rw [List.length_drop, nines.length_eq]
    omega
  rw [parseUint_eof _ h (by omega), parsed, strtoul_all_digits hall hne]

/-- The result on such an input. -/
theorem Delimited.run {bs : Bytes} (h : Delimited bs) :
    ∃ ch rest, ∀ stack, (parseUint stack).run bs = .ok ((uintOf (digitRun bs), ch), rest) := by
  obtain ⟨ds, rest, rfl, hds, hrest⟩ := digits_split bs
  obtain ⟨hlen, hne⟩ := h
  cases rest with
  | nil => simp [List.dropWhile_eq_nil_iff.2 hds] at hne
  | cons ch rest =>
    have hch := hrest ch rfl
    rw [digitRun, takeWhile_digits hds hch] at hlen ⊢
    exact ⟨ch, rest, fun stack => parseUint_ended stack hds hlen hch rest⟩

/-- `parse_uint` returns, whatever its array held before, exactly on such inputs. -/
theorem returns_iff (bs : Bytes) :
    (∀ stack, ∃ r, (parseUint stack).run bs = .ok r) ↔ Delimited bs := by
  constructor
  · intro h
    obtain ⟨ds, ch, rest, rfl, hds, hlen, hch⟩ | ⟨hds, hlen⟩ | ⟨ds, rest, rfl, hds, hlen⟩ :=
      number_cases bs
    · exact delimited_append hds hlen hch rest
    · obtain ⟨r, hr⟩ := h fun _ => nines
      rw [parseUint_eof_nines hds hlen] at hr
      cases hr
    · obtain ⟨r, hr⟩ := h fun _ => nines
      rw [parseUint_long _ hds hlen] at hr
      cases hr
  · intro h
    obtain ⟨ch, rest, hrun⟩ := h.run
    exact fun stack => ⟨_, hrun stack⟩

theorem toNat_of_uintOf {ds : Bytes} {v : UInt32} (h : uintOf ds = some v) :
    v.toNat = digitsValue ds := by
  unfold uintOf at h
  split at h
  · next hlt =>
    rw [← Option.some.inj h, UInt32.toNat_ofNat', Nat.mod_eq_of_lt hlt]
  · cases h

theorem isSome_uintOf (ds : Bytes) : (uintOf ds).isSome = true ↔ digitsValue ds < 2 ^ 32 := by
  unfold uintOf
  split
  · next hlt => exact iff_of_true rfl hlt
  · next hge => exact iff_of_false (by simp) hge

/-! ## What the array held before -/

/-- What `parse_uint` returns depends only on what it reads. -/
structure Determined (bs : Bytes) : Prop where
  same : ∀ stack stack', (parseUint stack).run bs = (parseUint stack').run bs
  /-- It returns, and a value is the one of the digits it has consumed. -/
  value : ∀ stack, ∃ v next rest, (parseUint stack).run bs = .ok ((v, next), rest) ∧
    ∀ n, v = some n → n.toNat = digitsValue (digitRun bs)

/-- **`parse_uint` depends only on what it reads exactly when up to 15 digits come next and a byte
    that is no digit ends them.** -/
theorem determined_iff (bs : Bytes) : Determined bs ↔ Delimited bs := by
  constructor
  · intro h
    refine (returns_iff bs).1 fun stack => ?_
    obtain ⟨v, next, rest, hrun, -⟩ := h.value stack
    exact ⟨_, hrun⟩
  · intro h
    obtain ⟨ch, rest, hrun⟩ := h.run
    refine ⟨fun stack stack' => (hrun stack).trans (hrun stack').symm, fun stack => ?_⟩
    exact ⟨_, ch, rest, hrun stack, fun n hn => toNat_of_uintOf hn⟩

/-- A file that ends after the digit 1. If the next byte of the array happens to be a 2, it is
    read as 12. -/
theorem not_determined_one : ¬ Determined (ascii "1") := by
  intro h
  have hsame := h.same (fun _ => .zero 16) fun _ => (Buffer.zero 16).overwrite (ascii "12")
  have hzero : (parseUint fun _ => .zero 16).run (ascii "1") = .ok ((some 1, 0), []) := by rfl
  have htwo : (parseUint fun _ => (Buffer.zero 16).overwrite (ascii "12")).run (ascii "1") =
      .ok ((some 12, 0), []) := by rfl
  rw [hzero, htwo] at hsame
  cases hsame

/-! ## The bounds of the array -/

/-- The loop of `parse_uint` stores only in its array. -/
def StaysInside (bs : Bytes) : Prop :=
  ∀ stack : Stack, ∃ r, (parseUintLoop 16 (stack bs.length)).run bs = .ok r

/-- `parse_uint` returns 0 when the digits that come next denote a value up to `UINT_MAX`, and
    else 1. -/
def Checked (bs : Bytes) : Prop :=
  ∀ stack, ∃ v next rest, (parseUint stack).run bs = .ok ((v, next), rest) ∧
    (v.isSome = true ↔ digitsValue (digitRun bs) < 2 ^ 32)

theorem parseUintLoop_eq (buf : Buffer 16) : parseUintLoop 16 buf = loopAfter buf [] := by
  rw [loopAfter, overwrite_nil, ← parseUintLoopIn_eq]
  rfl

theorem parseUintLoop_digits {ds : Bytes} (h : Digits ds) (hlen : ds.length ≤ 16) (js : Bytes)
    (buf : Buffer 16) : (parseUintLoop 16 buf).run (ds ++ js) = (loopAfter buf ds).run js := by
  rw [parseUintLoop_eq, loopAfter_digits _ h js (by simpa using hlen), List.nil_append]

/-- The byte after 16 digits is stored behind the array. -/
theorem not_staysInside {bs : Bytes} (hlen : 16 ≤ (digitRun bs).length) (hlt : 16 < bs.length) :
    ¬ StaysInside bs := by
  have hdigits : Digits (bs.take 16) := by
    have htake : bs.take 16 = (digitRun bs).take 16 := by
      conv_lhs => rw [← List.takeWhile_append_dropWhile (p := isDigit) (l := bs)]
      exact List.take_append_of_le_length hlen
    rw [htake]
    exact fun d hd => List.mem_takeWhile_imp (List.mem_of_mem_take hd)
  have htake : (bs.take 16).length = 16 := by
    rw [List.length_take]
    omega
  obtain ⟨ch, js, hjs⟩ : ∃ ch js, bs.drop 16 = ch :: js :=
    List.exists_cons_of_length_pos (by rw [List.length_drop]; omega)
  intro h
  obtain ⟨r, hr⟩ := h fun _ => .zero 16
  rw [← List.take_append_drop 16 bs, parseUintLoop_digits hdigits (Nat.le_of_eq htake), hjs,
    loopAfter_full _ htake] at hr
  cases hr

/-- The array is large enough for 16 digits at the end of a file. -/
theorem staysInside_iff (bs : Bytes) :
    StaysInside bs ↔
      (digitRun bs).length ≤ 15 ∨ (digitRun bs).length = 16 ∧ bs.dropWhile isDigit = [] := by
  have hsum : (digitRun bs).length + (bs.dropWhile isDigit).length = bs.length := by
    rw [← List.length_append, digitRun, List.takeWhile_append_dropWhile]
  constructor
  · intro h
    by_contra hlong
    rw [not_or, not_and, ← List.length_eq_zero_iff] at hlong
    exact not_staysInside (by omega) (by omega) h
  · intro hlen stack
    obtain ⟨ds, rest, rfl, hds, hrest⟩ := digits_split bs
    cases rest with
    | nil =>
      have hall : digitRun (ds ++ []) = ds := by
        rw [List.append_nil, digitRun, List.takeWhile_eq_self_iff.2 hds]
      rw [hall] at hlen
      rw [parseUintLoop_digits hds (by omega), loopAfter_nil]
      exact ⟨_, rfl⟩
    | cons ch rest =>
      have hch := hrest ch rfl
      rw [digitRun, takeWhile_digits hds hch, dropWhile_digits hds hch] at hlen
      have hshort : ds.length ≤ 15 := hlen.resolve_right fun h => List.cons_ne_nil ch rest h.2
      rw [parseUintLoop_digits hds (by omega), loopAfter_cons _ (by omega), if_neg (by simp [hch])]
      exact ⟨_, rfl⟩

/-- **`parse_uint` stays inside its array and returns 0 for the numbers up to `UINT_MAX` and 1 for
    the others exactly when up to 15 digits come next and a byte that is no digit ends them.** -/
theorem staysInside_checked_iff (bs : Bytes) : StaysInside bs ∧ Checked bs ↔ Delimited bs := by
  constructor
  · rintro ⟨-, h⟩
    refine (returns_iff bs).1 fun stack => ?_
    obtain ⟨v, next, rest, hrun, -⟩ := h stack
    exact ⟨_, hrun⟩
  · intro h
    obtain ⟨ch, rest, hrun⟩ := h.run
    refine ⟨(staysInside_iff bs).2 (Or.inl h.1), fun stack => ?_⟩
    exact ⟨_, ch, rest, hrun stack, isSome_uintOf _⟩

/-- The number 1 with 15 zeros in front: the NUL that ends it is stored behind the array. -/
theorem not_staysInside_zeros :
    ¬ (StaysInside (ascii "0000000000000001\n") ∧ Checked (ascii "0000000000000001\n")) := by
  rintro ⟨h, -⟩
  obtain ⟨r, hr⟩ := h fun _ => .zero 16
  have hrun : (parseUintLoop 16 (.zero 16)).run (ascii "0000000000000001\n") =
      .error .outOfBounds := by rfl
  rw [hrun] at hr
  cases hr

/-! ## Printing and parsing -/

/-- The digits of a number as one writes them: none in front that could be left out. -/
structure Canonical (n : Nat) (ds : Bytes) : Prop where
  digits : Digits ds
  ne_nil : ds ≠ []
  value : digitsValue ds = n
  no_leading_zero : ds.head? = some 48 → ds = [48]

theorem canonical_decimal (v : UInt32) : Canonical v.toNat (decimal v) := by
  by_cases hv : v = 0
  · subst hv
    exact ⟨decimal_digits 0, by decide, rfl, fun _ => rfl⟩
  have hv0 : v.toNat ≠ 0 := fun h0 => hv (UInt32.toNat_inj.1 h0)
  have hne : Nat.digits 10 v.toNat ≠ [] := Nat.digits_ne_nil_iff_ne_zero.2 hv0
  have hdecimal : decimal v =
      ((Nat.digits 10 v.toNat).map fun d => UInt8.ofNat (48 + d)).reverse := by
    rw [decimal, if_neg hv]
  refine ⟨decimal_digits v, ?_, digitsValue_decimal v, fun hhead => ?_⟩
  · rw [hdecimal]
    simpa using hne
  · -- the first digit is the last of `Nat.digits`, which is not zero
    rw [hdecimal, List.head?_reverse, List.getLast?_map, List.getLast?_eq_some_getLast hne,
      Option.map_some, Option.some.injEq] at hhead
    have hlt := Nat.digits_lt_base (b := 10) (m := v.toNat) (by decide) (List.getLast_mem hne)
    have hdigit := (digit_ofNat hlt).2
    rw [hhead] at hdigit
    exact absurd hdigit.symm (Nat.getLast_digit_ne_zero 10 hv0)

/-- **`print_uint` prints the canonical digits of a number, however the calls of `write` split
    them, and in front of a byte that is no digit `parse_uint` reads the number back.** -/
theorem printUint_parseUint {w : Writer} (hw : Calm w.turns) (v : UInt32) {d : UInt8}
    (hd : isDigit d = false) (rest : Bytes) :
    ∃ ds ts, Canonical v.toNat ds ∧
      printUint w v = some (0, { written := w.written ++ ds, turns := ts }) ∧
      ∀ stack, (parseUint stack).run (ds ++ d :: rest) = .ok ((some v, d), rest) := by
  obtain ⟨ts, -, hprint⟩ := printUint_calm hw v
  have hv : uintOf (decimal v) = some v := by
    rw [uintOf, digitsValue_decimal, if_pos v.toNat_lt, UInt32.ofNat_toNat]
  refine ⟨decimal v, ts, canonical_decimal v, hprint, fun stack => ?_⟩
  rw [parseUint_ended stack (decimal_digits v) (length_decimal_le v) hd rest, hv]

/-- The number 4070 in pieces of two bytes and of one byte, in front of a space. -/
theorem printUint_parseUint_sample :
    ∃ ds ts, Canonical 4070 ds ∧
      printUint { turns := [.go 1, .go 0] } 4070 = some (0, { written := ds, turns := ts }) ∧
      ∀ stack, (parseUint stack).run (ds ++ 32 :: ascii "3") =
        .ok ((some 4070, 32), ascii "3") := by
  have hw : Calm (Writer.turns { turns := [.go 1, .go 0] }) := by
    intro t ht
    obtain rfl | rfl : t = .go 1 ∨ t = .go 0 := by simpa using ht
    · exact ⟨1, rfl⟩
    · exact ⟨0, rfl⟩
  exact printUint_parseUint hw 4070 (show isDigit 32 = false by rfl) (ascii "3")

end EventServer
