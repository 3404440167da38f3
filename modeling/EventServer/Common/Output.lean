import EventServer.Common.Io

/-
  Writing when some of the writes fail.

  `Failed w w'` says that between `w` and `w'` a system call on the descriptor has failed, and
  `Wrote w text w'` that a text has been written unless one has: the composable description of
  a program that writes piece by piece. A text is an `Option`, `none` being that of a program
  that does not come to an end. `sendAll` is a message sent in several calls of `my_write`; whether
  they succeed depends on the lengths of the buffers only (`sendAll_congr`).
-/

namespace EventServer

/-- Between `w` and `w'` a `write` has been interrupted or has failed. -/
def Failed (w w' : Writer) : Prop :=
  ∃ used, w.turns = used ++ w'.turns ∧ (.eintr ∈ used ∨ .fail ∈ used)

/-- Between `w` and `w'` the text has been written, unless a `write` has failed. -/
structure Wrote (w : Writer) (text : Option Bytes) (w' : Writer) : Prop where
  turns : w'.turns <:+ w.turns
  written : ¬ Failed w w' → ∃ t, text = some t ∧ w'.written = w.written ++ t

variable {w w' w'' : Writer} {text : Option Bytes}

theorem Failed.after (hts : w'.turns <:+ w.turns) (h : Failed w' w'') : Failed w w'' := by
  obtain ⟨front, hfront⟩ := hts
  obtain ⟨used, hused, hm⟩ := h
  exact ⟨front ++ used, by rw [← hfront, hused, List.append_assoc],
    hm.imp (List.mem_append_right _) (List.mem_append_right _)⟩

theorem Failed.before (h : Failed w w') (hts : w''.turns <:+ w'.turns) : Failed w w'' := by
  obtain ⟨used, hused, hm⟩ := h
  obtain ⟨front, hfront⟩ := hts
  exact ⟨used ++ front, by rw [hused, ← hfront, List.append_assoc],
    hm.imp (List.mem_append_left _) (List.mem_append_left _)⟩

/-- Without signals and errors nothing fails. -/
theorem Calm.not_failed (h : Calm w.turns) : ¬ Failed w w' := by
  rintro ⟨used, hused, hm⟩
  have hcalm : ∀ t ∈ used, ∃ n, t = .go n := fun t ht =>
    h t (hused ▸ List.mem_append_left _ ht)
  rcases hm with hm | hm
  · obtain ⟨n, hn⟩ := hcalm _ hm
    cases hn
  · obtain ⟨n, hn⟩ := hcalm _ hm
    cases hn

theorem Wrote.of_failed (h : Failed w w') : Wrote w text w' :=
  ⟨h.imp fun _ hu => hu.1.symm, fun hn => absurd h hn⟩

theorem wrote_refl (w : Writer) : Wrote w (some []) w :=
  ⟨List.suffix_refl _, fun _ => ⟨[], rfl, by simp⟩⟩

/-- One piece after another. -/
theorem Wrote.append {text' : Option Bytes} (h : Wrote w text w') (h' : Wrote w' text' w'') :
    Wrote w (text.bind fun t => text'.map (t ++ ·)) w'' := by
  refine ⟨h'.turns.trans h.turns, fun hn => ?_⟩
  obtain ⟨t, rfl, hw⟩ := h.written fun hf => hn (hf.before h'.turns)
  obtain ⟨t', rfl, hw'⟩ := h'.written fun hf => hn (hf.after h.turns)
  exact ⟨t ++ t', rfl, by rw [hw', hw, List.append_assoc]⟩

/-! ## One call -/

/-- A `write` takes the beginning of its buffer or fails. -/
theorem Writer.writeTurns_cases (w : Writer) {buffer : Bytes} (hb : buffer ≠ []) :
    ∀ ts : List Turn, ∃ used ts', ts = used ++ ts' ∧
      ((∃ j, 0 < j ∧ j ≤ buffer.length ∧ w.writeTurns buffer ts =
          ((j : Int), { written := w.written ++ buffer.take j, turns := ts' })) ∨
        (.eintr ∈ used ∨ .fail ∈ used) ∧ w.writeTurns buffer ts = (-1, { w with turns := ts' }))
  | [] => by
      have := List.length_pos_iff.2 hb
      exact ⟨[], [], rfl, Or.inl ⟨buffer.length, this, Nat.le_refl _, by simp [writeTurns]⟩⟩
  | .go n :: ts => by
      have := List.length_pos_iff.2 hb
      refine ⟨[.go n], ts, rfl,
        Or.inl ⟨min (n + 1) buffer.length, by omega, Nat.min_le_right _ _, ?_⟩⟩
      rw [writeTurns, List.length_take]
      rcases Nat.le_total (n + 1) buffer.length with h | h
      · rw [Nat.min_eq_left h]
      · rw [Nat.min_eq_right h, List.take_of_length_le h, List.take_length]
  | .eintr :: ts => ⟨[.eintr], ts, rfl, Or.inr ⟨Or.inl (by simp), rfl⟩⟩
  | .fail :: ts => ⟨[.fail], ts, rfl, Or.inr ⟨Or.inr (by simp), rfl⟩⟩
  | .signal :: ts => by
      obtain ⟨used, ts', hts, h⟩ := w.writeTurns_cases hb ts
      refine ⟨.signal :: used, ts', by rw [hts]; rfl, h.imp_right ?_⟩
      rintro ⟨hm, hrun⟩
      exact ⟨hm.imp (List.mem_cons_of_mem _) (List.mem_cons_of_mem _), hrun⟩

/-- `print_str` writes all of its string and gives 0, or a `write` fails and it gives 1 with a part
    of its string written. -/
theorem printLoop_cases : ∀ (fuel : Nat) (w : Writer) (str : Bytes), str.length ≤ fuel →
    ∃ w', (printLoop fuel w str = (0, w') ∧ w'.turns <:+ w.turns ∧ w'.written = w.written ++ str) ∨
      printLoop fuel w str = (1, w') ∧ Failed w w' ∧
        ∃ k < str.length, w'.written = w.written ++ str.take k
  | 0, w, str, hle => by
      obtain rfl : str = [] := List.eq_nil_of_length_eq_zero (by omega)
      exact ⟨w, Or.inl ⟨rfl, List.suffix_refl _, by simp⟩⟩
  | fuel + 1, w, str, hle => by
      by_cases hb : str = []
      · subst hb
        exact ⟨w, Or.inl ⟨by simp [printLoop], List.suffix_refl _, by simp⟩⟩
      obtain ⟨used, ts, hts, ⟨j, hj, hjl, hrun⟩ | ⟨hm, hrun⟩⟩ := w.writeTurns_cases hb w.turns
      · obtain ⟨w', hw'⟩ := printLoop_cases fuel
          { written := w.written ++ str.take j, turns := ts } (str.drop j) (by simp; omega)
        have hnn : ¬ ((j : Int) = -1) := by omega
        have hsuffix : ts <:+ w.turns := ⟨used, hts.symm⟩
        refine ⟨w', ?_⟩
        simp only [printLoop, if_neg hb, Writer.write, hrun, if_neg hnn, Int.toNat_natCast]
        refine hw'.imp ?_ ?_
        · rintro ⟨hret, hts', hwritten⟩
          refine ⟨hret, hts'.trans hsuffix, ?_⟩
          rw [hwritten, List.append_assoc, List.take_append_drop]
        · rintro ⟨hret, hf, k, hk, hwritten⟩
          rw [List.length_drop] at hk
          refine ⟨hret, hf.after hsuffix, j + k, by omega, ?_⟩
          rw [hwritten, List.append_assoc, ← List.take_add]
      · refine ⟨{ w with turns := ts }, Or.inr ⟨?_, ⟨used, hts, hm⟩, 0, ?_, by simp⟩⟩
        · simp [printLoop, hb, Writer.write, hrun]
        · exact List.length_pos_iff.2 hb

theorem printStr_cases (w : Writer) (str : Bytes) :
    ∃ w', (printStr w str = (0, w') ∧ w'.turns <:+ w.turns ∧ w'.written = w.written ++ str) ∨
      printStr w str = (1, w') ∧ Failed w w' ∧
        ∃ k < str.length, w'.written = w.written ++ str.take k :=
  printLoop_cases str.length w str (Nat.le_refl _)

/-- `my_write` does what `print_str` does, and fails when it fails. -/
theorem myWriteLoop_eq : ∀ (fuel : Nat) (w : Writer) (buffer : Bytes) (done : Nat),
    buffer.length ≤ fuel → myWriteLoop fuel w buffer done =
      (if (printLoop fuel w buffer).1 = 0 then ((done + buffer.length : Nat) : Int) else -1,
        (printLoop fuel w buffer).2)
  | 0, w, buffer, done, hle => by
      obtain rfl : buffer = [] := List.eq_nil_of_length_eq_zero (by omega)
      simp [myWriteLoop, printLoop]
  | fuel + 1, w, buffer, done, hle => by
      by_cases hb : buffer = []
      · subst hb
        simp [myWriteLoop, printLoop]
      obtain ⟨used, ts, -, ⟨j, hj, hjl, hrun⟩ | ⟨-, hrun⟩⟩ := w.writeTurns_cases hb w.turns
      · have hrec := myWriteLoop_eq fuel { written := w.written ++ buffer.take j, turns := ts }
          (buffer.drop j) (done + j) (by rw [List.length_drop]; omega)
        have hnn : ¬ ((j : Int) < 0) := by omega
        have hne : ¬ ((j : Int) = -1) := by omega
        have hsum : done + j + (buffer.length - j) = done + buffer.length := by omega
        rw [List.length_drop, hsum] at hrec
        simp only [myWriteLoop, printLoop, if_neg hb, Writer.write, hrun, if_neg hnn, if_neg hne,
          Int.toNat_natCast, ← Nat.cast_add, hrec]
      · simp [myWriteLoop, printLoop, hb, Writer.write, hrun]

theorem myWrite_eq (w : Writer) (buffer : Bytes) :
    ((myWrite w buffer).1 = -1 ↔ (printStr w buffer).1 ≠ 0) ∧
      (myWrite w buffer).2 = (printStr w buffer).2 := by
  have h : myWrite w buffer = _ := myWriteLoop_eq buffer.length w buffer 0 (Nat.le_refl _)
  rw [h]
  refine ⟨?_, rfl⟩
  show (if (printStr w buffer).1 = 0 then _ else _) = (-1 : Int) ↔ _
  split
  · next h0 => exact iff_of_false (by omega) (not_not_intro h0)
  · next h0 => exact iff_of_true rfl h0

/-- Whatever it gives, `print_str` has written its string unless a `write` has failed. -/
theorem wrote_printStr (w : Writer) (str : Bytes) : Wrote w (some str) (printStr w str).2 := by
  obtain ⟨w', ⟨hrun, hts, hwritten⟩ | ⟨hrun, hf⟩⟩ := printStr_cases w str
  · rw [hrun]
    exact ⟨hts, fun _ => ⟨str, rfl, hwritten⟩⟩
  · rw [hrun]
    exact .of_failed hf.1

/-! ## Several buffers -/

/-- `my_write` of one buffer after the other, until one fails; did they all succeed? -/
def sendAll (w : Writer) : List Bytes → Bool × Writer
  | [] => (true, w)
  | buffer :: rest =>
    match myWrite w buffer with
    | (n, w') => if n = -1 then (false, w') else sendAll w' rest

theorem sendAll_cons (w : Writer) (buffer : Bytes) (rest : List Bytes) :
    sendAll w (buffer :: rest) =
      if (myWrite w buffer).1 = -1 then (false, (myWrite w buffer).2)
      else sendAll (myWrite w buffer).2 rest := rfl

/-- `my_write` writes a part of its buffer, and all of it if it succeeds. -/
theorem myWrite_written (w : Writer) (buffer : Bytes) :
    (myWrite w buffer).2.written <+: w.written ++ buffer ∧
      ((myWrite w buffer).1 ≠ -1 → (myWrite w buffer).2.written = w.written ++ buffer) := by
  obtain ⟨hret, hw⟩ := myWrite_eq w buffer
  rw [hw]
  obtain ⟨w', ⟨hrun, -, hwritten⟩ | ⟨hrun, -, k, -, hwritten⟩⟩ := printStr_cases w buffer
  · rw [hrun]
    exact ⟨hwritten ▸ List.prefix_refl _, fun _ => hwritten⟩
  · rw [hrun, hwritten]
    refine ⟨(List.prefix_append_right_inj _).2 (List.take_prefix k buffer), fun hne => ?_⟩
    have hcode : (printStr w buffer).1 ≠ 0 := by
      rw [hrun]
      exact (by decide : (1 : Int32) ≠ 0)
    exact absurd (hret.2 hcode) hne

theorem sendAll_written : ∀ (bufs : List Bytes) (w : Writer),
    (sendAll w bufs).2.written <+: w.written ++ bufs.flatten ∧
      ((sendAll w bufs).1 = true → (sendAll w bufs).2.written = w.written ++ bufs.flatten)
  | [], w => by simp [sendAll]
  | buffer :: rest, w => by
      obtain ⟨hpart, hall⟩ := myWrite_written w buffer
      rw [sendAll_cons, List.flatten_cons, ← List.append_assoc]
      by_cases hret : (myWrite w buffer).1 = -1
      · rw [if_pos hret]
        exact ⟨hpart.trans (List.prefix_append _ _), fun h => nomatch h⟩
      · rw [if_neg hret, ← hall hret]
        exact sendAll_written rest _

/-- Where nothing disturbs the writes they succeed. -/
theorem sendAll_calm : ∀ (bufs : List Bytes) {w : Writer}, Calm w.turns → (sendAll w bufs).1 = true
  | [], _, _ => rfl
  | buffer :: rest, w, h => by
      obtain ⟨ts, hts, -, hwrite⟩ := myWrite_calm h buffer
      rw [sendAll_cons, hwrite, if_neg (by dsimp only; omega)]
      exact sendAll_calm rest hts

/-- Whether a `write` succeeds and what it leaves of the turns depends on the length of the buffer
    only. -/
theorem Writer.writeTurns_congr {buffer buffer' : Bytes} (hlen : buffer.length = buffer'.length) :
    ∀ (ts : List Turn) (w w' : Writer), (w.writeTurns buffer ts).1 = (w'.writeTurns buffer' ts).1 ∧
      (w.writeTurns buffer ts).2.turns = (w'.writeTurns buffer' ts).2.turns
  | [], w, w' => ⟨by rw [writeTurns, writeTurns, hlen], rfl⟩
  | .go n :: ts, w, w' => ⟨by simp only [writeTurns, List.length_take, hlen], rfl⟩
  | .eintr :: ts, w, w' => ⟨rfl, rfl⟩
  | .fail :: ts, w, w' => ⟨rfl, rfl⟩
  | .signal :: ts, w, w' => writeTurns_congr hlen ts w w'

theorem myWriteLoop_congr : ∀ (fuel : Nat) (w w' : Writer) (buffer buffer' : Bytes) (done : Int),
    buffer.length = buffer'.length → w.turns = w'.turns →
    (myWriteLoop fuel w buffer done).1 = (myWriteLoop fuel w' buffer' done).1 ∧
      (myWriteLoop fuel w buffer done).2.turns = (myWriteLoop fuel w' buffer' done).2.turns
  | 0, w, w', buffer, buffer', done, _, hts => ⟨rfl, hts⟩
  | fuel + 1, w, w', buffer, buffer', done, hlen, hts => by
      have hnil : buffer = [] ↔ buffer' = [] := by
        rw [← List.length_eq_zero_iff, hlen, List.length_eq_zero_iff]
      obtain ⟨hret, hturns⟩ := Writer.writeTurns_congr hlen w.turns w w'
      rw [myWriteLoop, myWriteLoop, Writer.write, Writer.write, ← hts]
      by_cases hb : buffer = []
      · rw [if_pos hb, if_pos (hnil.1 hb)]
        exact ⟨rfl, hts⟩
      · rw [if_neg hb, if_neg fun h => hb (hnil.2 h)]
        dsimp only
        rw [← hret]
        split
        · exact ⟨rfl, hturns⟩
        · exact myWriteLoop_congr fuel _ _ _ _ _ (by simp [hlen]) hturns

theorem myWrite_congr {w w' : Writer} {buffer buffer' : Bytes}
    (hlen : buffer.length = buffer'.length) (hts : w.turns = w'.turns) :
    (myWrite w buffer).1 = (myWrite w' buffer').1 ∧
      (myWrite w buffer).2.turns = (myWrite w' buffer').2.turns := by
  rw [myWrite, myWrite, hlen]
  exact myWriteLoop_congr _ w w' buffer buffer' 0 hlen hts

/-- The lengths of the buffers decide whether all of them are written. -/
theorem sendAll_congr : ∀ {bufs bufs' : List Bytes} {w w' : Writer},
    bufs.map List.length = bufs'.map List.length → w.turns = w'.turns →
      (sendAll w bufs).1 = (sendAll w' bufs').1
  | [], [], _, _, _, _ => rfl
  | buffer :: rest, buffer' :: rest', w, w', hlen, hts => by
      obtain ⟨hlen, hrest⟩ := List.cons.inj hlen
      obtain ⟨hret, hturns⟩ := myWrite_congr hlen hts
      rw [sendAll_cons, sendAll_cons, ← hret]
      split
      · rfl
      · exact sendAll_congr hrest hturns

end EventServer
