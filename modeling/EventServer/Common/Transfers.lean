import EventServer.Common.Io

/-
  `my_read` and `my_write` under any schedule.

  A schedule is what the environment does at the system calls of a transfer: partial transfers,
  interruptions by a signal (`EINTR`), other errors. `ComesTo t size ts` says that the schedule
  `ts` has the turn `t` before `size` bytes are through. Both loops go on after a partial
  transfer and give up at the first interruption, so they transfer everything if and only if
  none comes before the last byte (`transfers_iff`).
-/

namespace EventServer

/-- The most that the call of a turn transfers. -/
def Turn.most : Turn → Nat
  | .go n => n + 1
  | _ => 0

/-- The turn `t` comes while some of `size` bytes are still to be transferred. -/
def ComesTo (t : Turn) : Nat → List Turn → Prop
  | _, [] => False
  | size, u :: ts => 0 < size ∧ u = t ∨ ComesTo t (size - u.most) ts

instance (t : Turn) : ∀ (size : Nat) (ts : List Turn), Decidable (ComesTo t size ts)
  | _, [] => inferInstanceAs (Decidable False)
  | size, u :: ts =>
    have := instDecidableComesTo t (size - u.most) ts
    inferInstanceAs (Decidable (0 < size ∧ u = t ∨ ComesTo t (size - u.most) ts))

/-- `my_read` returns `size` and has stored the next `size` bytes of the stream, which goes on
    behind them. -/
structure ReadsAll (r : Reader) (size : UInt64) : Prop where
  ret : (myRead r size).ret = some (size.toNat : Int)
  stored : (myRead r size).stored = r.bytes.take size.toNat
  rest : (myRead r size).reader.bytes = r.bytes.drop size.toNat

/-- `my_write` returns the size of its buffer and has written all of it behind what was there. -/
structure WritesAll (w : Writer) (buffer : Bytes) : Prop where
  ret : (myWrite w buffer).1 = buffer.length
  written : (myWrite w buffer).2.written = w.written ++ buffer

/-! ## One call -/

section Call

variable {t : Turn} {size : Nat} {ts : List Turn}

theorem comesTo_zero (ht : t = .eintr ∨ t = .fail) : ∀ ts, ¬ ComesTo t 0 ts
  | [] => id
  | u :: ts => by
      rw [ComesTo, Nat.zero_sub, not_or]
      exact ⟨fun h => absurd h.1 (Nat.lt_irrefl 0), comesTo_zero ht ts⟩

/-- A partial transfer uses up its turn. -/
theorem comesTo_go (ht : t = .eintr ∨ t = .fail) (n : Nat) :
    ComesTo t size (.go n :: ts) ↔ ComesTo t (size - min size (n + 1)) ts := by
  have hne : Turn.go n ≠ t := by
    rintro rfl
    simp at ht
  have hleft : size - min size (n + 1) = size - (n + 1) := by omega
  rw [ComesTo, hleft]
  exact or_iff_right fun h => hne h.2

theorem comesTo_signal (ht : t = .eintr ∨ t = .fail) :
    ComesTo t size (.signal :: ts) ↔ ComesTo t size ts := by
  have hne : Turn.signal ≠ t := by
    rintro rfl
    simp at ht
  rw [ComesTo]
  exact or_iff_right fun h => hne h.2

/-- What is left of a schedule after a call that has transferred `j` of `size` bytes. -/
def Remains (size j : Nat) (ts ts' : List Turn) : Prop :=
  ∀ t, t = .eintr ∨ t = .fail → (ComesTo t size ts ↔ ComesTo t (size - j) ts')

/-- One `read` of all that is wanted, on a stream that has it. -/
theorem Reader.readTurns_schedule (hsize : 0 < size) : ∀ (ts : List Turn) (r : Reader),
    size ≤ r.bytes.length →
    (∃ j ts' flag, 0 < j ∧ j ≤ size ∧ Remains size j ts ts' ∧ r.readTurns size ts =
      (.data (r.bytes.take j),
        { r with bytes := r.bytes.drop j, turns := ts', printFlag := flag })) ∨
    (ComesTo .eintr size ts ∧ ∃ r', r.readTurns size ts = (.eintr, r')) ∨
    (ComesTo .fail size ts ∧ ∃ r', r.readTurns size ts = (.error, r'))
  | [], r, hlen => by
      have hne : r.bytes ≠ [] := List.ne_nil_of_length_pos (by omega)
      refine Or.inl ⟨size, [], r.printFlag, hsize, Nat.le_refl _, fun t _ => Iff.rfl, ?_⟩
      simp [readTurns, deliver, hne]
  | .go n :: ts, r, hlen => by
      have hne : r.bytes ≠ [] := List.ne_nil_of_length_pos (by omega)
      refine Or.inl ⟨min size (n + 1), ts, r.printFlag, by omega, Nat.min_le_left _ _,
        fun t ht => comesTo_go ht n, ?_⟩
      simp [readTurns, deliver, hne]
  | .eintr :: ts, r, hlen => Or.inr (Or.inl ⟨Or.inl ⟨hsize, rfl⟩, _, rfl⟩)
  | .fail :: ts, r, hlen => Or.inr (Or.inr ⟨Or.inl ⟨hsize, rfl⟩, _, rfl⟩)
  | .signal :: ts, r, hlen => by
      have hrec := readTurns_schedule hsize ts
        { r with printFlag := sigusr1Handler SIGUSR1 r.printFlag } hlen
      refine hrec.imp ?_ (Or.imp ?_ ?_)
      · rintro ⟨j, ts', flag, hj, hle, hrem, hrun⟩
        exact ⟨j, ts', flag, hj, hle, fun t ht => (comesTo_signal ht).trans (hrem t ht), hrun⟩
      · rintro ⟨hm, hrun⟩
        exact ⟨(comesTo_signal (Or.inl rfl)).2 hm, hrun⟩
      · rintro ⟨hm, hrun⟩
        exact ⟨(comesTo_signal (Or.inr rfl)).2 hm, hrun⟩

/-- One `write` of a buffer. -/
theorem Writer.writeTurns_schedule {buffer : Bytes} (hb : buffer ≠ []) (w : Writer) :
    ∀ ts : List Turn,
    (∃ j ts', 0 < j ∧ j ≤ buffer.length ∧ Remains buffer.length j ts ts' ∧
      w.writeTurns buffer ts =
        ((j : Int), { written := w.written ++ buffer.take j, turns := ts' })) ∨
    ((ComesTo .eintr buffer.length ts ∨ ComesTo .fail buffer.length ts) ∧
      ∃ w', w.writeTurns buffer ts = (-1, w'))
  | [] => by
      refine Or.inl ⟨buffer.length, [], List.length_pos_iff.2 hb, Nat.le_refl _,
        fun t _ => Iff.rfl, ?_⟩
      rw [writeTurns, List.take_length]
  | .go n :: ts => by
      have hpos := List.length_pos_iff.2 hb
      refine Or.inl ⟨min buffer.length (n + 1), ts, by omega, Nat.min_le_left _ _,
        fun t ht => comesTo_go ht n, ?_⟩
      have htake : buffer.take (n + 1) = buffer.take (min buffer.length (n + 1)) := by
        rw [Nat.min_comm]
        exact List.take_eq_take_min
      rw [writeTurns, List.length_take, Nat.min_comm, ← htake]
  | .eintr :: ts => Or.inr ⟨Or.inl (Or.inl ⟨List.length_pos_iff.2 hb, rfl⟩), _, rfl⟩
  | .fail :: ts => Or.inr ⟨Or.inr (Or.inl ⟨List.length_pos_iff.2 hb, rfl⟩), _, rfl⟩
  | .signal :: ts => by
      refine (writeTurns_schedule hb w ts).imp ?_ ?_
      · rintro ⟨j, ts', hj, hle, hrem, hrun⟩
        exact ⟨j, ts', hj, hle, fun t ht => (comesTo_signal ht).trans (hrem t ht), hrun⟩
      · rintro ⟨hm, hrun⟩
        exact ⟨hm.imp (comesTo_signal (Or.inl rfl)).2 (comesTo_signal (Or.inr rfl)).2, hrun⟩

end Call

/-! ## The loops -/

/-- `my_read` from where it has stored `done`: it gets the rest of `new_size` bytes, or it gives up
    because of an interruption. -/
theorem myReadLoop_schedule (new_size : Nat) : ∀ (fuel : Nat) (r : Reader) (done : Bytes),
    done.length ≤ new_size → new_size ≤ done.length + fuel →
    new_size - done.length ≤ r.bytes.length →
    ¬ ComesTo .fail (new_size - done.length) r.turns →
    (¬ ComesTo .eintr (new_size - done.length) r.turns ∧ ∃ ts flag,
      myReadLoop new_size fuel r done =
        ⟨some new_size, done ++ r.bytes.take (new_size - done.length), { r with
          bytes := r.bytes.drop (new_size - done.length), turns := ts, printFlag := flag }⟩) ∨
    (ComesTo .eintr (new_size - done.length) r.turns ∧
      (myReadLoop new_size fuel r done).ret = some (-2))
  | 0, r, done, hle, hfuel, _, _ => by
      obtain rfl : new_size = done.length := by omega
      rw [Nat.sub_self]
      exact Or.inl ⟨comesTo_zero (Or.inl rfl) _, r.turns, r.printFlag, by simp [myReadLoop]⟩
  | fuel + 1, r, done, hle, hfuel, hlen, hfail => by
      by_cases hlt : done.length < new_size
      · obtain ⟨j, ts, flag, hj, hjle, hrem, hread⟩ | ⟨hm, r', hread⟩ | ⟨hm, -⟩ :=
          Reader.readTurns_schedule (show 0 < new_size - done.length by omega) r.turns r hlen
        · have hread' : r.read (new_size - done.length) = _ := hread
          have hne : r.bytes.take j ≠ [] := by
            refine List.ne_nil_of_length_pos ?_
            rw [List.length_take]
            omega
          have hdone : (done ++ r.bytes.take j).length = done.length + j := by
            rw [List.length_append, List.length_take]
            omega
          have hleft : new_size - (done ++ r.bytes.take j).length = new_size - done.length - j := by
            omega
          have hrec := myReadLoop_schedule new_size fuel
            { r with bytes := r.bytes.drop j, turns := ts, printFlag := flag }
            (done ++ r.bytes.take j) (by omega) (by omega) (by rw [hleft, List.length_drop]; omega)
            (by rw [hleft]; exact fun h => hfail ((hrem _ (Or.inr rfl)).2 h))
          rw [hleft] at hrec
          have hsplit : r.bytes.take (new_size - done.length) =
              r.bytes.take j ++ (r.bytes.drop j).take (new_size - done.length - j) := by
            rw [← List.take_add, Nat.add_sub_cancel' hjle]
          rw [hrem _ (Or.inl rfl)]
          simp only [myReadLoop, if_pos hlt, hread', if_neg hne]
          refine hrec.imp_left ?_
          rintro ⟨hm, ts', flag', hrun⟩
          refine ⟨hm, ts', flag', ?_⟩
          simp only [hrun, hsplit, List.append_assoc, List.drop_drop, Nat.add_sub_cancel' hjle]
        · have hread' : r.read (new_size - done.length) = _ := hread
          exact Or.inr ⟨hm, by simp [myReadLoop, hlt, hread']⟩
        · exact absurd hm hfail
      · obtain rfl : new_size = done.length := by omega
        rw [Nat.sub_self]
        exact Or.inl ⟨comesTo_zero (Or.inl rfl) _, r.turns, r.printFlag, by simp [myReadLoop]⟩

/-- `my_write` of what is left of its buffer. -/
theorem myWriteLoop_schedule : ∀ (fuel : Nat) (w : Writer) (buffer : Bytes) (done : Nat),
    buffer.length ≤ fuel → ¬ ComesTo .fail buffer.length w.turns →
    (¬ ComesTo .eintr buffer.length w.turns ∧ ∃ ts, myWriteLoop fuel w buffer done =
      (((done + buffer.length : Nat) : Int), { written := w.written ++ buffer, turns := ts })) ∨
    (ComesTo .eintr buffer.length w.turns ∧ (myWriteLoop fuel w buffer done).1 = -1)
  | 0, w, buffer, done, hle, _ => by
      obtain rfl : buffer = [] := List.eq_nil_of_length_eq_zero (by omega)
      exact Or.inl ⟨comesTo_zero (Or.inl rfl) _, w.turns, by simp [myWriteLoop]⟩
  | fuel + 1, w, buffer, done, hle, hfail => by
      by_cases hb : buffer = []
      · subst hb
        exact Or.inl ⟨comesTo_zero (Or.inl rfl) _, w.turns, by simp [myWriteLoop]⟩
      · obtain ⟨j, ts, hj, hjle, hrem, hwrite⟩ | ⟨hm, w', hwrite⟩ :=
          Writer.writeTurns_schedule hb w w.turns
        · have hwrite' : w.write buffer = _ := hwrite
          have hnn : ¬ ((j : Int) < 0) := by omega
          have hleft : (buffer.drop j).length = buffer.length - j := List.length_drop
          have hrec := myWriteLoop_schedule fuel
            { written := w.written ++ buffer.take j, turns := ts } (buffer.drop j) (done + j)
            (by omega) (by rw [hleft]; exact fun h => hfail ((hrem _ (Or.inr rfl)).2 h))
          rw [hleft] at hrec
          rw [hrem _ (Or.inl rfl)]
          have hsum : done + j + (buffer.length - j) = done + buffer.length := by omega
          simp only [myWriteLoop, if_neg hb, hwrite', if_neg hnn, Int.toNat_natCast, ← Nat.cast_add]
          refine hrec.imp_left ?_
          rintro ⟨hm, ts', hrun⟩
          refine ⟨hm, ts', ?_⟩
          simpa only [hsum, List.append_assoc, List.take_append_drop] using hrun
        · have hwrite' : w.write buffer = _ := hwrite
          exact Or.inr ⟨hm.resolve_right hfail, by simp [myWriteLoop, hb, hwrite']⟩

/-! ## Both directions of a pipe -/

/-- **A transfer without other errors is complete if and only if no interruption comes before its
    last byte**, however the calls split it. -/
theorem transfers_iff {r : Reader} {size : UInt64} {w : Writer} {buffer : Bytes}
    (hsize : size.toNat < 2 ^ 63) (hlen : size.toNat ≤ r.bytes.length)
    (hr : ¬ ComesTo .fail size.toNat r.turns) (hw : ¬ ComesTo .fail buffer.length w.turns) :
    (ReadsAll r size ↔ ¬ ComesTo .eintr size.toNat r.turns) ∧
      (WritesAll w buffer ↔ ¬ ComesTo .eintr buffer.length w.turns) := by
  have hnew : (ssize size).toNat = size.toNat := by rw [ssize, if_pos hsize, Int.toNat_natCast]
  have hread : myRead r size = myReadLoop size.toNat size.toNat r [] := by rw [myRead, hnew]
  constructor
  · have hloop := myReadLoop_schedule size.toNat size.toNat r [] (Nat.zero_le _) (by simp)
      (by simpa using hlen) (by simpa using hr)
    simp only [List.length_nil, Nat.sub_zero, List.nil_append, ← hread] at hloop
    obtain ⟨hm, ts, flag, hrun⟩ | ⟨hm, hret⟩ := hloop
    · exact iff_of_true ⟨by rw [hrun], by rw [hrun], by rw [hrun]⟩ hm
    · refine iff_of_false (fun h => ?_) (not_not_intro hm)
      have := h.ret.symm.trans hret
      simp at this
  · have hloop := myWriteLoop_schedule buffer.length w buffer 0 (Nat.le_refl _) hw
    rw [Nat.zero_add] at hloop
    obtain ⟨hm, ts, hrun⟩ | ⟨hm, hret⟩ := hloop
    · have hrun' : myWrite w buffer = _ := hrun
      exact iff_of_true ⟨by rw [hrun'], by rw [hrun']⟩ hm
    · have hret' : (myWrite w buffer).1 = -1 := hret
      refine iff_of_false (fun h => ?_) (not_not_intro hm)
      have := h.ret.symm.trans hret'
      omega

/-- Two bytes, one at a time. -/
def twoBytes : Reader := { bytes := [5, 6], turns := [.go 0, .signal, .go 0] }

theorem transfers_iff_sample :
    (ReadsAll twoBytes 2 ↔ ¬ ComesTo .eintr 2 [.go 0, .signal, .go 0]) ∧
      (WritesAll { turns := [.go 0] } [5, 6] ↔ ¬ ComesTo .eintr 2 [.go 0]) :=
  @transfers_iff twoBytes 2 { turns := [.go 0] } [5, 6]
    (by decide) (by decide) (by decide) (by decide)

/-- A signal after the first of two bytes: `my_read` returns -2 and `my_write` -1. -/
theorem not_transfers_interrupted :
    ¬ ReadsAll { twoBytes with turns := [.go 0, .eintr] } 2 ∧
      ¬ WritesAll { turns := [.go 0, .eintr] } [5, 6] := by
  refine ⟨fun h => ?_, fun h => ?_⟩
  · exact absurd h.ret (by decide)
  · exact absurd h.ret (by decide)

end EventServer
