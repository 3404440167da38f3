import EventServer.Client.Lines

/-
  The client reads its job file to the end.

  The commands are read with a buffer that is large enough for the numbers of the file
  (`LargeEnough`); with the one of 16 bytes this is `commandLoop` (`commandLoopWith_eq`,
  `parseUintIn_eq`). Every iteration reads up to the end of a piece (`PieceRead`), in whichever of
  its branches: by `cleanup`, by a field that ends with the line, or at the end of the file. So the
  pieces that are left bound the iterations that are still to come.
-/

namespace EventServer.Client

open Lib

/-- What has been read of `bs` when `rest` is left ends with a newline or a NUL, or with the
    file. -/
def PieceRead (bs rest : Bytes) : Prop :=
  rest = [] ∨ ∃ pre, ∃ ch ∈ lineEnds, bs = pre ++ ch :: rest

/-- The number of pieces of a file. -/
def pieceCount (bs : Bytes) : Nat := (pieces (· ∈ lineEnds) bs).length

namespace PieceRead

theorem of_end {ch : UInt8} (hch : ch ∈ lineEnds) (rest : Bytes) : PieceRead (ch :: rest) rest :=
  Or.inr ⟨[], ch, hch, rfl⟩

/-- Something may have been read before. -/
theorem of_suffix {bs bs' rest : Bytes} (h : PieceRead bs' rest) (hsuf : bs' <:+ bs) :
    PieceRead bs rest := by
  obtain rfl | ⟨pre, ch, hch, rfl⟩ := h
  · exact Or.inl rfl
  · obtain ⟨pre', rfl⟩ := hsuf
    exact Or.inr ⟨pre' ++ pre, ch, hch, (List.append_assoc ..).symm⟩

/-- `cleanup` reads up to the newline. -/
theorem of_skipLine (bs : Bytes) : PieceRead bs (skipLine bs) := by
  induction bs with
  | nil => exact Or.inl rfl
  | cons ch bs ih =>
    rw [skipLine]
    split
    · next hch => exact of_end (mem_lineEnds.2 (Or.inl hch)) bs
    · exact ih.of_suffix (List.suffix_cons ch bs)

theorem skipLine_of_suffix {bs bs' : Bytes} (hsuf : bs' <:+ bs) : PieceRead bs (skipLine bs') :=
  (of_skipLine bs').of_suffix hsuf

theorem suffix {bs rest : Bytes} (h : PieceRead bs rest) : rest <:+ bs := by
  obtain rfl | ⟨pre, ch, -, rfl⟩ := h
  · exact List.nil_suffix
  · exact suffix_behind pre ch rest

/-- A piece less is left. -/
theorem pieceCount_lt {bs rest : Bytes} (h : PieceRead bs rest) (hbs : bs ≠ []) :
    pieceCount rest < pieceCount bs := by
  obtain rfl | ⟨pre, ch, hch, rfl⟩ := h
  · exact length_pieces_pos hbs
  · exact length_pieces_append hch rest

end PieceRead

section

variable {size : Nat} {stack : Nat → Buffer size}

/-- A format that is done with the line reads up to the end of a piece. -/
theorem Format.runWith_piece {α : Type} {f : Format α} (hf : f.Lined) {bs : Bytes}
    (h : LargeEnough stack bs) :
    ∃ a rest, (f.runWith (parseUintIn stack)).run bs = .ok (a, rest) ∧ PieceRead bs rest := by
  induction f generalizing bs with
  | done a => exact hf.elim
  | reject a => exact ⟨a, skipLine bs, rfl, .of_skipLine bs⟩
  | uint ends failed next ih =>
    obtain ⟨v, ch, rest, hrun, hread⟩ := h.parseUint
    have hsuf : rest <:+ bs := by
      obtain ⟨ds, rfl⟩ | rfl := hread
      · exact suffix_behind ds ch rest
      · exact List.nil_suffix
    rw [runWith_uint, hrun]
    cases v with
    | none => exact ⟨failed none, skipLine rest, rfl, .skipLine_of_suffix hsuf⟩
    | some v =>
      by_cases hin : ch ∈ ends
      · have hnext := hf v ch hin
        simp only [hin, if_true]
        split at hnext
        · next hend =>
          -- the byte behind the number ends the line, or the file has ended
          obtain ⟨a, hdone⟩ := hnext
          refine ⟨a, rest, by rw [hdone]; rfl, ?_⟩
          obtain ⟨ds, rfl⟩ | rfl := hread
          · exact Or.inr ⟨ds, ch, hend, rfl⟩
          · exact Or.inl rfl
        · obtain ⟨a, rest', hnextRun, hpiece⟩ := ih v ch hnext (h.of_suffix hsuf)
          exact ⟨a, rest', hnextRun, hpiece.of_suffix hsuf⟩
      · simp only [hin, if_false]
        exact ⟨failed (some v), skipLine rest, rfl, .skipLine_of_suffix hsuf⟩
  | char ok failed next ih =>
    cases bs with
    | nil => exact ⟨failed, [], runWith_char_nil, Or.inl rfl⟩
    | cons ch bs =>
      rw [runWith_char_cons]
      by_cases hin : ch ∈ ok
      · have hnext := hf ch hin
        simp only [hin, if_true]
        split at hnext
        · next hend =>
          obtain ⟨a, hdone⟩ := hnext
          exact ⟨a, bs, by rw [hdone]; rfl, .of_end hend bs⟩
        · obtain ⟨a, rest, hnextRun, hpiece⟩ := ih ch hnext (h.of_suffix (List.suffix_cons ch bs))
          exact ⟨a, rest, hnextRun, hpiece.of_suffix (List.suffix_cons ch bs)⟩
      · simp only [hin, if_false]
        exact ⟨failed, skipLine bs, rfl, .skipLine_of_suffix (List.suffix_cons ch bs)⟩

theorem PieceRead.of_endLine (d : Directive) (bs : Bytes) : PieceRead bs (endLine d bs).2 := by
  cases bs with
  | nil => exact Or.inl rfl
  | cons ch bs =>
    rw [endLine]
    split
    · next hch => exact .of_end (mem_lineEnds.2 (Or.inl hch)) bs
    · exact .skipLine_of_suffix (List.suffix_cons ch bs)

/-- An iteration that starts in front of a byte reads up to the end of a piece. -/
theorem nextDirectiveWith_piece {ch : UInt8} {bs : Bytes} (h : LargeEnough stack (ch :: bs)) :
    ∃ d rest, (nextDirectiveWith (parseUintIn stack)).run (ch :: bs) = .ok (d, rest) ∧ d ≠ .eoc ∧
      PieceRead (ch :: bs) rest := by
  have hsuf : bs <:+ ch :: bs := List.suffix_cons ch bs
  have hdrop : ∀ n, bs.drop n <:+ ch :: bs := fun n => (List.drop_suffix n bs).trans hsuf
  suffices hshape : ∃ d rest, (shapeOf ch).runWith (parseUintIn stack) bs = .ok (d, rest) ∧
      PieceRead (ch :: bs) rest by
    obtain ⟨d, rest, hrun, hpiece⟩ := hshape
    exact ⟨d, rest, by rw [nextDirectiveWith_cons, hrun], shapeOf_runWith_ne_eoc hrun, hpiece⟩
  have hsound := shapeOf_sound ch
  cases hs : shapeOf ch with
  | operands word f =>
    rw [hs] at hsound
    rw [Shape.runWith]
    split
    · obtain ⟨d, rest, hrun, hpiece⟩ :=
        f.runWith_piece hsound.2.1 (h.of_suffix (hdrop word.length))
      exact ⟨d, rest, hrun, hpiece.of_suffix (hdrop word.length)⟩
    · exact ⟨.invalid, _, rfl, .skipLine_of_suffix (hdrop word.length)⟩
  | whole word d =>
    rw [Shape.runWith]
    split
    · exact ⟨_, _, rfl, (PieceRead.of_endLine d _).of_suffix (hdrop word.length)⟩
    · exact ⟨.invalid, _, rfl, .skipLine_of_suffix (hdrop word.length)⟩
  | skipped d => exact ⟨d, _, rfl, .skipLine_of_suffix hsuf⟩
  | blank =>
    exact ⟨.empty, bs, rfl, .of_end (mem_lineEnds.2 (Or.inl (shapeOf_eq_blank hs))) bs⟩

theorem Directive.length_calls_le (d : Directive) : d.calls.length ≤ 1 := by
  cases d with
  | call c => exact Nat.le_refl 1
  | _ => exact Nat.zero_le 1

theorem length_flatMap_calls_le (ds : List Directive) :
    (ds.flatMap Directive.calls).length ≤ ds.length := by
  induction ds with
  | nil => exact Nat.le_refl _
  | cons d ds ih =>
    have := d.length_calls_le
    rw [List.flatMap_cons, List.length_append, List.length_cons]
    omega

/-- The loop reads the file to the end, in an iteration for each piece and one more. -/
theorem commandLoopWith_finishes {k : Nat} {bs : Bytes} (h : LargeEnough stack bs)
    (hk : pieceCount bs ≤ k) :
    ∃ ds, (commandLoopWith (parseUintIn stack) (k + 1)).run bs = .ok (ds, []) ∧
      ds.length ≤ pieceCount bs := by
  induction k generalizing bs with
  | zero =>
    obtain rfl : bs = [] := by
      by_contra hne
      exact absurd (length_pieces_pos (p := (· ∈ lineEnds)) hne) (Nat.not_lt.2 hk)
    exact ⟨[], rfl, Nat.zero_le _⟩
  | succ k ih =>
    cases bs with
    | nil => exact ⟨[], rfl, Nat.zero_le _⟩
    | cons ch bs =>
      obtain ⟨d, rest, hrun, hd, hpiece⟩ := nextDirectiveWith_piece h
      have hlt := hpiece.pieceCount_lt (List.cons_ne_nil ch bs)
      obtain ⟨ds, hloop, hlen⟩ := ih (h.of_suffix hpiece.suffix) (by omega)
      refine ⟨d :: ds, ?_, by rw [List.length_cons]; omega⟩
      rw [commandLoopWith, StateT.run_bind, hrun]
      cases d with
      | eoc => exact absurd rfl hd
      | _ =>
        show (commandLoopWith (parseUintIn stack) (k + 1) >>= fun ds => pure (_ :: ds)).run rest = _
        rw [StateT.run_bind, hloop]
        rfl

theorem pieceCount_le (bs : Bytes) : pieceCount bs ≤ bs.countP (· ∈ lineEnds) + 1 :=
  length_pieces_le bs

/-- **The client finishes its job file.** -/
theorem jobFile_finishes {file : Bytes} (h : LargeEnough stack file) :
    (∃ ds, (commandLoopWith (parseUintIn stack) (file.countP (· ∈ lineEnds) + 2)).run file =
        .ok (ds, []) ∧
      (ds.flatMap Directive.calls).length ≤ pieceCount file) ∧
    ∀ bs, bs <:+ file → ∃ d rest, (nextDirectiveWith (parseUintIn stack)).run bs = .ok (d, rest) ∧
      (d = .eoc ↔ bs = []) ∧ d.calls.length ≤ 1 ∧ (d ≠ .eoc → PieceRead bs rest) := by
  constructor
  · obtain ⟨ds, hrun, hlen⟩ := commandLoopWith_finishes h (pieceCount_le file)
    exact ⟨ds, hrun, (length_flatMap_calls_le ds).trans hlen⟩
  · intro bs hsuf
    cases bs with
    | nil => exact ⟨.eoc, [], rfl, iff_of_true rfl rfl, Nat.zero_le _, fun _ => Or.inl rfl⟩
    | cons ch bs =>
      obtain ⟨d, rest, hrun, hd, hpiece⟩ := nextDirectiveWith_piece (h.of_suffix hsuf)
      exact ⟨d, rest, hrun, iff_of_false hd (List.cons_ne_nil ch bs), d.length_calls_le,
        fun _ => hpiece⟩

/-- A NUL where a number should end, and a last line without an end. -/
theorem jobFile_finishes_sample :
    (∃ ds, (commandLoopWith (parseUintIn fun _ => .zero 12) 3).run (ascii "SHOW 1\x00LIST") =
        .ok (ds, []) ∧
      (ds.flatMap Directive.calls).length ≤ 2) ∧
    ∀ bs, bs <:+ ascii "SHOW 1\x00LIST" → ∃ d rest,
      (nextDirectiveWith (parseUintIn fun _ => .zero 12)).run bs = .ok (d, rest) ∧
      (d = .eoc ↔ bs = []) ∧ d.calls.length ≤ 1 ∧ (d ≠ .eoc → PieceRead bs rest) := by
  have hn : (ascii "SHOW 1\x00LIST").countP (· ∈ lineEnds) = 1 := by decide
  have hpieces : pieceCount (ascii "SHOW 1\x00LIST") = 2 := by decide
  have h := jobFile_finishes (largeEnough_zero (ascii "SHOW 1\x00LIST"))
  rwa [hn, hpieces] at h

end

/-- The loop of `main`, when its 16 bytes are enough for the numbers of the file. -/
theorem commandLoop_finishes {stack : Stack} {file : Bytes} (h : LargeEnough stack file) :
    ∃ ds, (commandLoop stack (pieceCount file + 1)).run file = .ok (ds, []) ∧
      ds.length ≤ pieceCount file := by
  rw [← commandLoopWith_eq, ← parseUintIn_eq]
  exact commandLoopWith_finishes h (Nat.le_refl _)

end EventServer.Client
