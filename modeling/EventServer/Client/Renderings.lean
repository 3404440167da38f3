import EventServer.Client.Calls
import EventServer.Server.Dump

/-
  The two renderings of an event.

  The client's `ems_show` prints what comes through the pipe, `ems_show_stdout` reads the seats
  in place. Both print the rows in order and the seats of a row in order, in decimal; but the
  client compares the column, counted from 0, with the number of columns, which it never
  reaches, and so prints a space behind the last seat of a row too. The texts agree only where
  there is no last seat (`renderingsAgree_iff`).
-/

namespace EventServer

open Lib Op

variable {m : Mem} {l : Ptr} {es : List Entry} {e : Entry} {id : UInt32} {text : Bytes}

/-- `ems_show_stdout` prints the text, when nothing fails. -/
def PrintsText (m : Mem) (id : UInt32) (text : Bytes) : Prop :=
  ∃ fuel, runOp (emsShowStdout {} fuel id) m = some ((0, text), m)

/-- From what the server's `ems_show` sends, the client's `ems_show` writes the text to its output
    file, when nothing fails. -/
def ShowsText (m : Mem) (id : UInt32) (text : Bytes) : Prop :=
  ∃ bytes, runOp (emsShow {} id) m = some ((0, bytes), m) ∧
    ∀ s : Client.Process Unit, s.Reliable → s.response_pipe.bytes = bytes →
      ∃ s', (Client.Api.emsShow {} (return ()) id.toInt32).run s = .ok (0, s') ∧
        s'.out.written = s.out.written ++ text

def RenderingsAgree (m : Mem) (id : UInt32) : Prop :=
  ∃ text, ShowsText m id text ∧ PrintsText m id text

/-! ## The two texts -/

/-- A separator behind every piece, or between two pieces and behind the last one. -/
theorem flatten_map_append {α : Type} (f : α → Bytes) (sep : Bytes) : ∀ (x : α) (xs : List α),
    ((x :: xs).map fun x => f x ++ sep).flatten = sep.intercalate ((x :: xs).map f) ++ sep
  | x, [] => by simp [List.intercalate]
  | x, y :: xs => by
      rw [List.map_cons, List.flatten_cons, flatten_map_append f sep y xs]
      simp [List.intercalate]

/-- The client has one more space in each row that has a seat. -/
theorem Entry.length_rowText (e : Entry) (row : Nat) :
    (e.rowText row).length = (e.rowDump row).length + if e.ev.cols.toNat = 0 then 0 else 1 := by
  rw [rowText, rowDump, seatsDump]
  cases e.ev.cols.toNat with
  | zero => simp [List.intercalate]
  | succ n =>
    rw [List.range'_succ, flatten_map_append (fun col => decimal (e.seat row col))]
    simp only [List.length_append]
    simp [ascii]

theorem Entry.rowText_eq_rowDump (e : Entry) (hcols : e.ev.cols.toNat = 0) (row : Nat) :
    e.rowText row = e.rowDump row := by
  simp [rowText, rowDump, seatsDump, hcols, List.intercalate]

/-- In every row of the text there is one more space. -/
theorem Entry.length_text (e : Entry) : e.text.length = (e.rowsDump 1 e.ev.rows.toNat).length +
    if e.ev.cols.toNat = 0 then 0 else e.ev.rows.toNat := by
  have hrows : ∀ n row, (((List.range' row n).map e.rowText).flatten).length =
      (e.rowsDump row n).length + n * if e.ev.cols.toNat = 0 then 0 else 1 := by
    intro n
    induction n with
    | zero => intro row; simp [rowsDump]
    | succ n ih =>
      intro row
      rw [List.range'_succ, List.map_cons, List.flatten_cons, List.length_append, ih,
        e.rowsDump_succ, List.length_append, e.length_rowText, Nat.succ_mul]
      omega
  rw [text, hrows]
  split <;> simp

theorem Entry.text_eq_iff (e : Entry) :
    e.text = e.rowsDump 1 e.ev.rows.toNat ↔ e.ev.rows = 0 ∨ e.ev.cols = 0 := by
  have hzero : ∀ n : UInt64, n = 0 ↔ n.toNat = 0 := fun n => by
    rw [← UInt64.toNat_inj, UInt64.toNat_zero]
  rw [hzero, hzero]
  constructor
  · intro h
    have hlen := e.length_text
    rw [h] at hlen
    split at hlen
    · exact Or.inr ‹_›
    · exact Or.inl (by omega)
  · rintro (hrows | hcols)
    · simp [text, rowsDump, hrows]
    · rw [text, rowsDump]
      exact congrArg List.flatten (List.map_congr_left fun row _ => e.rowText_eq_rowDump hcols row)

/-! ## What is printed -/

/-- The client prints `Entry.text`. -/
theorem showsText_text (h : Rep m l es) (hfind : findId es id = some e)
    (hfit : NoWrap e.ev.rows e.ev.cols) : ShowsText m id e.text := by
  obtain ⟨he, -⟩ := findId_eq_some hfind
  refine ⟨showBytes e, by simpa [showReply, hfind] using runOp_emsShow h {} id,
    fun s hs hbytes => ?_⟩
  have hwp : wp (Client.Api.emsShow {} (return ()) id.toInt32)
      (fun code s' => code = 0 ∧ s'.out.written = s.out.written ++ e.text) (fun _ => False) s := by
    refine Client.wp_sendRequest (c := .emsShow id) trivial trivial hs fun s₁ h₁ => ?_
    have hbytes₁ : s₁.response_pipe.bytes = showBytes e := by rw [← hbytes, h₁.got, List.nil_append]
    refine Client.wp_response ⟨h₁.reliable, 0, _, hbytes₁, fun h1 => absurd h1 (by decide),
      fun _ s₂ h₂ => Client.wp_showEvent hfit (h.size e he) hbytes₁ h₂ fun s' h' => ⟨rfl, ?_⟩⟩
    rw [h'.printed, h₁.printed, List.append_nil]
  obtain ⟨code, s', hrun, rfl, hout⟩ := run_of_wp hwp
  exact ⟨s', hrun, hout⟩

/-- A client that nothing fails for. -/
def reliableClient (bytes : Bytes) : Client.Process Unit :=
  { session_id := 0, response_pipe := { bytes }, server := ()
    locals := ⟨.zero 4, .zero 8, .zero 8, .zero 4, .zero 8, .zero 4⟩ }

theorem ShowsText.unique {text' : Bytes} (h : ShowsText m id text) (h' : ShowsText m id text') :
    text = text' := by
  obtain ⟨bytes, hbytes, hshow⟩ := h
  obtain ⟨bytes', hbytes', hshow'⟩ := h'
  obtain rfl : bytes = bytes' := by
    have := hbytes.symm.trans hbytes'
    simpa using this
  have hrel : (reliableClient bytes).Reliable := ⟨calm_nil, calm_nil, calm_nil⟩
  obtain ⟨s, hrun, hout⟩ := hshow (reliableClient bytes) hrel rfl
  obtain ⟨s', hrun', hout'⟩ := hshow' (reliableClient bytes) hrel rfl
  cases hrun.symm.trans hrun'
  exact List.append_cancel_left (hout.symm.trans hout')

/-- `ems_show_stdout` prints `Entry.dump`. -/
theorem printsText_iff (h : Rep m l es) (hfind : findId es id = some e)
    (hfit : NoWrap e.ev.rows e.ev.cols) : PrintsText m id text ↔ e.dump = some text := by
  constructor
  · rintro ⟨fuel, hrun⟩
    obtain ⟨code, w, hret, hshown⟩ := wp_of_runOp (E := fun _ => True) hrun
      (wp_emsShowStdout_shown (w := { mem := m }) h hfind rfl rfl (e.stops_any fuel))
    obtain ⟨t, ht, hwritten⟩ := hshown.wrote.written (Calm.not_failed calm_nil)
    cases hret
    rw [ht, hwritten]
    rfl
  · intro hdump
    have hend : ¬ e.Endless := fun hend => by simp [Entry.dump, hend] at hdump
    obtain rfl : e.rowsDump 1 e.ev.rows.toNat = text := by simpa [Entry.dump, hend] using hdump
    exact ⟨_, runOp_emsShowStdout h hfind hfit hend
      (Nat.lt_succ_of_le (Nat.le_max_left _ e.ev.cols.toNat))
      (Nat.lt_succ_of_le (Nat.le_max_right e.ev.rows.toNat _))⟩

/-- **The two renderings agree only of an event without seats**: if it has no rows, or no columns
    and fewer rows than the loop of `ems_show_stdout` can count. -/
theorem renderingsAgree_iff (h : Rep m l es) (hfind : findId es id = some e)
    (hfit : NoWrap e.ev.rows e.ev.cols) :
    RenderingsAgree m id ↔ e.ev.rows = 0 ∨ e.ev.cols = 0 ∧ e.ev.rows.toNat + 1 ≠ 2 ^ 64 := by
  have hagree : RenderingsAgree m id ↔ ¬ e.Endless ∧ e.text = e.rowsDump 1 e.ev.rows.toNat := by
    constructor
    · rintro ⟨text, hshows, hprints⟩
      obtain rfl := hshows.unique (showsText_text h hfind hfit)
      have hdump := (printsText_iff h hfind hfit).1 hprints
      unfold Entry.dump at hdump
      split at hdump
      · cases hdump
      · next hend => exact ⟨hend, (Option.some.inj hdump).symm⟩
    · rintro ⟨hend, heq⟩
      refine ⟨e.text, showsText_text h hfind hfit, (printsText_iff h hfind hfit).2 ?_⟩
      rw [Entry.dump, if_neg hend, heq]
  rw [hagree, e.text_eq_iff, Entry.Endless]
  constructor
  · rintro ⟨hend, hrows | hcols⟩
    · exact Or.inl hrows
    · exact Or.inr ⟨hcols, fun hmax => hend (Or.inl hmax)⟩
  · rintro (hrows | ⟨hcols, hmax⟩)
    · exact ⟨by simp [hrows], Or.inl hrows⟩
    · refine ⟨?_, Or.inr hcols⟩
      rintro (hrows | ⟨hwide, -⟩)
      · exact hmax hrows
      · simp [hcols] at hwide

/-- An event of three rows without columns. -/
theorem renderingsAgree_iff_empty : ∃ m, runOp (emsCreate {} 7 3 0) freshMem = some ((0, []), m) ∧
    (RenderingsAgree m 7 ↔ (3 : UInt64) = 0 ∨ (0 : UInt64) = 0 ∧ (3 : UInt64).toNat + 1 ≠ 2 ^ 64) := by
  obtain ⟨m, hrun, h⟩ := runOp_emsCreate_first rep_freshMem 7 3 0
  exact ⟨m, hrun, renderingsAgree_iff (e := newEntry freshMem 7 3 0) h rfl (by decide)⟩

/-- An event of one seat: the client prints `0`, a space and a newline. -/
theorem not_renderingsAgree_single :
    ∃ m, runOp (emsCreate {} 7 1 1) freshMem = some ((0, []), m) ∧ ¬ RenderingsAgree m 7 := by
  obtain ⟨m, hrun, h⟩ := runOp_emsCreate_first rep_freshMem 7 1 1
  refine ⟨m, hrun, ?_⟩
  rintro ⟨text, hshows, hprints⟩
  have hfind : findId [newEntry freshMem 7 1 1] 7 = some (newEntry freshMem 7 1 1) := rfl
  obtain rfl := hshows.unique (showsText_text h hfind (by decide))
  have hdump := (printsText_iff h hfind (by decide)).1 hprints
  revert hdump
  decide

end EventServer
