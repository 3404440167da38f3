import EventServer.Client.Outputs
import EventServer.Client.Responses

/-
  What a failing output leaves in the response pipe.

  `ems_show` returns at the first `write` that fails, and `ems_list_events` at the first newline
  that cannot be written, with the rest of the response unread: the next call of the session takes
  it for its own. `drained_iff` says when nothing is left, for a response that is there in full.
-/

namespace EventServer.Client

open Lib

/-- A complete response to a show or a list request, and what the call does behind the fields in
    front of the numbers. -/
inductive Complete : Call → Bytes → List Stage → Prop
  | notShown (id : UInt32) : Complete (.emsShow id) (intBytes 1) []
  | shown (id : UInt32) {result : Int32} (num_rows num_cols : UInt64) {seats : List UInt32}
    (hresult : result ≠ 1) (hseats : seats.length = num_rows.toNat * num_cols.toNat) :
    Complete (.emsShow id)
      (intBytes result ++ (sizeBytes num_rows ++ (sizeBytes num_cols ++ cellsBytes seats)))
      (gridStages num_cols.toNat num_rows.toNat seats)
  | notListed : Complete .emsListEvents (intBytes 1) []
  | noEvents : Complete .emsListEvents (intBytes 2) [.attempt (ascii "No events\n")]
  | listed {result : Int32} {num_events : UInt64} {ids : List UInt32} (h1 : result ≠ 1)
    (h2 : result ≠ 2) (hids : ids.length = num_events.toNat) :
    Complete .emsListEvents (intBytes result ++ (sizeBytes num_events ++ cellsBytes ids))
      (listStages ids)

/-- However the call returns on the output `w`, it leaves what comes behind its response in the pipe
    and nothing of the response. -/
def Drained (c : Call) (response : Bytes) (w : Writer) : Prop :=
  ∀ (pipes : Pipes) (p : Process Unit) (rest : Bytes),
    pipes.openRequest = true → pipes.openResponse = true →
    Calm p.request_pipe.turns → Calm p.response_pipe.turns →
    p.response_pipe.bytes = response ++ rest → p.out = w →
    wp (c.issue pipes (return ())) (fun _ p' => p'.response_pipe.bytes = rest) (fun _ => False) p

/-! ## Complete responses -/

theorem resultOf_append (v : Locals) (result : Int32) (rest : Bytes) :
    resultOf v (intBytes result ++ rest) = result := by
  rw [resultOf, List.take_left' (length_intBytes result),
    overwrite_of_length _ (length_intBytes result), toInt_intBytes]

theorem drop_result (result : Int32) (rest : Bytes) : (intBytes result ++ rest).drop 4 = rest :=
  List.drop_left' (length_intBytes result)

theorem overwrite_sizeBytes (b : Buffer 8) (n : UInt64) (rest : Bytes) :
    toSize (b.overwrite ((sizeBytes n ++ rest).take 8)).bytes = n := by
  rw [List.take_left' (length_sizeBytes n), overwrite_of_length _ (length_sizeBytes n),
    toSize_sizeBytes]

theorem rowsOf_append (v : Locals) (result : Int32) (num_rows : UInt64) (rest : Bytes) :
    rowsOf v (intBytes result ++ (sizeBytes num_rows ++ rest)) = num_rows := by
  rw [rowsOf, drop_result, overwrite_sizeBytes]

theorem eventsOf_append (v : Locals) (result : Int32) (num_events : UInt64) (rest : Bytes) :
    eventsOf v (intBytes result ++ (sizeBytes num_events ++ rest)) = num_events := by
  rw [eventsOf, drop_result, overwrite_sizeBytes]

theorem drop_size (result : Int32) (n : UInt64) (rest : Bytes) :
    (intBytes result ++ (sizeBytes n ++ rest)).drop 12 = rest := by
  rw [← List.append_assoc]
  exact List.drop_left' (by simp)

theorem colsOf_append (v : Locals) (result : Int32) (num_rows num_cols : UInt64) (rest : Bytes) :
    colsOf v (intBytes result ++ (sizeBytes num_rows ++ (sizeBytes num_cols ++ rest))) =
      num_cols := by
  rw [colsOf, drop_size, overwrite_sizeBytes]

theorem drop_sizes (result : Int32) (n n' : UInt64) (rest : Bytes) :
    (intBytes result ++ (sizeBytes n ++ (sizeBytes n' ++ rest))).drop 20 = rest := by
  have hsum : 20 = 12 + 8 := rfl
  rw [hsum, ← List.drop_drop, drop_size]
  exact List.drop_left' (length_sizeBytes n')

/-- The variables have no influence on what a call does with a complete response. -/
theorem Complete.stages_eq {c : Call} {response : Bytes} {ss : List Stage}
    (h : Complete c response ss) (v : Locals) (rest : Bytes) :
    c.Valid ∧ stages c v (response ++ rest) = ss ∧
      headerSize c (resultOf v (response ++ rest)) + 4 * takes ss = response.length := by
  cases h with
  | notShown id =>
    refine ⟨trivial, ?_, ?_⟩
    · rw [stages, resultOf_append, if_pos rfl]
    · rw [resultOf_append]
      rfl
  | @shown id result num_rows num_cols seats hresult hseats =>
    refine ⟨trivial, ?_, ?_⟩
    · simp only [List.append_assoc]
      rw [stages, resultOf_append, if_neg hresult, rowsOf_append, colsOf_append, drop_sizes,
        ← hseats, fields_cellsBytes]
    · rw [List.append_assoc, resultOf_append, headerSize, if_neg hresult,
        takes_gridStages _ _ _ hseats]
      simp only [List.length_append, length_intBytes, length_sizeBytes, length_cellsBytes]
      omega
  | notListed =>
    refine ⟨trivial, ?_, ?_⟩
    · rw [stages, resultOf_append, if_pos rfl]
    · rw [resultOf_append]
      rfl
  | noEvents =>
    refine ⟨trivial, ?_, ?_⟩
    · rw [stages, resultOf_append, if_neg (by decide), if_pos rfl]
    · rw [resultOf_append]
      rfl
  | @listed result num_events ids h1 h2 hids =>
    refine ⟨trivial, ?_, ?_⟩
    · simp only [List.append_assoc]
      rw [stages, resultOf_append, if_neg h1, if_neg h2, eventsOf_append, drop_size, ← hids,
        fields_cellsBytes]
    · rw [List.append_assoc, resultOf_append, headerSize, if_neg fun h12 => h12.elim h1 h2,
        takes_listStages]
      simp only [List.length_append, length_intBytes, length_sizeBytes, length_cellsBytes]
      omega

/-- **What the server answers is complete.** -/
theorem complete_of_answers {m : Mem} {l : Ptr} {es : List Entry} {env : Env} {c : Call}
    {ret : Int32 × Bytes} (hrep : Rep m l es) (hes : Fitting es)
    (hc : c = .emsListEvents ∨ ∃ id, c = .emsShow id) (h : Answers es env c ret) :
    ∃ ss, Complete c ret.2 ss := by
  obtain rfl | ⟨id, rfl⟩ := hc
  · simp only [Answers] at h
    split at h
    · subst h
      simp only [listReply, listing]
      split
      · exact ⟨_, .noEvents⟩
      · refine ⟨_, .listed (by decide) (by decide) ?_⟩
        have hlen := length_lt_of_rep hrep
        rw [UInt64.toNat_ofNat', Nat.mod_eq_of_lt (by rw [List.length_map]; simpa using hlen)]
    · subst h
      exact ⟨_, .notListed⟩
  · obtain ⟨rfl, -⟩ | ⟨e, he, rfl, -⟩ := show_cases h
    · exact ⟨_, .notShown id⟩
    · refine ⟨_, .shown id e.ev.rows e.ev.cols (by decide) ?_⟩
      rw [hrep.size e he, size_toNat (hes e he)]

/-! ## What is left -/

/-- Variables that happen to hold zeros. -/
def Locals.zero : Locals := ⟨.zero 4, .zero 8, .zero 8, .zero 4, .zero 8, .zero 4⟩

/-- A process that is about to read a response. -/
def readingProcess (response : Bytes) (eof : Bool) (v : Locals) (w : Writer) : Process Unit where
  session_id := 1
  response_pipe := { bytes := response, eof }
  out := w
  locals := v
  server := ()

theorem Drained.run {c : Call} {response : Bytes} {w : Writer} (h : Drained c response w) :
    ∃ code p', (c.issue {} (return ())).run (readingProcess response true .zero w) =
      .ok (code, p') ∧ p'.response_pipe.bytes = [] :=
  run_of_wp (h {} (readingProcess response true .zero w) [] rfl rfl calm_nil calm_nil
    (List.append_nil response).symm rfl)

/-- **Nothing of a response is left exactly when what comes before its last number can be
    printed**: all of it for a show request, the newlines for a list request. -/
theorem drained_iff {c : Call} {response : Bytes} {ss : List Stage} (h : Complete c response ss)
    (w : Writer) : Drained c response w ↔ (play (beforeLast ss) w).ok = true := by
  rw [← taken_eq_takes_iff]
  -- what the call leaves, in any case
  have hleaves : ∀ (pipes : Pipes) (p : Process Unit) (rest : Bytes),
      pipes.openRequest = true → pipes.openResponse = true → Calm p.request_pipe.turns →
      Calm p.response_pipe.turns → p.response_pipe.bytes = response ++ rest → p.out = w →
      wp (c.issue pipes (return ())) (fun _ p' => p'.response_pipe.bytes =
        (response ++ rest).drop (response.length - 4 * takes ss + 4 * (play ss w).taken))
        (fun _ => False) p := by
    intro pipes p rest hrequest hresponse hsent hcalm hbytes hout
    obtain ⟨hvalid, hss, hsize⟩ := h.stages_eq p.locals rest
    have hat : At p.response_pipe.eof p.locals (response ++ rest) w p :=
      ⟨rfl, hbytes, rfl, hcalm, hout⟩
    refine wp_issue_at hvalid hat (Or.inr ?_) (Or.inl ⟨hrequest, hresponse, hsent⟩)
      fun v' p' h' => ?_
    · rw [hss, hsize, List.length_append]
      omega
    · rw [h'.bytes, hss, ← hsize, Nat.add_sub_cancel]
  have hle := taken_le ss w
  have hlen := (h.stages_eq .zero []).2.2
  constructor
  · intro hdrained
    obtain ⟨code, p', hrun, hnil⟩ := hdrained.run
    have hp' := hleaves {} (readingProcess response true .zero w) [] rfl rfl calm_nil calm_nil
      (List.append_nil response).symm rfl
    have hdrop := (wp_run_ok hp' hrun).symm.trans hnil
    rw [List.append_nil, List.drop_eq_nil_iff] at hdrop
    omega
  · intro htaken pipes p rest hrequest hresponse hsent hcalm hbytes hout
    refine wp_mono (hleaves pipes p rest hrequest hresponse hsent hcalm hbytes hout)
      (fun code p' hp' => ?_) fun _ he => he
    rw [htaken, Nat.sub_add_cancel (by omega), List.drop_left] at hp'
    exact hp'

/-- An event of two seats, of which the second is reserved. -/
def twoSeats : Bytes := intBytes 0 ++ (sizeBytes 1 ++ (sizeBytes 2 ++ cellsBytes [0, 9]))

theorem drained_iff_sample :
    Drained (.emsShow 7) twoSeats { turns := [.go 0, .eintr] } ↔
      (play (beforeLast (gridStages (2 : UInt64).toNat (1 : UInt64).toNat [0, 9]))
        { turns := [.go 0, .eintr] }).ok = true :=
  drained_iff (.shown 7 1 2 (by decide) (by decide)) _

/-- A `write` fails while the event is shown, and the call that comes next takes the second seat for
    its result. -/
theorem not_drained_failing :
    Complete (.emsShow 7) twoSeats (gridStages (2 : UInt64).toNat (1 : UInt64).toNat [0, 9]) ∧
      ¬ Drained (.emsShow 7) twoSeats { turns := [.fail] } ∧
      (StateT.run (do
        let shown ← (Call.emsShow 7).issue {} (return ())
        let created ← (Call.emsCreate 8 1 1).issue {} (return ())
        return (shown, created))
        (readingProcess (twoSeats ++ intBytes 0) true .zero { turns := [.fail] })).map Prod.fst =
        .ok (1, 9) := by
  refine ⟨.shown 7 1 2 (by decide) (by decide), fun h => ?_, by decide +kernel⟩
  have hleft : (((Call.emsShow 7).issue {} (return ())).run
      (readingProcess twoSeats true .zero { turns := [.fail] })).map
      (fun r => r.2.response_pipe.bytes) = .ok (uintBytes 9) := by decide +kernel
  obtain ⟨code, p', hrun, hnil⟩ := h.run
  rw [hrun] at hleft
  exact absurd (hnil.symm.trans (Except.ok.inj hleft)) (by decide)

end EventServer.Client
