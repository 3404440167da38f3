import EventServer.Client.Calls

/-
  Responses that are read to their end.

  Whatever comes on the response pipe of a call and whatever its variables hold, the call closes
  the pipes only when it has read something of the form of a response (`Reads`):
  `wp_receiveResponse`. Nothing is assumed about the sizes of events: a client expects a seat for
  each row and column, and the server's answer has at most as many, so the call has then read
  the whole answer (`ends_of_answers`).
-/

namespace EventServer.Client

open Lib Op Api

/-! ## What a call reads -/

/-- What follows the result in a response that a call has read to the closing of the pipes. -/
def ReadsRest : Call → Bytes → Prop
  | .emsCreate _ _ _, rest => rest = []
  | .emsReserve _ _, rest => rest = []
  | .emsShow _, rest => ∃ num_rows num_cols seats, rest = num_rows ++ (num_cols ++ seats) ∧
      num_rows.length = 8 ∧ num_cols.length = 8 ∧
      seats.length = 4 * ((toSize num_rows).toNat * (toSize num_cols).toNat)
  | .emsListEvents, rest => ∃ num_events ids, rest = num_events ++ ids ∧
      num_events.length = 8 ∧ ids.length = 4 * (toSize num_events).toNat

/-- What a call has read when it comes to the closing of the pipes. -/
def Reads (c : Call) (got : Bytes) : Prop :=
  ∃ result rest, got = result ++ rest ∧ result.length = 4 ∧ toInt result ≠ 1 ∧ ReadsRest c rest

/-- A process has read `got` since `p₀`, on a pipe that stays open. -/
structure Got (p₀ : Process Unit) (got : Bytes) (p : Process Unit) : Prop where
  got : p₀.response_pipe.bytes = got ++ p.response_pipe.bytes
  eof : p.response_pipe.eof = false
  turns : Unsignalled p.response_pipe.turns

/-- The call has returned early, or it has read something of the form `R`. -/
def Finished (p₀ : Process Unit) (R : Bytes → Prop) (code : Int32) (p : Process Unit) : Prop :=
  code ≠ 1 → ∃ got, Got p₀ got p ∧ R got

section Reading

variable {p₀ p : Process Unit} {got : Bytes} {R : Bytes → Prop} {next : Api Unit Int32}

theorem wp_fail_finished {msg : String} :
    wp (fail msg) (Finished p₀ R) (fun _ => True) p := fun h => absurd rfl h

theorem wp_readOr_finished {n : Nat} {msg : String} {var : Locals → Buffer n}
    {put : Locals → Buffer n → Locals} {next : Bytes → Api Unit Int32} (h : Got p₀ got p)
    (hn : (ssize (UInt64.ofNat n)).toNat = n)
    (hnext : ∀ bs p', bs.length = n → Got p₀ (got ++ bs) p' →
      wp (next bs) (Finished p₀ R) (fun _ => True) p') :
    wp (readOr msg var put next) (Finished p₀ R) (fun _ => True) p := by
  obtain ⟨ts, hts, hread | ⟨-, k, -, hread⟩⟩ := myRead_unsignalled h.turns (UInt64.ofNat n)
  · rw [hn] at hread
    simp only [readOr, wp_bind, wp_get, hread, h.eof, Bool.false_eq_true, or_false, wp_set]
    split
    · trivial
    · next ret hret =>
      by_cases hle : n ≤ p.response_pipe.bytes.length
      · rw [if_pos hle] at hret
        have hnn : ret ≠ -1 := by
          obtain rfl := Option.some.inj hret
          omega
        have hlen : (p.response_pipe.bytes.take n).length = n := by
          rw [List.length_take]
          omega
        rw [if_neg hnn, overwrite_of_length _ hlen]
        refine hnext _ _ hlen ⟨?_, rfl, h.turns.suffix hts⟩
        rw [List.append_assoc, List.take_append_drop]
        exact h.got
      · rw [if_neg hle] at hret
        cases hret
  · simp only [readOr, wp_bind, wp_get, hread, wp_set, if_true]
    exact wp_fail_finished

theorem wp_printStr_finished {str : String} {next : Int32 → Api Unit Int32} (h : Got p₀ got p)
    (hnext : ∀ ret p', Got p₀ got p' → wp (next ret) (Finished p₀ R) (fun _ => True) p') :
    wp (Api.printStr str >>= next) (Finished p₀ R) (fun _ => True) p := by
  simp only [Api.printStr, wp_bind, wp_get, wp_set, wp_pure]
  exact hnext _ _ ⟨h.got, h.eof, h.turns⟩

theorem wp_printUint_finished {value : UInt32} {next : Int32 → Api Unit Int32} (h : Got p₀ got p)
    (hnext : ∀ ret p', Got p₀ got p' → wp (next ret) (Finished p₀ R) (fun _ => True) p') :
    wp (Api.printUint value >>= next) (Finished p₀ R) (fun _ => True) p := by
  simp only [Api.printUint, wp_bind, wp_get]
  split
  · trivial
  · simp only [wp_bind, wp_set, wp_pure]
    exact hnext _ _ ⟨h.got, h.eof, h.turns⟩

theorem wp_writeNewlineOr_finished (h : Got p₀ got p)
    (hnext : ∀ p', Got p₀ got p' → wp next (Finished p₀ R) (fun _ => True) p') :
    wp (writeNewlineOr next) (Finished p₀ R) (fun _ => True) p := by
  simp only [writeNewlineOr, wp_bind, wp_get, wp_set, wp_ite]
  exact ⟨fun _ => wp_fail_finished, fun _ => hnext _ ⟨h.got, h.eof, h.turns⟩⟩

/-- The seats of a row. -/
theorem wp_showRow_finished {num_cols : UInt64} : ∀ (n : Nat) (j : UInt64) {p : Process Unit}
    {got : Bytes}, Got p₀ got p → (∀ seats p', seats.length = 4 * n → Got p₀ (got ++ seats) p' →
      wp next (Finished p₀ R) (fun _ => True) p') →
    wp (showRow num_cols next n j) (Finished p₀ R) (fun _ => True) p
  | 0, _, p, got, h, hnext => hnext [] p rfl (by rwa [List.append_nil])
  | n + 1, j, p, got, h, hnext => by
      have hrest : ∀ seat p' j, seat.length = 4 → Got p₀ (got ++ seat) p' →
          wp (showRow num_cols next n j) (Finished p₀ R) (fun _ => True) p' := by
        intro seat p' j hseat h'
        refine wp_showRow_finished n j h' fun seats p'' hseats h'' => ?_
        rw [List.append_assoc] at h''
        exact hnext _ _ (by rw [List.length_append]; omega) h''
      refine wp_readOr_finished h (by decide) fun seat p₁ hseat h₁ => ?_
      refine wp_printUint_finished h₁ fun ret p₂ h₂ => ?_
      simp only [wp_ite]
      refine ⟨fun _ => wp_fail_finished, fun _ => ⟨fun _ => ?_, fun _ => hrest seat p₂ _ hseat h₂⟩⟩
      refine wp_printStr_finished h₂ fun ret' p₃ h₃ => ?_
      simp only [wp_ite]
      exact ⟨fun _ => wp_fail_finished, fun _ => hrest seat p₃ _ hseat h₃⟩

/-- The seats of an event. -/
theorem wp_showRows_finished {num_cols : UInt64} : ∀ (n : Nat) {p : Process Unit}
    {got : Bytes}, Got p₀ got p →
    (∀ seats p', seats.length = 4 * (n * num_cols.toNat) → Got p₀ (got ++ seats) p' →
      wp next (Finished p₀ R) (fun _ => True) p') →
    wp (showRows num_cols next n) (Finished p₀ R) (fun _ => True) p
  | 0, p, got, h, hnext => hnext [] p (by simp) (by rwa [List.append_nil])
  | n + 1, p, got, h, hnext => by
      refine wp_showRow_finished num_cols.toNat 0 h fun row p₁ hrow h₁ => ?_
      refine wp_writeNewlineOr_finished h₁ fun p₂ h₂ => ?_
      refine wp_showRows_finished n h₂ fun seats p₃ hseats h₃ => ?_
      rw [List.append_assoc] at h₃
      refine hnext _ _ ?_ h₃
      rw [List.length_append, hrow, hseats, Nat.add_mul, Nat.one_mul]
      omega

/-- The ids of a list. -/
theorem wp_listLoop_finished {num_events : UInt64} : ∀ (n : Nat) (i : UInt64) {p : Process Unit}
    {got : Bytes}, Got p₀ got p → (∀ ids p', ids.length = 4 * n → Got p₀ (got ++ ids) p' →
      wp next (Finished p₀ R) (fun _ => True) p') →
    wp (listLoop num_events next n i) (Finished p₀ R) (fun _ => True) p
  | 0, _, p, got, h, hnext => hnext [] p rfl (by rwa [List.append_nil])
  | n + 1, i, p, got, h, hnext => by
      have hrest : ∀ id p' i, id.length = 4 → Got p₀ (got ++ id) p' →
          wp (listLoop num_events next n i) (Finished p₀ R) (fun _ => True) p' := by
        intro id p' i hid h'
        refine wp_listLoop_finished n i h' fun ids p'' hids h'' => ?_
        rw [List.append_assoc] at h''
        exact hnext _ _ (by rw [List.length_append]; omega) h''
      refine wp_readOr_finished h (by decide) fun id p₁ hid h₁ => ?_
      refine wp_printStr_finished h₁ fun ret p₂ h₂ => ?_
      simp only [wp_ite]
      refine ⟨fun _ h1 => absurd rfl h1, fun _ => ?_⟩
      refine wp_printUint_finished h₂ fun ret' p₃ h₃ => ?_
      simp only [wp_ite]
      refine ⟨fun _ h1 => absurd rfl h1, fun _ => ⟨fun _ => ?_, fun _ => hrest id p₃ _ hid h₃⟩⟩
      exact wp_writeNewlineOr_finished h₃ fun p₄ h₄ => hrest id p₄ _ hid h₄

theorem wp_close_finished {result : Int32} (h : Got p₀ got p) (hgot : R got) :
    wp (Api.close {} result) (Finished p₀ R) (fun _ => True) p := fun _ => ⟨got, h, hgot⟩

/-- The result is read first. -/
theorem wp_response_finished {unopened : Api Unit Unit} {refused : String}
    {next : Int32 → Api Unit Int32} (h : Got p [] p)
    (hnext : ∀ result p', result.length = 4 → toInt result ≠ 1 → Got p result p' →
      wp (next (toInt result)) (Finished p R) (fun _ => True) p') :
    wp (response {} (return ()) unopened refused next) (Finished p R) (fun _ => True) p := by
  simp only [response, Bool.not_true, Bool.false_eq_true, if_false, wp_bind, wp_pure]
  refine wp_readOr_finished h (by decide) fun result p₁ hresult h₁ => ?_
  simp only [wp_ite]
  exact ⟨fun _ => wp_fail_finished, fun h1 => hnext result p₁ hresult h1 h₁⟩

/-- **A call that comes to the closing of the pipes has read a whole response.** -/
theorem wp_receiveResponse (c : Call) (h : Got p [] p) :
    wp (receiveResponse {} (return ()) c) (Finished p (Reads c)) (fun _ => True) p := by
  cases c with
  | emsCreate id rows cols =>
    rw [receiveResponse]
    refine wp_response_finished h fun result p₁ hresult h1 h₁ => ?_
    exact wp_close_finished h₁ ⟨result, [], by simp, hresult, h1, rfl⟩
  | emsReserve id args =>
    rw [receiveResponse]
    refine wp_response_finished h fun result p₁ hresult h1 h₁ => ?_
    exact wp_close_finished h₁ ⟨result, [], by simp, hresult, h1, rfl⟩
  | emsShow id =>
    rw [receiveResponse]
    refine wp_response_finished h fun result p₁ hresult h1 h₁ => ?_
    refine wp_readOr_finished h₁ (by decide) fun num_rows p₂ hrows h₂ => ?_
    refine wp_readOr_finished h₂ (by decide) fun num_cols p₃ hcols h₃ => ?_
    refine wp_showRows_finished (toSize num_rows).toNat h₃ fun seats p₄ hseats h₄ => ?_
    refine wp_close_finished h₄ ⟨result, num_rows ++ (num_cols ++ seats), by simp, hresult, h1, ?_⟩
    exact ⟨num_rows, num_cols, seats, rfl, hrows, hcols, hseats⟩
  | emsListEvents =>
    rw [receiveResponse]
    refine wp_response_finished h fun result p₁ hresult h1 h₁ => ?_
    rw [wp_ite]
    refine ⟨fun _ => ?_, fun _ => ?_⟩
    · exact wp_printStr_finished h₁ fun _ _ _ h1 => absurd rfl h1
    · refine wp_readOr_finished h₁ (by decide) fun num_events p₂ hnum h₂ => ?_
      refine wp_listLoop_finished (toSize num_events).toNat 0 h₂ fun ids p₃ hids h₃ => ?_
      refine wp_writeNewlineOr_finished h₃ fun p₄ h₄ => ?_
      refine wp_close_finished h₄ ⟨result, num_events ++ ids, by simp, hresult, h1, ?_⟩
      exact ⟨num_events, ids, rfl, hnum, hids⟩

end Reading

/-! ## Answers -/

/-- A call that reads `bs` to the closing of the pipes has read all of it. -/
def Ends (c : Call) (bs : Bytes) : Prop := ∀ got, got <+: bs → Reads c got → got = bs

theorem length_cellsBytes (cells : List UInt32) : (cellsBytes cells).length = 4 * cells.length := by
  induction cells with
  | nil => rfl
  | cons c cells ih =>
    have hcons : cellsBytes (c :: cells) = uintBytes c ++ cellsBytes cells := rfl
    rw [hcons, List.length_append, length_uintBytes, ih, List.length_cons]
    omega

/-- The response to a call that has failed is only its result. -/
theorem not_reads_one {c : Call} {got rest : Bytes} (h : got <+: intBytes 1 ++ rest) :
    ¬ Reads c got := by
  rintro ⟨result, tail, rfl, hlen, h1, -⟩
  obtain ⟨t, ht⟩ := h
  rw [List.append_assoc] at ht
  obtain ⟨rfl, -⟩ := List.append_inj ht (by rw [hlen, length_intBytes])
  exact h1 (toInt_intBytes 1)

theorem ends_one {c : Call} : Ends c (intBytes 1) := fun _ hgot hreads =>
  absurd hreads (not_reads_one (hgot.trans (List.prefix_append _ [])))

/-- The answer to a show request. -/
theorem ends_showBytes {id : UInt32} {e : Entry}
    (hsize : e.cells.length = (e.ev.rows * e.ev.cols).toNat) :
    Ends (.emsShow id) (showBytes e) := by
  rintro got ⟨t, ht⟩ ⟨result, rest, rfl, hresult, -, num_rows, num_cols, seats, rfl, hrows, hcols,
    hseats⟩
  have hnil : t = [] := by
    simp only [showBytes, List.append_assoc] at ht
    obtain ⟨-, ht₁⟩ := List.append_inj ht (by rw [hresult, length_intBytes])
    obtain ⟨rfl, ht₂⟩ := List.append_inj ht₁ (by rw [hrows, length_sizeBytes])
    obtain ⟨rfl, ht₃⟩ := List.append_inj ht₂ (by rw [hcols, length_sizeBytes])
    -- the client expects every seat of the rows, at least as many as the server has
    have hle : (e.ev.rows * e.ev.cols).toNat ≤ e.ev.rows.toNat * e.ev.cols.toNat := by
      rw [UInt64.toNat_mul]
      exact Nat.mod_le _ _
    have hlen := congrArg List.length ht₃
    rw [toSize_sizeBytes, toSize_sizeBytes] at hseats
    rw [List.length_append, length_cellsBytes, hsize, hseats] at hlen
    exact List.eq_nil_of_length_eq_zero (by omega)
  rw [← ht, hnil, List.append_nil]

/-- The answer to a list request. -/
theorem ends_listing {ids : List UInt32} (hids : ids.length < 2 ^ 64) :
    Ends .emsListEvents (listing ids).2 := by
  rintro got ⟨t, ht⟩ ⟨result, rest, rfl, hresult, -, num_events, cells, rfl, hnum, hcells⟩
  have hnil : t = [] := by
    unfold listing at ht
    split at ht
    · have hlen := congrArg List.length ht
      simp only [List.length_append, length_intBytes] at hlen
      omega
    · simp only [List.append_assoc] at ht
      obtain ⟨-, ht₁⟩ := List.append_inj ht (by rw [hresult, length_intBytes])
      obtain ⟨rfl, ht₂⟩ := List.append_inj ht₁ (by rw [hnum, length_sizeBytes])
      have hlen := congrArg List.length ht₂
      rw [toSize_sizeBytes, UInt64.toNat_ofNat', Nat.mod_eq_of_lt (by simpa using hids)] at hcells
      rw [List.length_append, length_cellsBytes, hcells] at hlen
      exact List.eq_nil_of_length_eq_zero (by omega)
  rw [← ht, hnil, List.append_nil]

/-- A response that is only a result. -/
theorem ends_intBytes {c : Call} (code : Int32) (hrest : ∀ rest, ReadsRest c rest → rest = []) :
    Ends c (intBytes code) := by
  rintro got ⟨t, ht⟩ ⟨result, rest, rfl, hresult, -, h⟩
  obtain rfl := hrest rest h
  have hnil : t = [] := by
    have hlen := congrArg List.length ht
    simp only [List.length_append, length_intBytes, List.length_nil] at hlen
    exact List.eq_nil_of_length_eq_zero (by omega)
  rw [← ht, hnil, List.append_nil, List.append_nil]

/-- **An answer is read to its end.** -/
theorem ends_of_answers {m : Mem} {l : Ptr} {es : List Entry} {env : Env} {c : Call}
    {ret : Int32 × Bytes} (hrep : Rep m l es) (h : Answers es env c ret) : Ends c ret.2 := by
  cases c with
  | emsCreate id rows cols => exact h ▸ ends_intBytes ret.1 fun _ hrest => hrest
  | emsReserve id args => exact h ▸ ends_intBytes ret.1 fun _ hrest => hrest
  | emsShow id =>
    obtain ⟨rfl, -⟩ | ⟨e, he, rfl, -⟩ := show_cases h
    · exact ends_one
    · exact ends_showBytes (hrep.size e he)
  | emsListEvents =>
    simp only [Answers] at h
    split at h
    · rw [h]
      exact ends_listing (by rw [List.length_map]; exact length_lt_of_rep hrep)
    · rw [h]
      exact ends_one

end EventServer.Client
