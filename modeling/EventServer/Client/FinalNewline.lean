import EventServer.Client.Lines

/-
  A job file with and without a newline at its end.

  The loop reads `file` and `file ++ [10]` alike until one of the two runs is at the end of its file
  (`Twin`). There they part if the end of the file comes where `parse_uint` reads digits, because
  `strtoul` then goes on in what the stack held, or directly behind the list of a reservation,
  because `parse_reserve` asks for one more byte there. `Unfinished` are the texts of which the first
  command ends like this.
-/

namespace EventServer.Client

open Lib

/-- What is left in the two runs. -/
def Twin (rest rest' : Bytes) : Prop := rest' = rest ++ [10] ∨ rest = [] ∧ rest' = []

theorem skipLine_twin (bs : Bytes) : Twin (skipLine bs) (skipLine (bs ++ [10])) := by
  induction bs with
  | nil => exact Or.inr ⟨rfl, rfl⟩
  | cons ch bs ih =>
    rw [List.cons_append, skipLine, skipLine]
    split
    · exact Or.inl rfl
    · exact ih

/-- A stack that holds digits. -/
def ones : Stack := fun _ => ⟨List.replicate 16 49, List.length_replicate⟩

/-- `strtoul` finds no end in it. -/
theorem strtoul_ones {ds : Bytes} (hds : Digits ds) (hlen : ds.length ≤ 15) :
    strtoul (leftover ones ds) = none := by
  have hones : Digits (leftover ones ds) := fun d hd => by
    obtain hd | hd := List.mem_append.1 hd
    · exact hds d hd
    · exact (List.mem_replicate.1 (List.mem_of_mem_drop hd)).2 ▸ (by decide)
  refine strtoul_all_digits hones (List.ne_nil_of_length_pos ?_)
  simp only [leftover, ones, List.length_append, List.length_drop, List.length_replicate]
  omega

/-- Both runs read a number that is not at the end. -/
theorem parseUint_both {ds : Bytes} (hds : Digits ds) (hlen : ds.length ≤ 15) {ch : UInt8}
    (hch : isDigit ch = false) (rest : Bytes) (stack : Stack) :
    (parseUint stack).run (ds ++ ch :: rest) = .ok ((uintOf ds, ch), rest) ∧
      (parseUint stack).run (ds ++ ch :: rest ++ [10]) = .ok ((uintOf ds, ch), rest ++ [10]) := by
  simp only [List.append_assoc, List.cons_append]
  exact ⟨parseUint_ended stack hds hlen hch rest, parseUint_ended stack hds hlen hch (rest ++ [10])⟩

/-! ## Operands -/

namespace Format

variable {α β : Type}

/-- The text ends before the format does: within a number, or where a newline would do. -/
def unfinished : Format α → Bytes → Bool
  | .done _, _ => false
  | .reject _, _ => false
  | .uint ends _ next, bs =>
    match bs.dropWhile isDigit with
    | [] => true
    | ch :: rest =>
      match uintOf (bs.takeWhile isDigit) with
      | none => false
      | some v => ch ∈ ends && (next v ch).unfinished rest
  | .char ok _ _, [] => 10 ∈ ok
  | .char ok _ next, ch :: rest => ch ∈ ok && (next ch).unfinished rest

/-- A newline that is awaited completes the format, with a good result. -/
def Completes (good : α → Prop) : Format α → Prop
  | .done _ => True
  | .reject _ => True
  | .uint _ _ next => ∀ v ch, (next v ch).Completes good
  | .char ok _ next =>
    (10 ∈ ok → ∃ a, next 10 = .done a ∧ good a) ∧ ∀ ch, (next ch).Completes good

theorem Completes.map {g : α → β} {good : β → Prop} {f : Format α}
    (h : f.Completes (good ∘ g)) : (f.map g).Completes good := by
  induction f with
  | done a => trivial
  | reject a => trivial
  | uint ends failed next ih => exact fun v ch => ih v ch (h v ch)
  | char ok failed next ih =>
    refine ⟨fun hok => ?_, fun ch => ih ch (h.2 ch)⟩
    obtain ⟨a, ha, hgood⟩ := h.1 hok
    exact ⟨g a, congrArg (Format.map g) ha, hgood⟩

theorem Completes.mono {good good' : α → Prop} {f : Format α} (h : f.Completes good)
    (hgood : ∀ a, good a → good' a) : f.Completes good' := by
  induction f with
  | done a => trivial
  | reject a => trivial
  | uint ends failed next ih => exact fun v ch => ih v ch (h v ch)
  | char ok failed next ih =>
    refine ⟨fun hok => ?_, fun ch => ih ch (h.2 ch)⟩
    obtain ⟨a, ha, hg⟩ := h.1 hok
    exact ⟨a, ha, hgood a hg⟩

/-- Both runs give the same and leave the same. -/
theorem run_twin {f : Format α} {bs : Bytes} (hshort : ShortRuns bs)
    (h : f.unfinished bs = false) :
    ∃ a rest rest', Twin rest rest' ∧ ∀ stack, (f.run stack).run bs = .ok (a, rest) ∧
      (f.run stack).run (bs ++ [10]) = .ok (a, rest') := by
  induction f generalizing bs with
  | done a => exact ⟨a, bs, bs ++ [10], Or.inl rfl, fun stack => ⟨rfl, rfl⟩⟩
  | reject a => exact ⟨a, _, _, skipLine_twin bs, fun stack => ⟨rfl, rfl⟩⟩
  | uint ends failed next ih =>
    obtain ⟨ds, ch, rest, rfl, hds, hlen, hch⟩ | ⟨hds, -⟩ := hshort.number_cases
    · have hrun := parseUint_both hds hlen hch rest
      have hsuffix := suffix_behind ds ch rest
      simp only [unfinished, takeWhile_digits hds hch, dropWhile_digits hds hch] at h
      simp only [run_uint, hrun]
      cases huint : uintOf ds with
      | none => exact ⟨_, _, _, skipLine_twin rest, fun stack => ⟨rfl, rfl⟩⟩
      | some v =>
        rw [huint] at h
        by_cases hin : ch ∈ ends
        · simp only [hin, if_true]
          exact ih v ch (hshort.of_suffix hsuffix) (by simpa [hin] using h)
        · simp only [hin, if_false]
          exact ⟨_, _, _, skipLine_twin rest, fun stack => ⟨rfl, rfl⟩⟩
    · simp [unfinished, List.dropWhile_eq_nil_iff.2 hds] at h
  | char ok failed next ih =>
    cases bs with
    | nil =>
      refine ⟨failed, [], [], Or.inr ⟨rfl, rfl⟩, fun stack => ⟨run_char_nil, ?_⟩⟩
      rw [List.nil_append, run_char_cons, if_neg (of_decide_eq_false h)]
      rfl
    | cons ch rest =>
      simp only [List.cons_append, run_char_cons]
      by_cases hin : ch ∈ ok
      · simp only [hin, if_true]
        exact ih ch (hshort.of_suffix (List.suffix_cons ch rest)) (by simpa [unfinished, hin] using h)
      · simp only [hin, if_false]
        exact ⟨_, _, _, skipLine_twin rest, fun stack => ⟨rfl, rfl⟩⟩

/-- A format goes on with what is awaited only before the end of the line. -/
theorem Lined.of_unfinished {ch : UInt8} {f : Format α} {bs : Bytes}
    (hf : if ch ∈ lineEnds then f.IsDone else f.Lined) (h : f.unfinished bs = true) : f.Lined := by
  split at hf
  · obtain ⟨a, rfl⟩ := hf
    exact Bool.noConfusion h
  · exact hf

/-- With the newline the format is done; without it, digits on the stack make `strtoul` read past
    the buffer, or the command fails. -/
theorem run_unfinished {f : Format α} (hf : f.Lined) {good bad : α → Prop}
    (hgood : f.Completes good) (hbad : f.Fails bad) {bs : Bytes} (hshort : ShortRuns bs)
    (h : f.unfinished bs = true) :
    ∃ a, (∀ stack, (f.run stack).run (bs ++ [10]) = .ok (a, [])) ∧
      ((f.run ones).run bs = .error .outOfBounds ∨
        good a ∧ ∃ b, bad b ∧ ∀ stack, (f.run stack).run bs = .ok (b, [])) := by
  induction f generalizing bs with
  | done a => exact hf.elim
  | reject a => exact Bool.noConfusion h
  | uint ends failed next ih =>
    obtain ⟨ds, ch, rest, rfl, hds, hlen, hch⟩ | ⟨hds, hlen⟩ := hshort.number_cases
    · have hrun := parseUint_both hds hlen hch rest
      have hsuffix := suffix_behind ds ch rest
      simp only [unfinished, takeWhile_digits hds hch, dropWhile_digits hds hch] at h
      simp only [run_uint, hrun]
      cases huint : uintOf ds with
      | none =>
        rw [huint] at h
        exact Bool.noConfusion h
      | some v =>
        rw [huint] at h
        obtain ⟨hin, hnext⟩ : ch ∈ ends ∧ (next v ch).unfinished rest = true := by simpa using h
        simp only [hin, if_true]
        exact ih v ch (.of_unfinished (hf v ch hin) hnext) (hgood v ch) (hbad.2 v ch)
          (hshort.of_suffix hsuffix) hnext
    · have hend : ((uint ends failed next).run ones).run bs = .error .outOfBounds := by
        rw [run_uint, parseUint_eof ones hds (by omega), parsed, strtoul_ones hds hlen]
      simp only [run_uint, parseUint_ended _ hds hlen (show isDigit 10 = false by decide)]
      cases uintOf bs with
      | none => exact ⟨failed none, fun stack => rfl, Or.inl (run_uint bs ▸ hend)⟩
      | some v =>
        by_cases hin : 10 ∈ ends
        · have hdone := hf v 10 hin
          rw [if_pos (by decide)] at hdone
          obtain ⟨a, ha⟩ := hdone
          simp only [hin, if_true, ha]
          exact ⟨a, fun stack => rfl, Or.inl (run_uint bs ▸ hend)⟩
        · simp only [hin, if_false]
          exact ⟨failed (some v), fun stack => rfl, Or.inl (run_uint bs ▸ hend)⟩
  | char ok failed next ih =>
    cases bs with
    | nil =>
      have hin : 10 ∈ ok := of_decide_eq_true h
      obtain ⟨a, ha, hgooda⟩ := hgood.1 hin
      refine ⟨a, fun stack => ?_, Or.inr ⟨hgooda, failed, hbad.1, fun stack => run_char_nil⟩⟩
      rw [List.nil_append, run_char_cons, if_pos hin, ha]
      rfl
    | cons ch rest =>
      obtain ⟨hin, hnext⟩ : ch ∈ ok ∧ (next ch).unfinished rest = true := by
        simpa [unfinished] using h
      simp only [List.cons_append, run_char_cons, hin, if_true]
      exact ih ch (.of_unfinished (hf ch hin) hnext) (hgood.2 ch) (hbad.2 ch)
        (hshort.of_suffix (List.suffix_cons ch rest)) hnext

end Format

theorem parseCreate_completes (good : Option (UInt32 × UInt64 × UInt64) → Prop) :
    parseCreate.Completes good := fun _ _ _ _ _ _ => trivial

theorem reserveLoop_completes (room : Nat) (r : Reservation) :
    (reserveLoop room r).Completes (fun r => r.1 ≠ 0) := by
  induction room generalizing r with
  | zero => trivial
  | succ room ih =>
    refine ⟨fun hok => absurd hok (by decide), fun _ x _ y _ =>
      ⟨fun hok => absurd hok (by decide), fun ch => ?_⟩⟩
    dsimp only
    split
    · split
      · trivial
      · refine ⟨fun _ => ⟨_, rfl, ?_⟩, fun _ => trivial⟩
        simp
    · exact ih _

theorem parseReserve_completes (max : Nat) :
    (parseReserve max).Completes (fun r => r.1 ≠ 0) :=
  fun _ _ => ⟨fun hok => absurd hok (by decide), fun _ => reserveLoop_completes max _⟩

theorem parseShow_completes (good : Option UInt32 → Prop) : parseShow.Completes good :=
  fun _ _ => trivial

theorem parseWait_completes (good : Int32 × Option UInt32 × Option UInt32 → Prop) :
    (parseWait false).Completes good := fun v ch => by
  dsimp only
  split <;> trivial

/-! ## One command -/

def Shape.unfinished (bs : Bytes) : Shape → Bool
  | .operands word f => bs.take word.length = word && f.unfinished (bs.drop word.length)
  | _ => false

/-- The end of the text comes within a number, or directly behind the list of a reservation. -/
def Unfinished : Bytes → Bool
  | [] => false
  | ch :: bs => (shapeOf ch).unfinished bs

/-- A newline that completes the operands of a keyword completes a request. -/
def Shape.Completes : Shape → Prop
  | .operands _ f => f.Completes (fun d => d.calls ≠ [])
  | _ => True

theorem shapeOf_completes (ch : UInt8) : (shapeOf ch).Completes := by
  refine shapeOf_induction ?_ ?_ ?_ trivial ?_ trivial trivial trivial trivial ch
  · exact (parseCreate_completes _).map
  · refine ((parseReserve_completes _).mono fun r hr => ?_).map
    simp only [Function.comp_apply, reserveDirective, hr, if_false]
    exact List.cons_ne_nil _ _
  · exact (parseShow_completes _).map
  · exact (parseWait_completes _).map

theorem endLine_twin (d : Directive) (bs : Bytes) :
    (endLine d bs).1 = (endLine d (bs ++ [10])).1 ∧
      Twin (endLine d bs).2 (endLine d (bs ++ [10])).2 := by
  cases bs with
  | nil => exact ⟨rfl, Or.inr ⟨rfl, rfl⟩⟩
  | cons ch bs =>
    rw [List.cons_append, endLine, endLine]
    split
    · exact ⟨rfl, Or.inl rfl⟩
    · exact ⟨rfl, skipLine_twin bs⟩

/-- Reading the rest of a keyword. -/
theorem keyword_twin {word : Bytes} (hword : 10 ∉ word) (bs : Bytes) :
    bs.take word.length = word ∧ (bs ++ [10]).take word.length = word ∧
        (bs ++ [10]).drop word.length = bs.drop word.length ++ [10] ∨
      bs.take word.length ≠ word ∧ (bs ++ [10]).take word.length ≠ word ∧
        Twin (skipLine (bs.drop word.length)) (skipLine ((bs ++ [10]).drop word.length)) := by
  by_cases hlen : word.length ≤ bs.length
  · rw [List.take_append_of_le_length hlen, List.drop_append_of_le_length hlen]
    by_cases h : bs.take word.length = word
    · exact Or.inl ⟨h, h, rfl⟩
    · exact Or.inr ⟨h, h, skipLine_twin _⟩
  · -- the end of the file comes within the keyword
    have hfull : (bs ++ [10]).length ≤ word.length := by
      rw [List.length_append, List.length_singleton]
      omega
    rw [List.take_of_length_le hfull, List.take_of_length_le (by omega),
      List.drop_eq_nil_of_le hfull, List.drop_eq_nil_of_le (by omega)]
    refine Or.inr ⟨fun h => hlen (by rw [h]), fun h => hword ?_, Or.inr ⟨rfl, rfl⟩⟩
    rw [← h]
    exact List.mem_append_right _ (List.mem_singleton_self 10)

theorem Shape.run_twin {s : Shape} (hs : s.Sound) {bs : Bytes} (hshort : ShortRuns bs)
    (h : s.unfinished bs = false) :
    ∃ d rest rest', Twin rest rest' ∧ ∀ stack,
      s.run stack bs = .ok (d, rest) ∧ s.run stack (bs ++ [10]) = .ok (d, rest') := by
  cases s with
  | operands word f =>
    obtain ⟨htake, htake', hdrop⟩ | ⟨htake, htake', htwin⟩ := keyword_twin hs.1 bs
    · obtain ⟨d, rest, rest', htwin, hrun⟩ := f.run_twin
        (hshort.of_suffix (List.drop_suffix word.length bs)) (by simpa [unfinished, htake] using h)
      refine ⟨d, rest, rest', htwin, fun stack => ?_⟩
      rw [Shape.run, Shape.run, if_pos htake, if_pos htake', hdrop]
      exact hrun stack
    · refine ⟨.invalid, _, _, htwin, fun stack => ?_⟩
      rw [Shape.run, Shape.run, if_neg htake, if_neg htake']
      exact ⟨rfl, rfl⟩
  | whole word d =>
    obtain ⟨htake, htake', hdrop⟩ | ⟨htake, htake', htwin⟩ := keyword_twin hs bs
    · obtain ⟨hd, htwin⟩ := endLine_twin d (bs.drop word.length)
      refine ⟨(endLine d (bs.drop word.length)).1, _, _, htwin, fun stack => ?_⟩
      rw [Shape.run, Shape.run, if_pos htake, if_pos htake', hdrop]
      exact ⟨rfl, by rw [hd]⟩
    · refine ⟨.invalid, _, _, htwin, fun stack => ?_⟩
      rw [Shape.run, Shape.run, if_neg htake, if_neg htake']
      exact ⟨rfl, rfl⟩
  | skipped d => exact ⟨d, _, _, skipLine_twin bs, fun stack => ⟨rfl, rfl⟩⟩
  | blank => exact ⟨.empty, bs, bs ++ [10], Or.inl rfl, fun stack => ⟨rfl, rfl⟩⟩

theorem nextDirective_twin {bs : Bytes} (hshort : ShortRuns bs) (h : Unfinished bs = false)
    (hne : bs ≠ []) :
    ∃ d rest rest', d ≠ .eoc ∧ Twin rest rest' ∧ ∀ stack,
      (nextDirective stack).run bs = .ok (d, rest) ∧
        (nextDirective stack).run (bs ++ [10]) = .ok (d, rest') := by
  cases bs with
  | nil => exact absurd rfl hne
  | cons ch bs =>
    obtain ⟨d, rest, rest', htwin, hrun⟩ := (shapeOf ch).run_twin (shapeOf_sound ch)
      (hshort.of_suffix (List.suffix_cons ch bs)) h
    refine ⟨d, rest, rest', shapeOf_ne_eoc (hrun ones).1, htwin, fun stack => ?_⟩
    rw [List.cons_append, nextDirective_cons, nextDirective_cons]
    exact hrun stack

theorem nextDirective_unfinished {bs : Bytes} (hshort : ShortRuns bs) (h : Unfinished bs = true) :
    ∃ d, (∀ stack, (nextDirective stack).run (bs ++ [10]) = .ok (d, [])) ∧
      ((nextDirective ones).run bs = .error .outOfBounds ∨
        d.calls ≠ [] ∧ ∀ stack, (nextDirective stack).run bs = .ok (.invalid, [])) := by
  cases bs with
  | nil => exact Bool.noConfusion h
  | cons ch bs =>
    have hsound := shapeOf_sound ch
    have hcompletes := shapeOf_completes ch
    simp only [List.cons_append, nextDirective_cons]
    rw [Unfinished] at h
    cases hs : shapeOf ch with
    | operands word f =>
      rw [hs] at h hsound hcompletes
      obtain ⟨htake, hun⟩ : bs.take word.length = word ∧ f.unfinished (bs.drop word.length) = true := by
        simpa [Shape.unfinished] using h
      have hshort' : ShortRuns (bs.drop word.length) :=
        hshort.of_suffix ((List.drop_suffix _ bs).trans (List.suffix_cons ch bs))
      obtain ⟨-, htake', hdrop⟩ | ⟨hne, -⟩ := keyword_twin hsound.1 bs
      · simp only [Shape.run, htake, htake', hdrop, if_true]
        obtain ⟨d, hrun, hend | ⟨hd, _, rfl, hfail⟩⟩ :=
          f.run_unfinished hsound.2.1 hcompletes hsound.2.2 hshort' hun
        · exact ⟨d, hrun, Or.inl hend⟩
        · exact ⟨d, hrun, Or.inr ⟨hd, hfail⟩⟩
      · exact absurd htake hne
    | whole word d =>
      rw [hs] at h
      exact Bool.noConfusion h
    | skipped d =>
      rw [hs] at h
      exact Bool.noConfusion h
    | blank =>
      rw [hs] at h
      exact Bool.noConfusion h

/-! ## The whole file -/

theorem Directive.ne_eoc_of_calls {d : Directive} (h : d.calls ≠ []) : d ≠ .eoc := fun hd => by
  subst hd
  exact h rfl

theorem requests_newline (stack : Stack) : requests stack [10] = .ok [] := rfl

theorem requests_twin {file : Bytes} (hshort : ShortRuns file)
    (h : ∀ stack rest, Reaches stack file rest → Unfinished rest = false) (stack stack' : Stack) :
    requests stack file = requests stack' (file ++ [10]) := by
  induction hn : file.length using Nat.strongRecOn generalizing file with
  | ind n ih =>
    by_cases hne : file = []
    · subst hne
      rw [List.nil_append, requests_nil, requests_newline]
    · obtain ⟨d, rest, rest', hd, htwin, hrun⟩ :=
        nextDirective_twin hshort (h stack _ (.refl file)) hne
      rw [requests_next (hrun stack).1 hd, requests_next (hrun stack').2 hd]
      obtain rfl | ⟨rfl, rfl⟩ := htwin
      · obtain ⟨hnil, -⟩ | ⟨ch, bs, rfl, -, hsuffix⟩ := nextDirective_cases (hrun stack).1
        · exact absurd hnil hne
        · have hlt : rest.length < n := by
            have hle := hsuffix.length_le
            rw [← hn, List.length_cons]
            omega
          rw [ih rest.length hlt (hshort.of_suffix (hsuffix.trans (List.suffix_cons ch bs)))
            (fun stack rest₁ hreach => h stack rest₁ (.step (hrun stack).1 hd hreach)) rfl]
      · rw [requests_nil, requests_nil]

theorem requests_unfinished {file : Bytes} {stack : Stack} {rest : Bytes} (hshort : ShortRuns file)
    (hreach : Reaches stack file rest) (h : Unfinished rest = true) :
    requests ones file ≠ requests ones (file ++ [10]) := by
  -- at the command that is unfinished the runs part
  have hhere : ∀ {file : Bytes}, ShortRuns file → Unfinished file = true →
      requests ones file ≠ requests ones (file ++ [10]) := fun {file} hshort h => by
    obtain ⟨d, hrun, hend | ⟨hd, hfail⟩⟩ := nextDirective_unfinished hshort h
    · obtain ⟨hnil, -⟩ | ⟨-, -, -, hd, -⟩ := nextDirective_cases (hrun ones)
      · simp at hnil
      · rw [requests_error hend, requests_next (hrun ones) hd, requests_nil]
        exact fun heq => nomatch heq
    · rw [requests_next (hrun ones) (d.ne_eoc_of_calls hd),
        requests_next (hfail ones) Directive.noConfusion, requests_nil]
      intro heq
      exact hd (by simpa [Except.map, Directive.calls] using heq.symm)
  induction hreach with
  | refl file => exact hhere hshort h
  | @step file rest₁ rest₂ d hnext hd hreach ih =>
    cases hun : Unfinished file with
    | true => exact hhere hshort hun
    | false =>
      have hne : file ≠ [] := fun hnil => by
        subst hnil
        cases hnext
        exact hd rfl
      obtain ⟨d', rest, rest', -, htwin, hrun⟩ := nextDirective_twin hshort hun hne
      obtain ⟨rfl, rfl⟩ : d = d' ∧ rest₁ = rest :=
        Prod.ext_iff.1 (Except.ok.inj (hnext.symm.trans (hrun _).1))
      have hsuffix : rest₁ <:+ file := by
        obtain ⟨rfl, -, rfl⟩ | ⟨ch, bs, rfl, -, hsuffix⟩ := nextDirective_cases hnext
        · exact List.suffix_refl _
        · exact hsuffix.trans (List.suffix_cons ch bs)
      obtain rfl | ⟨rfl, -⟩ := htwin
      · rw [requests_next (hrun ones).1 hd, requests_next (hrun ones).2 hd]
        exact fun heq => ih (hshort.of_suffix hsuffix) h (map_append_inj heq)
      · rw [hreach.nil] at h
        exact Bool.noConfusion h

/-- **The newline at the end of a job file makes no difference exactly when no command is
    unfinished without it.** -/
theorem finalNewline_iff {file : Bytes} (hshort : ShortRuns file) :
    (∀ stack stack', requests stack file = requests stack' (file ++ [10])) ↔
      ∀ stack rest, Reaches stack file rest → Unfinished rest = false := by
  constructor
  · intro h stack rest hreach
    cases hun : Unfinished rest with
    | false => rfl
    | true => exact absurd (h ones ones) (requests_unfinished hshort hreach hun)
  · exact fun h => requests_twin hshort h

/-- The end of the file may stand for the newline behind `LIST`. -/
theorem finalNewline_list :
    requests ones (ascii "LIST") = requests (fun _ => .zero 16) (ascii "LIST" ++ [10]) := by
  refine (finalNewline_iff (.of_countP (by decide))).2 (fun stack rest hreach => ?_) _ _
  obtain rfl | hreach := hreach.cases (d := .call .emsListEvents) rfl
  · decide
  · rw [hreach.nil]
    rfl

/-- A reservation is issued only with the newline. -/
theorem not_finalNewline_reserve :
    ShortRuns (ascii "RESERVE 1 [(1,1)]") ∧
      requests (fun _ => .zero 16) (ascii "RESERVE 1 [(1,1)]") = .ok [] ∧
      requests (fun _ => .zero 16) (ascii "RESERVE 1 [(1,1)]" ++ [10]) =
        .ok [.emsReserve 1 ⟨1, [1], [1]⟩] ∧
      ¬ ∀ stack stack', requests stack (ascii "RESERVE 1 [(1,1)]") =
        requests stack' (ascii "RESERVE 1 [(1,1)]" ++ [10]) := by
  have hwithout : requests (fun _ => .zero 16) (ascii "RESERVE 1 [(1,1)]") = .ok [] := by
    decide +kernel
  have hwith : requests (fun _ => .zero 16) (ascii "RESERVE 1 [(1,1)]" ++ [10]) =
      .ok [.emsReserve 1 ⟨1, [1], [1]⟩] := by
    decide +kernel
  refine ⟨.of_countP (by decide), hwithout, hwith, fun h => ?_⟩
  have heq := h (fun _ => .zero 16) (fun _ => .zero 16)
  rw [hwithout, hwith] at heq
  cases heq

end EventServer.Client
