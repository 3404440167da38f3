import EventServer.Lib.Progress
import EventServer.Server.Linearizable
import EventServer.Sessions.Outputs

/-
  Every session comes to its end.

  A command takes at most six moves (the turn of the client, the reading of the request, two steps
  of the operation, the sending and the reading of the response) and at least one byte of the job
  file, so the rank of a session is six times what is left of its file, plus what is left of the
  command under way (`ranked_move`). And no session waits for another one: whatever state a run has
  come to, a session that is not at its end has a move (`Good.can_move`). So its own moves bring it to
  its end (`session_finishes`).
-/

namespace EventServer

open Lib Client

/-! ## What is left of a session -/

/-- The session that moves. -/
def Motion.session {T : Type} : Motion T → T
  | .turn t => t
  | .take t _ => t
  | .step t => t
  | .answer t => t
  | .hear t => t

/-- The moves that are left of a command, without those in the operation. -/
def Standing.rank : Standing → ℕ
  | .running => 1
  | .asked _ => 6
  | .served _ => 2
  | .answered _ => 2
  | .atEnd => 0

/-- The moves that are left in the operation. -/
def phaseRank : Phase Task Ptr (Int32 × Bytes) → ℕ
  | .idle => 0
  | .called .. => 3
  | .found .. => 2
  | .finished .. => 1

def Party.rank (p : Party) : ℕ := 6 * p.program.in_file.length + p.standing.rank

def Sessions.rank {T : Type} (s : Sessions T) (t : T) : ℕ :=
  (s.party t).rank + phaseRank (s.threads.phase t)

section Party

variable {e : MainEnv Unit} {p p' : Party}

theorem Party.turn_rank (h : p.turn e = some p') : p'.rank < p.rank := by
  unfold Party.turn at h
  cases hstanding : p.standing with
  | running =>
    rw [hstanding] at h
    cases hrun : (Main.turn e).run p.program with
    | error stop =>
      rw [hrun] at h
      cases h
    | ok r =>
      obtain ⟨pause, program⟩ := r
      rw [hrun] at h
      have hfile := wp_run_ok Main.wp_turn_file hrun
      unfold Party.rank
      rw [hstanding, Standing.rank]
      cases pause with
      | next =>
        obtain rfl := Option.some.inj h
        obtain ⟨hend, -⟩ | hless := hfile
        · cases hend
        · dsimp only [Standing.rank]
          omega
      | asked c =>
        obtain rfl := Option.some.inj h
        obtain ⟨hend, -⟩ | hless := hfile
        · cases hend
        · dsimp only [Standing.rank]
          omega
      | atEnd =>
        obtain rfl := Option.some.inj h
        have hle : program.in_file.length ≤ p.program.in_file.length := by
          obtain ⟨-, hsame⟩ | hless := hfile
          · exact hsame ▸ Nat.le_refl _
          · exact Nat.le_of_lt hless
        dsimp only [Standing.rank]
        omega
  | _ =>
    rw [hstanding] at h
    cases h

theorem Party.take_rank {call : Call} (h : p.take = some (call, p')) : p.rank = p'.rank + 4 := by
  unfold Party.take at h
  split at h
  · next c op_code bs hstanding hwritten =>
    obtain ⟨call', -, heq⟩ := Option.map_eq_some_iff.1 h
    obtain ⟨-, rfl⟩ := Prod.mk.inj heq
    unfold Party.rank
    rw [hstanding]
    rfl
  · cases h

theorem Party.answer_rank {response : Bytes} (h : p.answer response = some p') :
    p'.rank = p.rank := by
  unfold Party.answer at h
  split at h
  · next c hstanding =>
    obtain rfl := Option.some.inj h
    unfold Party.rank
    rw [hstanding]
    rfl
  · cases h

theorem Party.hear_rank (h : p.hear e = some p') : p'.rank < p.rank := by
  unfold Party.hear at h
  split at h
  · next c hstanding =>
    cases hrun : (Main.hear e c).run p.program with
    | error stop =>
      rw [hrun] at h
      cases h
    | ok r =>
      rw [hrun] at h
      obtain rfl := Option.some.inj h
      have hfile := wp_run_ok (Main.wp_hear_file c) hrun
      unfold Party.rank
      rw [hstanding]
      dsimp only
      rw [hfile]
      exact Nat.lt_succ_self _
  · cases h

end Party

section Ranks

variable {T : Type} [DecidableEq T] {e : T → MainEnv Unit} {s s' : Sessions T} {mv : Motion T}

/-- A move of another session. -/
theorem move_other (h : s.move e mv = some s') {u : T} (hu : mv.session ≠ u) :
    s'.party u = s.party u ∧ s'.threads.phase u = s.threads.phase u := by
  have hparty := fun t p => s.setParty_other (t := t) (u := u) (p := p)
  cases mv with
  | turn t =>
    obtain ⟨p, -, rfl⟩ := Option.map_eq_some_iff.1 h
    exact ⟨hparty t p (Ne.symm hu), rfl⟩
  | hear t =>
    obtain ⟨p, -, rfl⟩ := Option.map_eq_some_iff.1 h
    exact ⟨hparty t p (Ne.symm hu), rfl⟩
  | take t env =>
    obtain ⟨⟨call, p⟩, -, h⟩ := Option.bind_eq_some_iff.1 h
    dsimp only at h
    split at h
    · next hcall =>
      obtain ⟨threads, hmove, rfl⟩ := Option.map_eq_some_iff.1 h
      obtain ⟨-, rfl⟩ := TwoStep.call_cases hmove
      exact ⟨hparty t p (Ne.symm hu), s.threads.setPhase_other (Ne.symm hu) _⟩
    · cases h
  | step t =>
    obtain ⟨threads, hmove, rfl⟩ := Option.map_eq_some_iff.1 h
    obtain ⟨k, task, ⟨l, -, rfl⟩ | ⟨-, ret, rfl⟩⟩ := TwoStep.step_cases hmove <;>
      exact ⟨rfl, s.threads.setPhase_other (Ne.symm hu) _⟩
  | answer t =>
    simp only [Sessions.move] at h
    split at h
    · obtain ⟨p, -, h⟩ := Option.bind_eq_some_iff.1 h
      obtain ⟨threads, hmove, rfl⟩ := Option.map_eq_some_iff.1 h
      obtain ⟨k', task', ret', -, rfl⟩ := TwoStep.ret_cases hmove
      exact ⟨hparty t p (Ne.symm hu), s.threads.setPhase_other (Ne.symm hu) _⟩
    · cases h

/-- Every move lowers what is left of the session that moves. -/
theorem move_rank (h : s.move e mv = some s') : s'.rank mv.session < s.rank mv.session := by
  unfold Sessions.rank
  cases mv with
  | turn t =>
    obtain ⟨p, hp, rfl⟩ := Option.map_eq_some_iff.1 h
    have hless := Party.turn_rank hp
    show ((s.setParty t p).party t).rank + phaseRank (s.threads.phase t) < _
    rw [s.setParty_self]
    exact Nat.add_lt_add_right hless _
  | hear t =>
    obtain ⟨p, hp, rfl⟩ := Option.map_eq_some_iff.1 h
    have hless := Party.hear_rank hp
    show ((s.setParty t p).party t).rank + phaseRank (s.threads.phase t) < _
    rw [s.setParty_self]
    exact Nat.add_lt_add_right hless _
  | take t env =>
    obtain ⟨⟨call, p⟩, hp, h⟩ := Option.bind_eq_some_iff.1 h
    dsimp only at h
    split at h
    · next hcall =>
      obtain ⟨threads, hmove, rfl⟩ := Option.map_eq_some_iff.1 h
      obtain ⟨hidle, rfl⟩ := TwoStep.call_cases hmove
      have hrank := Party.take_rank hp
      show ((s.setParty t p).party t).rank + phaseRank ((s.threads.setPhase t _).phase t) <
        (s.party t).rank + phaseRank (s.threads.phase t)
      rw [s.setParty_self, Conc.setPhase_self, hidle, hrank]
      exact Nat.lt_succ_self _
    · cases h
  | step t =>
    obtain ⟨threads, hmove, rfl⟩ := Option.map_eq_some_iff.1 h
    obtain ⟨k, task, ⟨l, hphase, rfl⟩ | ⟨hphase, ret, rfl⟩⟩ := TwoStep.step_cases hmove
    · show (s.party t).rank + phaseRank ((s.threads.setPhase t _).phase t) <
        (s.party t).rank + phaseRank (s.threads.phase t)
      rw [Conc.setPhase_self, hphase]
      exact Nat.lt_succ_self _
    · show (s.party t).rank + phaseRank ((s.threads.setPhase t _).phase t) <
        (s.party t).rank + phaseRank (s.threads.phase t)
      rw [Conc.setPhase_self]
      refine Nat.add_lt_add_left ?_ _
      obtain hphase | ⟨l, hphase⟩ := hphase <;> rw [hphase]
      · show 1 < 3
        decide
      · show 1 < 2
        decide
  | answer t =>
    simp only [Sessions.move] at h
    split at h
    · next k task ret hphase =>
      obtain ⟨p, hp, h⟩ := Option.bind_eq_some_iff.1 h
      obtain ⟨threads, hmove, rfl⟩ := Option.map_eq_some_iff.1 h
      obtain ⟨k', task', ret', -, rfl⟩ := TwoStep.ret_cases hmove
      have hrank := Party.answer_rank hp
      show ((s.setParty t p).party t).rank + phaseRank ((s.threads.setPhase t _).phase t) <
        (s.party t).rank + phaseRank (s.threads.phase t)
      rw [s.setParty_self, Conc.setPhase_self, hphase, hrank]
      exact Nat.lt_succ_self _
    · cases h

/-- **What is left of a session** goes down with its moves, and with no others. -/
theorem ranked_move (e : T → MainEnv Unit) :
    Ranked (Sessions.move e) Motion.session Sessions.rank := by
  refine ⟨move_rank, fun {s mv s' u} h hu => ?_⟩
  obtain ⟨hparty, hphase⟩ := move_other h hu
  unfold Sessions.rank
  rw [hparty, hphase]

/-- A move ends at most one operation. -/
theorem move_log_le (h : s.move e mv = some s') :
    s'.threads.log.length ≤ s.threads.log.length + 1 := by
  cases mv with
  | turn t | hear t =>
    obtain ⟨p, -, rfl⟩ := Option.map_eq_some_iff.1 h
    exact Nat.le_succ _
  | take t env =>
    obtain ⟨⟨call, p⟩, -, h⟩ := Option.bind_eq_some_iff.1 h
    dsimp only at h
    split at h
    · obtain ⟨threads, hmove, rfl⟩ := Option.map_eq_some_iff.1 h
      obtain ⟨-, rfl⟩ := TwoStep.call_cases hmove
      exact Nat.le_succ _
    · cases h
  | step t =>
    obtain ⟨threads, hmove, rfl⟩ := Option.map_eq_some_iff.1 h
    obtain ⟨k, task, ⟨l, -, rfl⟩ | ⟨-, ret, rfl⟩⟩ := TwoStep.step_cases hmove
    · exact Nat.le_succ _
    · show (s.threads.log ++ [_]).length ≤ _
      rw [List.length_append]
      exact Nat.le_refl _
  | answer t =>
    simp only [Sessions.move] at h
    split at h
    · obtain ⟨p, -, h⟩ := Option.bind_eq_some_iff.1 h
      obtain ⟨threads, hmove, rfl⟩ := Option.map_eq_some_iff.1 h
      obtain ⟨k', task', ret', -, rfl⟩ := TwoStep.ret_cases hmove
      exact Nat.le_succ _
    · cases h

end Ranks

/-! ## A move that can be made -/

/-- Calls that differ only behind their seats are valid alike. -/
theorem valid_of_cut {c c' : Call} (h : c'.cut = c.cut) (hc : c.Valid) : c'.Valid := by
  cases c with
  | emsReserve id args =>
    cases c' with
    | emsReserve id' args' =>
      obtain ⟨-, hargs⟩ := Call.emsReserve.inj h
      obtain ⟨hnum, hxs, hys⟩ := SeatArgs.mk.inj hargs
      have hlen : ∀ {xs xs' : List UInt64}, xs'.take args'.num_seats.toNat =
          xs.take args.num_seats.toNat → args.num_seats.toNat ≤ xs.length →
          args'.num_seats.toNat ≤ xs'.length := fun {xs xs'} htake hle => by
        have hlength := congrArg List.length htake
        rw [List.length_take, List.length_take, Nat.min_eq_left hle, ← hnum] at hlength
        exact hlength ▸ Nat.min_le_right _ _
      exact ⟨hlen hxs hc.1, hlen hys hc.2⟩
    | _ => exact trivial
  | _ => cases c' <;> first | exact trivial | cases h

theorem fits_of_cut {c c' : Call} (h : c'.cut = c.cut) (hc : c.Fits) : c'.Fits := by
  cases c with
  | emsCreate id rows cols =>
    cases c' with
    | emsCreate id' rows' cols' =>
      obtain ⟨-, rfl, rfl⟩ := Call.emsCreate.inj h
      exact hc
    | _ => exact trivial
  | _ => cases c' <;> first | exact trivial | cases h

section Runs

variable {T : Type} [DecidableEq T] {e : T → MainEnv Unit} {m₀ : Mem} {env : Env} {bs : Bytes}
  {s s' : Sessions T} {t : T}

/-- **No session has to wait for another one**: unless it is at the end of its job file, it can
    make its next move. -/
theorem Good.can_move (he : ∀ t, Client.Main.Plain (e t))
    (hinit : runOp (emsInit env) {} = some ((0, bs), m₀)) (hg : Good e m₀ s)
    (hfew : Few s.threads.log) {r : List Directive × Bytes}
    (hjobs : commands (e t).stack (e t).jobs = .ok r) :
    (s.party t).standing = .atEnd ∨
      ∃ mv s', mv.session = t ∧ s.move e mv = some s' := by
  obtain ⟨hreliable, hlength, ds, hread, -, hat⟩ := hg.stands hfew t
  cases hstanding : (s.party t).standing with
  | running =>
    refine Or.inr ⟨.turn t, ?_⟩
    -- the parser does not stop at what is left of the file
    obtain ⟨next, hnext⟩ : ∃ next, (nextDirective (e t).stack).run (s.party t).program.in_file =
        .ok next := by
      cases hnext : (nextDirective (e t).stack).run (s.party t).program.in_file with
      | ok next => exact ⟨next, rfl⟩
      | error stop =>
        rw [hread.commands_eq, commands_error hnext] at hjobs
        cases hjobs
    obtain ⟨pause, program, hrun, -⟩ := run_of_wp (Main.wp_turn (E := fun _ => False) (he t)
      hreliable fun stop hstop => by
        rw [hnext] at hstop
        cases hstop)
    have hturn : ∃ p, (s.party t).turn (e t) = some p := by
      unfold Party.turn
      rw [hstanding]
      dsimp only
      rw [hrun]
      cases pause <;> exact ⟨_, rfl⟩
    obtain ⟨p, hp⟩ := hturn
    refine ⟨s.setParty t p, rfl, ?_⟩
    show ((s.party t).turn (e t)).map (s.setParty t) = _
    rw [hp]
    rfl
  | asked c =>
    rw [hstanding] at hat
    obtain ⟨hidle, -, hc, -, id, hrequest⟩ := hat
    obtain ⟨call, p, htake, hcut, -⟩ := Party.take_request hc hstanding hrequest
    have hcall : call.Valid ∧ call.Fits := ⟨valid_of_cut hcut hc.valid, fits_of_cut hcut hc.fits⟩
    have hmove : ∃ threads, server.move s.threads (.call t ⟨call, {}, hcall.1, hcall.2⟩) =
        some threads := by
      simp only [TwoStep.move, hidle]
      exact ⟨_, rfl⟩
    obtain ⟨threads, hmove⟩ := hmove
    refine Or.inr ⟨.take t {}, { s.setParty t p with threads }, rfl, ?_⟩
    simp only [Sessions.move, htake, Option.bind_some]
    rw [dif_pos hcall, hmove]
    rfl
  | served c =>
    rw [hstanding] at hat
    obtain ⟨-, ⟨⟨k, task, -, hphase⟩, -⟩ | ⟨k, task, ret, hphase, -⟩⟩ := hat
    · obtain ⟨ms, hms⟩ := hg.reached
      obtain ⟨l, hrep₀⟩ := rep_of_emsInit hinit
      have hsound : Sound l m₀ := ⟨[], hrep₀, by simp [Fitting]⟩
      have hok := Conc.linearization_of_run (server_stable l) hsound hms
      obtain ⟨threads, hmove⟩ := step_defined hok (t := t) <| by
        obtain hphase | ⟨p, hphase⟩ := hphase
        · exact Or.inl ⟨k, task, hphase⟩
        · exact Or.inr ⟨k, task, p, hphase⟩
      have hstep : s.move e (.step t) = some { s with
          threads, log := s.log ++ (threads.log.drop s.threads.log.length).map (t, ·) } := by
        simp only [Sessions.move, hmove]
        rfl
      exact Or.inr ⟨.step t, _, rfl, hstep⟩
    · have hanswer : ∃ p, (s.party t).answer (task.call.response ret) = some p := by
        unfold Party.answer
        rw [hstanding]
        exact ⟨_, rfl⟩
      have hmove : ∃ threads, server.move s.threads (.ret t) = some threads := by
        simp only [TwoStep.move, hphase]
        exact ⟨_, rfl⟩
      obtain ⟨p, hp⟩ := hanswer
      obtain ⟨threads, hmove⟩ := hmove
      refine Or.inr ⟨.answer t, { s.setParty t p with threads }, rfl, ?_⟩
      simp only [Sessions.move, hphase, hp, hmove]
      rfl
  | answered c =>
    rw [hstanding] at hat
    obtain ⟨-, hrequest, d, hlast, hresponse⟩ := hat
    obtain ⟨-, reply, -, htold⟩ := hlast.told (hg.tells hinit hfew t)
    obtain ⟨-, -, -, hcut⟩ := hlast
    obtain ⟨p, hhear, -⟩ :=
      Party.hear_told (he t) hreliable hstanding htold hcut hrequest hresponse
    refine Or.inr ⟨.hear t, s.setParty t p, rfl, ?_⟩
    show ((s.party t).hear (e t)).map (s.setParty t) = _
    rw [hhear]
    rfl
  | atEnd => exact Or.inl rfl

/-- What is left of a session that starts. -/
theorem Starts.rank {e : MainEnv Unit} {p : Party} (h : Starts e p) :
    p.rank = 6 * e.jobs.length + 1 := by
  unfold Party.rank
  rw [h.standing, h.file]
  rfl

/-- **Every session comes to its end.** In a run of any number of sessions, a session makes at most six
    moves for each byte of its job file and one more. And wherever the run has come to, a session
    whose file says what it does can make moves that bring it to the end of the file, without any
    other session moving, as long as the moves it has left and the operations done so far are fewer
    than `2 ^ 32` together. -/
theorem session_finishes {start : T → Party} (he : ∀ t, Client.Main.Plain (e t))
    (hstart : ∀ t, Starts (e t) (start t)) (hinit : runOp (emsInit env) {} = some ((0, bs), m₀))
    {ms : List (Motion T)} (h : exec (Sessions.move e) (Sessions.init m₀ start) ms = some s) (t : T) :
    ms.countP (fun mv => mv.session = t) + s.rank t ≤ 6 * (e t).jobs.length + 1 ∧
    ∀ r, commands (e t).stack (e t).jobs = .ok r → s.threads.log.length + s.rank t < 2 ^ 32 →
      ∃ ms' s', (∀ mv ∈ ms', mv.session = t) ∧ exec (Sessions.move e) s ms' = some s' ∧
        (s'.party t).standing = .atEnd := by
  have hranked := ranked_move e
  refine ⟨?_, fun r hjobs hroom => ?_⟩
  · have hcount := hranked.count_le t h
    have hbegin : (Sessions.init m₀ start).rank t = 6 * (e t).jobs.length + 1 := (hstart t).rank
    rwa [hbegin] at hcount
  · -- there is room for the operations that the session will still do
    have hlive : ∀ s : Sessions T, (Good e m₀ s ∧ s.threads.log.length + s.rank t < 2 ^ 32) →
        (s.party t).standing = .atEnd ∨ ∃ mv s', mv.session = t ∧ s.move e mv = some s' ∧
          (Good e m₀ s' ∧ s'.threads.log.length + s'.rank t < 2 ^ 32) := by
      intro s ⟨hg, hroom⟩
      have hshort : s.threads.log.length < 2 ^ 32 :=
        Nat.lt_of_le_of_lt (Nat.le_add_right _ _) hroom
      obtain hend | ⟨mv, s', hsession, hmove⟩ :=
        hg.can_move he hinit (few_of_short hshort) hjobs
      · exact Or.inl hend
      · have hlog := move_log_le hmove
        have hless := hsession ▸ move_rank hmove
        exact Or.inr ⟨mv, s', hsession, hmove, good_move he hinit hg hmove, by omega⟩
    obtain ⟨ms', s', hown, hrun, -, hend⟩ :=
      hranked.finishes hlive ⟨good_of_run he hstart hinit h, hroom⟩
    exact ⟨ms', s', hown, hrun, hend⟩

end Runs

/-- The client that has created the event has not heard of it yet, and the other one's worker stands
    in the middle of its operation. -/
theorem session_finishes_visit : ∃ s : Sessions Bool,
    exec (Sessions.move visitors) (Sessions.init freshMem arrivals) (visit.take 7) = some s ∧
    (visit.take 7).countP (fun mv => mv.session = true) + s.rank true ≤
      6 * (visitors true).jobs.length + 1 ∧
    ∃ ms' s', (∀ mv ∈ ms', mv.session = true) ∧ exec (Sessions.move visitors) s ms' = some s' ∧
      (s'.party true).standing = .atEnd := by
  have hjobs : commands (visitors true).stack (visitors true).jobs =
      .ok ([.call (.emsCreate 7 1 2)], []) := by decide +kernel
  obtain ⟨s, hs, hroom⟩ := (Option.any_eq_true _ _).1 (by decide +kernel :
    (exec (Sessions.move visitors) (Sessions.init freshMem arrivals) (visit.take 7)).any
      (fun s => s.threads.log.length + s.rank true < 2 ^ 32) = true)
  obtain ⟨hcount, hfinish⟩ := session_finishes visitors_plain arrivals_start emsInit_freshMem hs true
  exact ⟨s, hs, hcount, hfinish _ hjobs (of_decide_eq_true hroom)⟩

end EventServer
