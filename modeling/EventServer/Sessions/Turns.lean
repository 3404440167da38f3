import EventServer.Sessions.Moves

/-
  What the two sides of a session do in a move, where nothing fails on the pipes.

  One lemma for each move of a party says everything it can do: `turn_cases` for the client at its job
  file, `take_request` for the worker that finds a request, `hear_told` for the client that finds a
  response.
-/

namespace EventServer

open Lib Client

/-! ## The client -/

namespace Client.Main

section

variable {σ : Type} {e : MainEnv σ} {s : Program σ} {E : Halt × Program σ → Prop}

/-- What a turn does with the command `d`. -/
inductive Turned (s : Program σ) : Directive → Pause → Program σ → Prop
  | atEnd {s' : Program σ} (hprinted : s'.printed = s.printed) (hprocess : s'.process = s.process) :
    Turned s .eoc .atEnd s'
  | asked {c : Call} {s' : Program σ} (hc : Issuable c) (hout : s'.stdout = s.stdout)
    (herr : s'.stderr = s.stderr)
    (hsent : Progress s.process (c.request s.process.session_id) [] [] s'.process) :
    Turned s (.call c) (.asked c) s'
  | next {d : Directive} {s' : Program σ} (hd : d.calls = []) (hend : d ≠ .eoc)
    (hprinted : s'.printed = s.printed ++ d.printed) (hprocess : s'.process = s.process) :
    Turned s d .next s'

theorem printed_print (s : Program σ) (text : Bytes) :
    ({ s with stdout := s.stdout ++ text } : Program σ).printed = s.printed ++ { stdout := text } := by
  simp [Program.printed, Printed.append_def]

theorem printed_printError (s : Program σ) (text : Bytes) :
    ({ s with stderr := s.stderr ++ text } : Program σ).printed = s.printed ++ { stderr := text } := by
  simp [Program.printed, Printed.append_def]

/-- A command that is not a call only prints. -/
theorem wp_execute_printed {d : Directive} (hd : d.calls = []) :
    wp (execute e d) (fun _ s' => s'.printed = s.printed ++ d.printed ∧ s'.process = s.process ∧
      s'.in_file = s.in_file) E s := by
  have hsame : s.printed = s.printed ++ {} := (Printed.append_nil _).symm
  cases d with
  | call c => cases hd
  | wait delay =>
    rw [execute, wp_ite]
    refine ⟨fun h => ⟨?_, rfl, rfl⟩, fun h => ⟨?_, rfl, rfl⟩⟩
    · rw [Directive.printed_wait, if_pos h]
      exact printed_print s _
    · rw [Directive.printed_wait, if_neg h]
      exact hsame
  | help => exact ⟨printed_print s _, rfl, rfl⟩
  | invalid => exact ⟨printed_printError s _, rfl, rfl⟩
  | empty | eoc => exact ⟨hsame, rfl, rfl⟩

/-- A turn reads a command and does it, up to the response if it is a call. -/
theorem wp_turn (he : Plain e) (hs : s.process.Reliable)
    (hstop : ∀ stop, (nextDirective e.stack).run s.in_file = .error stop → E (.stopped stop, s)) :
    wp (turn e) (fun pause s' => ∃ d, (nextDirective e.stack).run s.in_file = .ok (d, s'.in_file) ∧
      Turned s d pause s') E s := by
  unfold turn
  rw [wp_bind, wp_get]
  cases hnext : (nextDirective e.stack).run s.in_file with
  | error stop => exact hstop stop hnext
  | ok r =>
    obtain ⟨d, rest⟩ := r
    have hother : d.calls = [] → d ≠ .eoc → wp (do
        execute e d
        return Pause.next) (fun pause s' => ∃ d',
          (Except.ok (d, rest) : Except Stop (Directive × Bytes)) = .ok (d', s'.in_file) ∧
          Turned s d' pause s') E { s with in_file := rest } := fun hd hend => by
      rw [wp_bind]
      refine wp_mono (wp_execute_printed hd) (fun _ s' h => ?_) fun _ h => h
      obtain ⟨hprinted, hprocess, rfl⟩ := h
      exact ⟨d, rfl, .next hd hend hprinted hprocess⟩
    simp only [wp_bind, wp_set]
    cases d with
    | eoc => exact ⟨_, rfl, .atEnd rfl rfl⟩
    | call c =>
      have hc : Issuable c := nextDirective_issues hnext c (List.mem_singleton_self c)
      rw [wp_bind]
      refine wp_mono (wp_ask he hc.valid hc.small hs) (fun asked s' h => ?_) fun _ h => h
      obtain ⟨rfl, p, rfl, hp⟩ := h
      exact ⟨_, rfl, .asked hc rfl rfl hp⟩
    | wait | help | empty | invalid => exact hother rfl Directive.noConfusion

/-- Which response is awaited does not depend on the seats. -/
theorem receiveResponse_cut (pipes : Pipes) (respond : Api σ Unit) (c : Call) :
    receiveResponse pipes respond c = receiveResponse pipes respond c.cut := by
  cases c <;> rfl

/-- Hearing what the call was told. -/
theorem wp_hear_told (he : Plain e) {c : Call} {task : Task} {ret : Int32 × Bytes} {reply : Reply}
    (htells : Tells task ret reply) (hcut : task.call.cut = c.cut) (hs : s.process.Reliable)
    (hbytes : s.process.response_pipe.bytes = task.call.response ret) :
    wp (hear e c) (fun _ s' => s'.in_file = s.in_file ∧ s'.printed = s.printed ++ reply.printed c ∧
      s'.process.Reliable ∧ s'.process.response_pipe.bytes = [] ∧
      s'.process.request_pipe.written = s.process.request_pipe.written) E s := by
  have hsame : receiveResponse {} (return () : Api σ Unit) c =
      receiveResponse {} (return ()) task.call := by
    rw [receiveResponse_cut, ← hcut, ← receiveResponse_cut]
  have hreceive : wp (receiveResponse {} (return ()) c) (fun code p => code = reply.code ∧
      Progress s.process [] (task.call.response ret) reply.text p) (fun _ => False) s.process :=
    hsame ▸ wp_receiveResponse_told htells hs hbytes fun p hp => ⟨rfl, hp⟩
  obtain ⟨code, p, hrun, rfl, hp⟩ := run_of_wp hreceive
  have hempty : p.response_pipe.bytes = [] := by
    have hgot := hp.got
    rw [hbytes] at hgot
    exact List.self_eq_append_right.1 hgot
  have hsent : p.request_pipe.written = s.process.request_pipe.written :=
    hp.sent.trans (List.append_nil _)
  unfold hear returned
  simp only [wp_bind, wp_get, he.pipes, he.respond, hrun, wp_set, wp_ite]
  refine ⟨fun hcode => ⟨rfl, ?_, hp.reliable, hempty, hsent⟩,
    fun hcode => ⟨rfl, ?_, hp.reliable, hempty, hsent⟩⟩ <;>
    simp [Program.printed, Reply.printed, Printed.append_def, hp.printed, hcode]

end

end Client.Main

/-! ## The parties -/

namespace Party

variable {e : MainEnv Unit} {p p' : Party}

/-- Both pipes are empty. -/
structure Quiet (p : Party) : Prop where
  request : p.program.process.request_pipe.written = []
  response : p.program.process.response_pipe.bytes = []

open Client.Main

/-- The client has read a command, and has done it or has asked for it. -/
theorem turn_cases (he : Plain e) (hs : p.program.process.Reliable) (hquiet : p.Quiet)
    (h : p.turn e = some p') : p.standing = .running ∧ p'.program.process.Reliable ∧
      p'.program.process.response_pipe.bytes = [] ∧
      ∃ d, (nextDirective e.stack).run p.program.in_file = .ok (d, p'.program.in_file) ∧
        ((d = .eoc ∧ p'.standing = .atEnd ∧ p'.program.printed = p.program.printed ∧ p'.Quiet) ∨
        (∃ c id, d = .call c ∧ Issuable c ∧ p'.standing = .asked c ∧
          p'.program.printed = p.program.printed ∧
          p'.program.process.request_pipe.written = c.request id) ∨
        (d.calls = [] ∧ d ≠ .eoc ∧ p'.standing = .running ∧
          p'.program.printed = p.program.printed ++ d.printed ∧ p'.Quiet)) := by
  unfold turn at h
  cases hstanding : p.standing with
  | running =>
    rw [hstanding] at h
    cases hrun : (Main.turn e).run p.program with
    | error stop =>
      rw [hrun] at h
      cases h
    | ok r =>
      obtain ⟨pause, program⟩ := r
      rw [hrun] at h
      obtain ⟨d, hnext, hturned⟩ :=
        wp_run_ok (wp_turn (E := fun _ => True) he hs fun _ _ => trivial) hrun
      have hsame : program.process = p.program.process → program.process.Reliable ∧
          program.process.request_pipe.written = [] ∧ program.process.response_pipe.bytes = [] :=
        fun hprocess => by
          rw [hprocess]
          exact ⟨hs, hquiet.request, hquiet.response⟩
      cases hturned with
      | atEnd hprinted hprocess =>
        obtain rfl := Option.some.inj h
        obtain ⟨hreliable, hrequest, hresponse⟩ := hsame hprocess
        exact ⟨rfl, hreliable, hresponse, .eoc, hnext,
          Or.inl ⟨rfl, rfl, hprinted, hrequest, hresponse⟩⟩
      | @asked c _ hc hout herr hsent =>
        obtain rfl := Option.some.inj h
        have hrequest := hsent.sent
        rw [hquiet.request, List.nil_append] at hrequest
        have hresponse : program.process.response_pipe.bytes = [] := by
          have hgot := hsent.got
          rw [hquiet.response] at hgot
          exact hgot.symm
        have hprinted : program.printed = p.program.printed := by
          unfold Program.printed
          rw [hsent.printed, List.append_nil, hout, herr]
        exact ⟨rfl, hsent.reliable, hresponse, .call c, hnext,
          Or.inr (Or.inl ⟨c, _, rfl, hc, rfl, hprinted, hrequest⟩)⟩
      | next hd hend hprinted hprocess =>
        obtain rfl := Option.some.inj h
        obtain ⟨hreliable, hrequest, hresponse⟩ := hsame hprocess
        exact ⟨rfl, hreliable, hresponse, d, hnext,
          Or.inr (Or.inr ⟨hd, hend, rfl, hprinted, hrequest, hresponse⟩)⟩
  | _ =>
    rw [hstanding] at h
    cases h

/-- A request of the client as the worker reads it, whatever its variables hold. -/
theorem receive_request (v : EventServer.Locals) {c : Call} (hc : Issuable c) (id : Int32) :
    ∃ op_code bs call, c.request id = op_code :: bs ∧ op_code ≠ 2 ∧
      (op_code = 4 → (v.receive 4 bs).seats ≤ MAX_RESERVATION_SIZE) ∧
      (v.receive op_code bs).operandSize op_code = bs.length ∧
      (v.receive op_code bs).call op_code = some call ∧ call.cut = c.cut := by
  obtain ⟨op_code, bs, call, hbytes, hop, hcomplete, hcut, hseats⟩ :=
    completeRequest_request id hc.valid hc.small
  have hroom : op_code = 4 → (v.receive 4 bs).seats ≤ MAX_RESERVATION_SIZE := fun h4 => by
    rw [receive_seats _ (hseats h4).1]
    exact (hseats h4).2
  obtain ⟨hsize, -, hcall⟩ := receive_of_complete v hcomplete hroom
  obtain ⟨call', hcall', hcut'⟩ := Option.map_eq_some_iff.1 hcall
  exact ⟨op_code, bs, call', hbytes, hop, hroom, hsize, hcall', hcut'.trans hcut⟩

section Taking

variable {c : Call} {id : Int32}

/-- What the worker takes when the bytes it finds are a request: the opcode and the operands. -/
theorem take_eq {bs : Bytes} {op_code : UInt8} {call : Call} (hstanding : p.standing = .asked c)
    (hrequest : p.program.process.request_pipe.written = op_code :: bs)
    (hcall : (p.locals.receive op_code bs).call op_code = some call) :
    p.take = some (call, { p.setRequest (bs.drop
      ((p.locals.receive op_code bs).operandSize op_code)) with
      locals := p.locals.receive op_code bs, standing := .served c }) := by
  unfold take
  rw [hstanding, hrequest]
  dsimp only
  rw [hcall]
  rfl

/-- The worker that finds a request takes all of it, and what it takes is the client's call. -/
theorem take_request (hc : Issuable c) (hstanding : p.standing = .asked c)
    (hrequest : p.program.process.request_pipe.written = c.request id) :
    ∃ call p', p.take = some (call, p') ∧ call.cut = c.cut ∧ p'.standing = .served c ∧
      p'.program = (p.setRequest []).program := by
  obtain ⟨op_code, bs, call, hbytes, -, -, hsize, hcall, hcut⟩ := receive_request p.locals hc id
  have htake := take_eq hstanding (hrequest.trans hbytes) hcall
  rw [hsize, List.drop_length] at htake
  exact ⟨call, _, htake, hcut, rfl, rfl⟩

/-- **A round of `handle_client` is what the worker takes**, and the serving of it. -/
theorem wp_handleNext_take {s : Session} {E : Stop → Prop} {Q : Option Ending → Session → Prop}
    (hc : Issuable c) (hstanding : p.standing = .asked c)
    (hrequest : p.program.process.request_pipe.written = c.request id)
    (hbytes : s.request_pipe.bytes = c.request id) (hcalm : Calm s.request_pipe.turns)
    (hlocals : s.locals = p.locals)
    (h : ∀ call p' ts, p.take = some (call, p') → Calm ts →
      wp (Serve.perform (some call)) (fun _ service => Q none { s with
        service := service
        request_pipe := { s.request_pipe with
          bytes := p'.program.process.request_pipe.written, turns := ts }
        locals := p'.locals }) E s.service) : wp handleNext Q E s := by
  obtain ⟨op_code, bs, call, hrequest', hop, hroom, hsize, hcall, -⟩ :=
    receive_request p.locals hc id
  have htake := take_eq hstanding (hrequest.trans hrequest') hcall
  refine wp_handleNext hcalm (hbytes.trans hrequest') hop ?_ ?_ fun ts hts => ?_
  · rw [hlocals]
    exact hroom
  · rw [hlocals, hsize]
    exact Or.inl (Nat.le_refl _)
  · have hperform := h call _ ts htake hts
    rw [hlocals, hcall]
    exact hperform

end Taking

/-- The client that finds a response prints what its call was told. -/
theorem hear_told {c : Call} {task : Task} {ret : Int32 × Bytes} {reply : Reply} (he : Plain e)
    (hs : p.program.process.Reliable) (hstanding : p.standing = .answered c)
    (htells : Tells task ret reply) (hcut : task.call.cut = c.cut)
    (hrequest : p.program.process.request_pipe.written = [])
    (hresponse : p.program.process.response_pipe.bytes = task.call.response ret) :
    ∃ p', p.hear e = some p' ∧ p'.standing = .running ∧ p'.program.process.Reliable ∧ p'.Quiet ∧
      p'.program.in_file = p.program.in_file ∧
      p'.program.printed = p.program.printed ++ reply.printed c := by
  obtain ⟨_, program, hrun, hfile, hprinted, hreliable, hempty, hsent⟩ :=
    run_of_wp (wp_hear_told he htells hcut hs hresponse)
  have hhear : p.hear e = some { p with program, standing := .running } := by
    unfold hear
    rw [hstanding]
    dsimp only
    rw [hrun]
  exact ⟨_, hhear, rfl, hreliable, ⟨hsent.trans hrequest, hempty⟩, hfile, hprinted⟩

end Party

end EventServer
