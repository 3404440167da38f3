import EventServer.Sessions.Turns

/-
  What every client has printed, at any moment of any run.

  `Stands` is the invariant of one session: where its worker is, what it has done, and what its client
  has printed for the replies of the office to that. Every move of the session keeps it
  (`stands_turn` and the others), and the moves of other sessions do not touch it. So in every run
  of any number of sessions there is one order of all calls, a linearization, such that each
  client has printed what its commands print for the replies of the box office to the calls
  in that order (`sessions_refine_office`).
-/

namespace EventServer

open Lib Client

/-! ## The entries of one session -/

section Own

variable {T α β : Type} [DecidableEq T] {t u : T}

/-- The entries of the session `t`. -/
def own (t : T) (l : List (T × α)) : List α :=
  l.filterMap fun x => if x.1 = t then some x.2 else none

theorem own_append (t : T) (l l' : List (T × α)) : own t (l ++ l') = own t l ++ own t l' :=
  List.filterMap_append

theorem own_cons_self (t : T) (a : α) (l : List (T × α)) : own t ((t, a) :: l) = a :: own t l := by
  simp [own]

theorem own_cons_other (h : u ≠ t) (a : α) (l : List (T × α)) : own t ((u, a) :: l) = own t l := by
  simp [own, h]

theorem own_self (t : T) (a : α) : own t [(t, a)] = [a] := own_cons_self t a []

theorem own_other (h : u ≠ t) (a : α) : own t [(u, a)] = [] := own_cons_other h a []

/-- What corresponds in the whole corresponds in each part. -/
theorem forall₂_own {R : α → β → Prop} {l : List (T × α)} {bs : List β}
    (h : List.Forall₂ R (l.map Prod.snd) bs) (t : T) :
    List.Forall₂ R (own t l) (own t ((l.map Prod.fst).zip bs)) := by
  induction l generalizing bs with
  | nil => exact .nil
  | cons x l ih =>
    cases h with
    | @cons _ b _ bs hx hrest =>
      have hrec := ih hrest
      unfold own at hrec ⊢
      by_cases ht : x.1 = t
      · simpa [ht] using ⟨hx, hrec⟩
      · simpa [ht] using hrec

end Own

/-! ## The replies -/

theorem Office.answers_append (o : Office) (tasks tasks' : List Task) :
    o.answers (tasks ++ tasks') = ((o.answers tasks).1 ++ ((o.answers tasks).2.answers tasks').1,
      ((o.answers tasks).2.answers tasks').2) := by
  induction tasks generalizing o with
  | nil => rfl
  | cons task tasks ih => simp only [List.cons_append, Office.answers, ih]

theorem Office.length_answers (o : Office) (tasks : List Task) :
    (o.answers tasks).1.length = tasks.length := by
  induction tasks generalizing o with
  | nil => rfl
  | cons task tasks ih => simp only [Office.answers, List.length_cons, ih]

/-- The replies of the office to the calls of a log, with the sessions they are for. -/
def repliesTo {T : Type} (log : List (T × Completed)) : List (T × Reply) :=
  (log.map Prod.fst).zip (Office.empty.answers (log.map fun x => x.2.op)).1

theorem repliesTo_snoc {T : Type} (log : List (T × Completed)) (t : T) (d : Completed) :
    ∃ reply, repliesTo (log ++ [(t, d)]) = repliesTo log ++ [(t, reply)] := by
  refine ⟨(d.op.serve (Office.empty.answers (log.map fun x => x.2.op)).2).1, ?_⟩
  unfold repliesTo
  rw [List.map_append, List.map_append, Office.answers_append, List.zip_append]
  · rfl
  · rw [Office.length_answers, List.length_map, List.length_map]

/-! ## One session -/

/-- The calls that have been done are the given ones. -/
def Follows (done : List Completed) (calls : List Call) : Prop :=
  done.map (fun d => d.op.call.cut) = calls.map Call.cut

theorem Follows.length_eq {done : List Completed} {calls : List Call} (h : Follows done calls) :
    done.length = calls.length := by
  have := congrArg List.length h
  rwa [List.length_map, List.length_map] at this

theorem Follows.snoc {done : List Completed} {calls : List Call} (h : Follows done calls)
    {d : Completed} {c : Call} (hd : d.op.call.cut = c.cut) : Follows (done ++ [d]) (calls ++ [c]) := by
  unfold Follows at h ⊢
  rw [List.map_append, List.map_append, h]
  exact congrArg (fun c => calls.map Call.cut ++ [c]) hd

/-- The worker is in the call. -/
def InCall (phase : Phase Task Ptr (Int32 × Bytes)) (c : Call) : Prop :=
  ∃ k task, task.call.cut = c.cut ∧ (phase = .called k task ∨ ∃ l, phase = .found k task l)

/-- The last operation of the session was for the call. -/
def Last (done : List Completed) (calls : List Call) (c : Call) (d : Completed) : Prop :=
  ∃ before, done = before ++ [d] ∧ Follows before calls ∧ d.op.call.cut = c.cut

/-- What corresponds to the last operation is the last entry. -/
theorem Last.told {done : List Completed} {calls : List Call} {c : Call} {d : Completed} {α : Type}
    {R : Completed → α → Prop} {as : List α} (h : Last done calls c d)
    (hall : List.Forall₂ R done as) : ∃ as' a, as = as' ++ [a] ∧ R d a := by
  obtain ⟨before, rfl, -⟩ := h
  have hreverse := List.rel_reverse hall
  rw [List.reverse_append, List.reverse_singleton, List.singleton_append,
    List.forall₂_cons_left_iff] at hreverse
  obtain ⟨a, rest, ha, -, has⟩ := hreverse
  refine ⟨rest.reverse, a, ?_, ha⟩
  rw [← List.reverse_cons, ← has, List.reverse_reverse]

/-- Where the worker and the two pipes are. -/
def At (phase : Phase Task Ptr (Int32 × Bytes)) (done : List Completed) (calls : List Call)
    (p : Party) : Standing → Prop
  | .running => phase = .idle ∧ p.Quiet ∧ Follows done calls
  | .asked c => phase = .idle ∧ Follows done calls ∧ Issuable c ∧
      p.program.process.response_pipe.bytes = [] ∧
      ∃ id, p.program.process.request_pipe.written = c.request id
  | .served c => p.Quiet ∧ (InCall phase c ∧ Follows done calls ∨
      ∃ k task ret, phase = .finished k task ret ∧ Last done calls c ⟨k, task, ret⟩)
  | .answered c => phase = .idle ∧ p.program.process.request_pipe.written = [] ∧
      ∃ d, Last done calls c d ∧ p.program.process.response_pipe.bytes = d.op.call.response d.ret
  | .atEnd => phase = .idle ∧ p.Quiet ∧ Follows done calls ∧ p.program.in_file = []

/-- A session stands well: its client has done the commands `ds` of its job file, waits for at most
    one more, and has printed what `ds` print for the replies. -/
structure Stands (e : MainEnv Unit) (phase : Phase Task Ptr (Int32 × Bytes)) (done : List Completed)
    (replies : List Reply) (p : Party) : Prop where
  reliable : p.program.process.Reliable
  length : replies.length = done.length
  agrees : ∃ ds, ReadOff e.stack e.jobs (ds ++ p.standing.call.map .call) p.program.in_file ∧
    p.program.printed = echo ds replies ∧ At phase done (callsOf ds) p p.standing

section Stands

variable {e : MainEnv Unit} {phase : Phase Task Ptr (Int32 × Bytes)} {done : List Completed}
  {replies : List Reply} {p p' : Party}

theorem callsOf_other {ds : List Directive} {d : Directive} (hd : d.calls = []) :
    callsOf (ds ++ [d]) = callsOf ds := by
  rw [callsOf_append, callsOf_cons, hd]
  exact List.append_nil _

theorem callsOf_call (ds : List Directive) (c : Call) :
    callsOf (ds ++ [.call c]) = callsOf ds ++ [c] := by
  rw [callsOf_append]
  rfl

/-- The client goes on with its job file. -/
theorem stands_turn (he : Client.Main.Plain e) (hs : Stands e phase done replies p)
    (h : p.turn e = some p') : Stands e phase done replies p' := by
  obtain ⟨hreliable, hlength, ds, hread, hprinted, hat⟩ := hs
  have hrunning : p.standing = .running := by
    cases hstanding : p.standing <;> first | rfl | (simp [Party.turn, hstanding] at h)
  rw [hrunning] at hat hread
  have hread' : ReadOff e.stack e.jobs ds p.program.in_file := by
    rwa [Standing.call, List.map_nil, List.append_nil] at hread
  obtain ⟨hidle, hquiet, hfollows⟩ := hat
  have hcalls := hfollows.length_eq
  obtain ⟨-, hreliable', hresponse, d, hnext, hcase⟩ := Party.turn_cases he hreliable hquiet h
  refine ⟨hreliable', hlength, ?_⟩
  obtain ⟨rfl, hstanding, hprinted', hquiet'⟩ | ⟨c, id, rfl, hc, hstanding, hprinted', hrequest⟩ |
    ⟨hd, hend, hstanding, hprinted', hquiet'⟩ := hcase
  · -- the end of the file reads nothing
    obtain ⟨hfile, -, hfile'⟩ | ⟨ch, bs, -, hend, -⟩ := nextDirective_cases hnext
    · rw [hfile] at hread
      rw [hstanding, hfile']
      exact ⟨ds, hread, hprinted'.trans hprinted, hidle, hquiet', hfollows, hfile'⟩
    · exact absurd rfl hend
  · rw [hstanding]
    exact ⟨ds, hread'.next hnext Directive.noConfusion, hprinted'.trans hprinted, hidle, hfollows, hc,
      hresponse, id, hrequest⟩
  · rw [hstanding]
    refine ⟨ds ++ [d], ?_, ?_, hidle, hquiet', ?_⟩
    · rw [Standing.call, List.map_nil, List.append_nil]
      exact hread'.next hnext hend
    · rw [hprinted', hprinted, echo_other hd (hlength.trans hcalls).ge]
    · rw [callsOf_other hd]
      exact hfollows

/-- The worker takes the request. -/
theorem stands_take (hs : Stands e phase done replies p) {call : Call} (h : p.take = some (call, p'))
    {k : ℕ} {task : Task} (htask : task.call = call) :
    Stands e (.called k task) done replies p' := by
  obtain ⟨hreliable, hlength, ds, hread, hprinted, hat⟩ := hs
  obtain ⟨c, hasked⟩ : ∃ c, p.standing = .asked c := by
    cases hstanding : p.standing <;> first | exact ⟨_, rfl⟩ | (simp [Party.take, hstanding] at h)
  rw [hasked] at hat hread
  obtain ⟨hidle, hfollows, hc, hresponse, id, hrequest⟩ := hat
  obtain ⟨call', p'', htake, hcut, hstanding, hprogram⟩ := Party.take_request hc hasked hrequest
  obtain ⟨rfl, rfl⟩ := Prod.mk.inj (Option.some.inj (htake.symm.trans h))
  refine ⟨?_, hlength, ds, ?_, ?_, ?_⟩
  · rw [hprogram]
    exact { hreliable with }
  · rw [hprogram, hstanding]
    exact hread
  · rw [hprogram]
    exact hprinted
  · rw [hstanding]
    refine ⟨⟨?_, ?_⟩, Or.inl ⟨⟨k, task, htask ▸ hcut, Or.inl rfl⟩, hfollows⟩⟩
    · rw [hprogram]
      rfl
    · rw [hprogram]
      exact hresponse

/-- The worker looks an event up. -/
theorem stands_find {k : ℕ} {task : Task} (hs : Stands e (.called k task) done replies p) (l : Ptr) :
    Stands e (.found k task l) done replies p := by
  obtain ⟨hreliable, hlength, ds, hread, hprinted, hat⟩ := hs
  refine ⟨hreliable, hlength, ds, hread, hprinted, ?_⟩
  generalize p.standing = standing at hat
  cases standing with
  | running | asked | answered | atEnd => cases hat.1
  | served c =>
    obtain ⟨hquiet, ⟨⟨k', task', hcut, hp | ⟨l', hp⟩⟩, hfollows⟩ | ⟨k', task', ret, hp, -⟩⟩ := hat
    · cases hp
      exact ⟨hquiet, Or.inl ⟨⟨k, task, hcut, Or.inr ⟨l, rfl⟩⟩, hfollows⟩⟩
    · cases hp
    · cases hp

/-- The worker takes the last step of the operation. -/
theorem stands_finish {k : ℕ} {task : Task} (hs : Stands e phase done replies p)
    (hphase : phase = .called k task ∨ ∃ l, phase = .found k task l) (ret : Int32 × Bytes)
    (reply : Reply) :
    Stands e (.finished k task ret) (done ++ [⟨k, task, ret⟩]) (replies ++ [reply]) p := by
  obtain ⟨hreliable, hlength, ds, hread, hprinted, hat⟩ := hs
  obtain ⟨c, hserved, hquiet, hcut, hfollows⟩ : ∃ c, p.standing = .served c ∧ p.Quiet ∧
      task.call.cut = c.cut ∧ Follows done (callsOf ds) := by
    generalize p.standing = standing at hat
    cases standing with
    | running | asked | answered | atEnd =>
      obtain ⟨rfl, -⟩ := hat
      obtain hp | ⟨l, hp⟩ := hphase <;> cases hp
    | served c =>
      obtain ⟨hquiet, ⟨⟨k', task', hcut, hp'⟩, hfollows⟩ | ⟨k', task', ret', rfl, -⟩⟩ := hat
      · have hsame : task' = task := by
          obtain rfl | ⟨l, rfl⟩ := hphase
          · obtain hp | ⟨l', hp⟩ := hp' <;> cases hp
            rfl
          · obtain hp | ⟨l', hp⟩ := hp' <;> cases hp
            rfl
        exact ⟨c, rfl, hquiet, hsame ▸ hcut, hfollows⟩
      · obtain hp | ⟨l, hp⟩ := hphase <;> cases hp
  have hcalls := hfollows.length_eq
  refine ⟨hreliable, ?_, ds, hread, ?_, ?_⟩
  · rw [List.length_append, List.length_append, hlength]
    rfl
  · rw [hprinted, echo_more (hlength.trans hcalls).ge]
  · rw [hserved]
    exact ⟨hquiet, Or.inr ⟨k, task, ret, rfl, done, rfl, hfollows, hcut⟩⟩

/-- The worker sends the response. -/
theorem stands_answer {k : ℕ} {task : Task} {ret : Int32 × Bytes}
    (hs : Stands e (.finished k task ret) done replies p)
    (h : p.answer (task.call.response ret) = some p') : Stands e .idle done replies p' := by
  obtain ⟨hreliable, hlength, ds, hread, hprinted, hat⟩ := hs
  obtain ⟨c, hserved⟩ : ∃ c, p.standing = .served c := by
    cases hstanding : p.standing <;> first | exact ⟨_, rfl⟩ | (simp [Party.answer, hstanding] at h)
  rw [hserved] at hat hread
  obtain ⟨hquiet, ⟨⟨k', task', hcut, hp | ⟨l, hp⟩⟩, -⟩ | ⟨k', task', ret', hp, hlast⟩⟩ := hat
  · cases hp
  · cases hp
  · cases hp
    unfold Party.answer at h
    rw [hserved] at h
    obtain rfl := Option.some.inj h
    refine ⟨{ hreliable with }, hlength, ds, hread, hprinted, rfl, hquiet.request, _, hlast, ?_⟩
    show p.program.process.response_pipe.bytes ++ _ = _
    rw [hquiet.response]
    rfl

/-- The client reads the response. -/
theorem stands_hear (he : Client.Main.Plain e) (hs : Stands e phase done replies p)
    (htells : List.Forall₂ (fun d reply => Tells d.op d.ret reply) done replies)
    (h : p.hear e = some p') : Stands e phase done replies p' := by
  obtain ⟨hreliable, hlength, ds, hread, hprinted, hat⟩ := hs
  obtain ⟨c, hanswered⟩ : ∃ c, p.standing = .answered c := by
    cases hstanding : p.standing <;> first | exact ⟨_, rfl⟩ | (simp [Party.hear, hstanding] at h)
  rw [hanswered] at hat hread
  obtain ⟨hidle, hrequest, d, hlast, hresponse⟩ := hat
  obtain ⟨replies, reply, rfl, htold⟩ := hlast.told htells
  obtain ⟨before, rfl, hfollows, hcut⟩ := hlast
  have hcalls := hfollows.length_eq
  have hlength' : replies.length = before.length := by
    rw [List.length_append, List.length_append] at hlength
    exact Nat.add_right_cancel hlength
  obtain ⟨p'', hhear, hstanding, hreliable', hquiet, hfile, hprinted'⟩ :=
    Party.hear_told he hreliable hanswered htold hcut hrequest hresponse
  obtain rfl := Option.some.inj (hhear.symm.trans h)
  refine ⟨hreliable', hlength, ds ++ [.call c], ?_, ?_, ?_⟩
  · rw [hstanding, hfile, Standing.call, List.map_nil, List.append_nil]
    exact hread
  · rw [hprinted', hprinted, echo_more (hlength'.trans hcalls).ge,
      echo_call (hlength'.trans hcalls).symm]
  · rw [hstanding, callsOf_call]
    exact ⟨hidle, hquiet, hfollows.snoc hcut⟩

end Stands

/-! ## All sessions -/

section Runs

variable {T : Type} [DecidableEq T] {e : T → MainEnv Unit} {m₀ : Mem} {env : Env} {bs : Bytes}
  {s s' : Sessions T}

/-- The threads run as on their own, and every session stands well. -/
structure Good (e : T → MainEnv Unit) (m₀ : Mem) (s : Sessions T) : Prop where
  reached : ∃ ms, exec server.move (Conc.init m₀) ms = some s.threads
  log : s.log.map Prod.snd = s.threads.log
  stands : Few s.threads.log → ∀ t,
    Stands (e t) (s.threads.phase t) (own t s.log) (own t (repliesTo s.log)) (s.party t)

/-- The calls of a session have been told its replies. -/
theorem Good.tells (hinit : runOp (emsInit env) {} = some ((0, bs), m₀)) (hg : Good e m₀ s)
    (hfew : Few s.threads.log) (t : T) :
    List.Forall₂ (fun d reply => Tells d.op d.ret reply) (own t s.log)
      (own t (repliesTo s.log)) := by
  obtain ⟨ms, hms⟩ := hg.reached
  obtain ⟨-, g, o, hg', hhist, -⟩ := history_of_run hinit hms hfew
  have hops : g.map Prod.fst = s.log.map fun x => x.2.op := by
    rw [hg'.ops, ← hg.log, List.map_map]
    rfl
  have hreplies : (Office.empty.answers (s.log.map fun x => x.2.op)).1 = g.map Prod.snd := by
    rw [← hops, answers_of_history hhist]
  unfold repliesTo
  rw [hreplies]
  refine forall₂_own ?_ t
  rw [hg.log]
  exact List.forall₂_map_right_iff.2 (hg'.imp fun _ _ hy => hy.2)

/-- What a move of the session `t` does not touch. -/
structure Apart (t : T) (s s' : Sessions T) : Prop where
  party : ∀ u, u ≠ t → s'.party u = s.party u
  phase : ∀ u, u ≠ t → s'.threads.phase u = s.threads.phase u
  log : ∀ u, u ≠ t → own u s'.log = own u s.log
  replies : ∀ u, u ≠ t → own u (repliesTo s'.log) = own u (repliesTo s.log)

/-- Only the session that moves has to be looked at. -/
theorem Good.of_apart {t : T} (hg : Good e m₀ s) (hapart : Apart t s s')
    (hreached : ∃ ms, exec server.move s.threads ms = some s'.threads)
    (hlog : s'.log.map Prod.snd = s'.threads.log) (hmore : s.threads.log <+: s'.threads.log)
    (hstands : Few s'.threads.log →
      Stands (e t) (s.threads.phase t) (own t s.log) (own t (repliesTo s.log)) (s.party t) →
      Stands (e t) (s'.threads.phase t) (own t s'.log) (own t (repliesTo s'.log)) (s'.party t)) :
    Good e m₀ s' := by
  obtain ⟨ms, hms⟩ := hg.reached
  obtain ⟨ms', hms'⟩ := hreached
  refine ⟨⟨ms ++ ms', exec_append_of_eq hms hms'⟩, hlog, fun hfew u => ?_⟩
  have hbefore := hg.stands (hfew.of_prefix hmore)
  by_cases hu : u = t
  · subst hu
    exact hstands hfew (hbefore u)
  · rw [hapart.party u hu, hapart.phase u hu, hapart.log u hu, hapart.replies u hu]
    exact hbefore u

/-- Only the client has moved. -/
theorem Good.of_client {t : T} {p : Party} (hg : Good e m₀ s)
    (hstands : Few s.threads.log →
      Stands (e t) (s.threads.phase t) (own t s.log) (own t (repliesTo s.log)) (s.party t) →
      Stands (e t) (s.threads.phase t) (own t s.log) (own t (repliesTo s.log)) p) :
    Good e m₀ (s.setParty t p) := by
  refine hg.of_apart (t := t) ⟨fun u hu => s.setParty_other hu p, fun _ _ => rfl,
    fun _ _ => rfl, fun _ _ => rfl⟩ ⟨[], rfl⟩ hg.log (List.prefix_refl _) fun hfew hs => ?_
  rw [s.setParty_self]
  exact hstands hfew hs

/-- A move that ends no operation. -/
theorem Good.of_thread {t : T} {p : Party} {mv : Move T Task} {threads : Threads T}
    (hg : Good e m₀ s) (hmove : server.move s.threads mv = some threads)
    (hphase : ∀ u, u ≠ t → threads.phase u = s.threads.phase u)
    (hlog : threads.log = s.threads.log)
    (hstands : Stands (e t) (s.threads.phase t) (own t s.log) (own t (repliesTo s.log)) (s.party t) →
      Stands (e t) (threads.phase t) (own t s.log) (own t (repliesTo s.log)) p) :
    Good e m₀ { s.setParty t p with threads } := by
  refine hg.of_apart (t := t) ⟨fun u hu => s.setParty_other hu p, hphase,
    fun _ _ => rfl, fun _ _ => rfl⟩ ⟨[mv], by rw [exec_cons, hmove]; rfl⟩ (hg.log.trans hlog.symm)
    (hlog ▸ List.prefix_refl _) fun hfew hs => ?_
  show Stands _ _ _ _ ((s.setParty t p).party t)
  rw [s.setParty_self]
  exact hstands hs

/-- **Every move keeps all sessions well.** -/
theorem good_move (he : ∀ t, Client.Main.Plain (e t))
    (hinit : runOp (emsInit env) {} = some ((0, bs), m₀)) (hg : Good e m₀ s) {mv : Motion T}
    (h : s.move e mv = some s') : Good e m₀ s' := by
  cases mv with
  | turn t =>
    obtain ⟨p, hp, rfl⟩ := Option.map_eq_some_iff.1 h
    exact hg.of_client fun _ hs => stands_turn (he t) hs hp
  | hear t =>
    obtain ⟨p, hp, rfl⟩ := Option.map_eq_some_iff.1 h
    exact hg.of_client fun hfew hs => stands_hear (he t) hs (hg.tells hinit hfew t) hp
  | take t env' =>
    obtain ⟨⟨call, p⟩, hp, h⟩ := Option.bind_eq_some_iff.1 h
    dsimp only at h
    split at h
    · next hcall =>
      obtain ⟨threads, hmove, rfl⟩ := Option.map_eq_some_iff.1 h
      obtain ⟨-, rfl⟩ := TwoStep.call_cases hmove
      refine hg.of_thread hmove (fun u hu => s.threads.setPhase_other hu _) rfl fun hs => ?_
      show Stands _ ((s.threads.setPhase t _).phase t) _ _ _
      rw [Conc.setPhase_self]
      exact stands_take hs hp rfl
    · cases h
  | step t =>
    obtain ⟨threads, hmove, rfl⟩ := Option.map_eq_some_iff.1 h
    have hreached : ∃ ms, exec server.move s.threads ms = some threads :=
      ⟨[.step t], by rw [exec_cons, hmove]; rfl⟩
    obtain ⟨k, task, ⟨l, hphase, rfl⟩ | ⟨hphase, ret, rfl⟩⟩ := TwoStep.step_cases hmove
    · -- nothing has ended
      have hlog : s.log ++ ((s.threads.setPhase t (.found k task l)).log.drop
          s.threads.log.length).map (t, ·) = s.log := by
        show s.log ++ (s.threads.log.drop s.threads.log.length).map (t, ·) = s.log
        rw [List.drop_length]
        exact List.append_nil _
      rw [hlog]
      refine hg.of_apart (t := t) ⟨fun _ _ => rfl, fun u hu => s.threads.setPhase_other hu _,
        fun _ _ => rfl, fun _ _ => rfl⟩ hreached hg.log (List.prefix_refl _) fun _ hs => ?_
      rw [hphase] at hs
      show Stands _ ((s.threads.setPhase t _).phase t) _ _ _
      rw [Conc.setPhase_self]
      exact stands_find hs l
    · have hlog : s.log ++ ((s.threads.finish t k task ret).log.drop
          s.threads.log.length).map (t, ·) = s.log ++ [(t, ⟨k, task, ret.1⟩)] := by
        show s.log ++ ((s.threads.log ++ [_]).drop s.threads.log.length).map (t, ·) = _
        rw [List.drop_left]
        rfl
      rw [hlog]
      obtain ⟨reply, hreply⟩ := repliesTo_snoc s.log t ⟨k, task, ret.1⟩
      refine hg.of_apart (t := t) ⟨fun _ _ => rfl, fun u hu => s.threads.setPhase_other hu _,
        fun u hu => ?_, fun u hu => ?_⟩ hreached ?_ (List.prefix_append _ _) fun _ hs => ?_
      · rw [own_append, own_other hu.symm]
        exact List.append_nil _
      · show own u (repliesTo (s.log ++ _)) = _
        rw [hreply, own_append, own_other hu.symm]
        exact List.append_nil _
      · show (s.log ++ _).map Prod.snd = s.threads.log ++ _
        rw [List.map_append, hg.log]
        rfl
      · show Stands _ ((s.threads.setPhase t _).phase t) (own t (s.log ++ _))
          (own t (repliesTo (s.log ++ _))) _
        rw [Conc.setPhase_self, hreply, own_append, own_append, own_self, own_self]
        exact stands_finish hs hphase ret.1 reply
  | answer t =>
    simp only [Sessions.move] at h
    split at h
    · next k task ret hphase =>
      obtain ⟨p, hp, h⟩ := Option.bind_eq_some_iff.1 h
      obtain ⟨threads, hmove, rfl⟩ := Option.map_eq_some_iff.1 h
      obtain ⟨k', task', ret', -, rfl⟩ := TwoStep.ret_cases hmove
      refine hg.of_thread hmove (fun u hu => s.threads.setPhase_other hu _) rfl fun hs => ?_
      show Stands _ ((s.threads.setPhase t _).phase t) _ _ _
      rw [hphase] at hs
      rw [Conc.setPhase_self]
      exact stands_answer hs hp
    · cases h

/-- A session at the start of its client's command loop. -/
structure Starts (e : MainEnv Unit) (p : Party) : Prop where
  standing : p.standing = .running
  file : p.program.in_file = e.jobs
  printed : p.program.printed = {}
  reliable : p.program.process.Reliable
  quiet : p.Quiet

theorem stands_start {e : MainEnv Unit} {p : Party} (h : Starts e p) : Stands e .idle [] [] p := by
  refine ⟨h.reliable, rfl, [], ?_, h.printed, ?_⟩
  · rw [h.standing, h.file]
    exact .start
  · rw [h.standing]
    exact ⟨rfl, h.quiet, rfl⟩

theorem good_of_run {start : T → Party} (he : ∀ t, Client.Main.Plain (e t))
    (hstart : ∀ t, Starts (e t) (start t)) (hinit : runOp (emsInit env) {} = some ((0, bs), m₀))
    {ms : List (Motion T)} (h : exec (Sessions.move e) (Sessions.init m₀ start) ms = some s) :
    Good e m₀ s := by
  have hgood : Good e m₀ (Sessions.init m₀ start) :=
    ⟨⟨[], rfl⟩, rfl, fun _ t => stands_start (hstart t)⟩
  exact exec_invariant (fun _ _ _ hs => good_move he hinit hs) hgood h

end Runs

/-! ## A visit of two clients -/

/-- A client in a session that has just begun. -/
def begun : Process Unit where
  session_id := 1
  response_pipe := { bytes := [], eof := false }
  locals := ⟨.zero _, .zero _, .zero _, .zero _, .zero _, .zero _⟩
  server := ()

/-- One client creates an event, the other shows it. -/
def visitors : Bool → MainEnv Unit
  | true => { process := begun, jobs := ascii "CREATE 7 1 2\n" }
  | false => { process := begun, jobs := ascii "SHOW 7\nHELP\n" }

def arrivals (t : Bool) : Party where
  program := { process := begun, in_file := (visitors t).jobs }
  locals := zeroLocals

theorem visitors_plain (t : Bool) : Client.Main.Plain (visitors t) := by
  cases t <;> exact ⟨fun _ => rfl, fun _ => rfl⟩

theorem arrivals_start (t : Bool) : Starts (visitors t) (arrivals t) := by
  cases t <;> exact ⟨rfl, rfl, rfl, ⟨calm_nil, calm_nil, calm_nil⟩, rfl, rfl⟩

/-- The event is created before the other client's worker looks it up, and the client that has
    created it hears so later. -/
def visit : List (Motion Bool) :=
  [.turn true, .take true {}, .step true, .turn false, .answer true, .take false {}, .step false,
    .hear true, .step false, .answer false, .hear false, .turn false, .turn false]

end EventServer
