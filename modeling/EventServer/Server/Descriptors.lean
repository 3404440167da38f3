import EventServer.Lib.Runs
import EventServer.Server.Pool
import Mathlib.Algebra.BigOperators.Group.Finset.Piecewise
import Mathlib.Algebra.BigOperators.Ring.Finset
import Mathlib.Algebra.Order.BigOperators.Group.Finset

/-
  The descriptors that sessions leave behind.

  `Holding` adds to the threads of `Queue.lean` the pipes that `handle_client` has open for each
  worker's session, and those that it has left open when it ended. The opening phase opens a pipe
  as long as it can, and the only calls of `close` stand in the case of `ems_quit`, which is not
  reached; so a session that has opened the server pipe ends with descriptors
  (`descriptors_closed_iff`). A worker that has freed its argument goes on to `pthread_exit` here;
  where that stops the process (`poolStep`), a run just ends earlier.
-/

namespace EventServer

open Lib

/-- The threads, with what could be opened for the session that a worker is in, the pipes that are
    open for it, and those that are still open of sessions that are over. -/
structure Holding where
  server : Server := startServer
  opens : WorkerId → Opens := fun _ => {}
  held : WorkerId → List Pipe := fun _ => []
  left : List Pipe := []

/-- The pipes that a part of `handle_client` has open when it comes to its end. -/
def openAfter (part : Handler (Option Ending)) (before : Session) : List Pipe :=
  match part.run before with
  | .ok (_, after) => after.descriptors
  | .error _ => before.descriptors

/-- The pipes that are open for the workers' sessions when an action has run its part of
    `handle_client`. -/
def Holding.heldAfter (h : Holding) (a : Action) : WorkerId → List Pipe :=
  match h.server.part a with
  | some (i, before, part) => Function.update h.held i (openAfter part before)
  | none => h.held

/-- The variables that hold the descriptors of a session end with it. -/
def holdingStep (h : Holding) (a : Action) : Option Holding :=
  (queueStep h.server a).map fun server =>
    match a with
    | .start i opens _ =>
      { h with server, opens := Function.update h.opens i opens, held := h.heldAfter a }
    | .leave i =>
      { h with server, held := Function.update h.held i [], left := h.left ++ h.held i }
    | _ => { h with server, held := h.heldAfter a }

/-- The number of sessions in progress. -/
def Server.inProgress (s : Server) : Nat :=
  (Finset.univ.filter fun i => (s.workers i).InSession).card

/-- No session that is over has a descriptor open, and there are at most three of them for each
    session in progress. -/
structure Holding.Closed (h : Holding) : Prop where
  left : h.left = []
  bound : Finset.univ.sum (fun i => (h.held i).length) + h.left.length ≤ 3 * h.server.inProgress

/-- If the action ends a session, that session could not open the server pipe. -/
def EndsUnopened (h : Holding) (a : Action) : Prop :=
  ∀ i, a = .leave i → (h.opens i).server = false

/-! ## What a session has open -/

theorem Opens.length_pipes_le (opens : Opens) : opens.pipes.length ≤ 3 := by
  unfold Opens.pipes
  repeat' split
  all_goals decide

theorem Opens.pipes_eq_nil_iff (opens : Opens) : opens.pipes = [] ↔ opens.server = false := by
  unfold Opens.pipes
  cases opens.server with
  | false => exact ⟨fun _ => rfl, fun _ => rfl⟩
  | true =>
    refine ⟨fun h => ?_, nofun⟩
    split at h
    · next hno => cases hno
    · split at h
      · cases h
      · split at h <;> cases h

/-- What a worker of this kind has open, when these pipes can be opened for its session. -/
def Worker.pipes (w : Worker) (opens : Opens) : List Pipe := if w.InSession then opens.pipes else []

theorem Worker.InSession.pipes {w : Worker} (h : w.InSession) (opens : Opens) :
    w.pipes opens = opens.pipes := if_pos h

/-- A worker in a session holds the pipes that could be opened for it, as the session has them; none
    have been left. -/
structure Holding.Tidy (h : Holding) : Prop where
  held : ∀ i, h.held i = (h.server.workers i).pipes (h.opens i)
  serving : ∀ i session, h.server.workers i = .serving session → session.descriptors = h.held i
  left : h.left = []

section Steps

variable {h h' : Holding} {a : Action} {i : WorkerId} {w : Worker}

theorem Holding.Tidy.closed (ht : h.Tidy) : h.Closed := by
  refine ⟨ht.left, ?_⟩
  rw [ht.left, List.length_nil, Nat.add_zero, Server.inProgress, Finset.card_filter, Finset.mul_sum]
  refine Finset.sum_le_sum fun i _ => ?_
  rw [ht.held i, Worker.pipes]
  split
  · exact (h.opens i).length_pipes_le
  · exact Nat.zero_le _

/-- A worker goes on with these pipes. -/
theorem Holding.Tidy.update (ht : h.Tidy) (server : Server) (opens : Opens) {pipes : List Pipe}
    (hworkers : server.workers = Function.update h.server.workers i w)
    (hpipes : pipes = w.pipes opens)
    (hserving : ∀ session, w = .serving session → session.descriptors = pipes) :
    Holding.Tidy { h with
      server, opens := Function.update h.opens i opens, held := Function.update h.held i pipes } where
  held j := by
    show Function.update h.held i pipes j = (server.workers j).pipes (Function.update h.opens i opens j)
    rw [hworkers]
    by_cases hj : j = i
    · subst hj
      rwa [Function.update_self, Function.update_self, Function.update_self]
    · rw [Function.update_of_ne hj, Function.update_of_ne hj, Function.update_of_ne hj]
      exact ht.held j
  serving j session hw := by
    show session.descriptors = Function.update h.held i pipes j
    have hw' : server.workers j = .serving session := hw
    rw [hworkers] at hw'
    by_cases hj : j = i
    · subst hj
      rw [Function.update_self] at hw' ⊢
      exact hserving session hw'
    · rw [Function.update_of_ne hj] at hw' ⊢
      exact ht.serving j session hw'
  left := ht.left

/-- A worker goes on with the pipes that it has, outside the loop of `handle_client`. -/
theorem Holding.Tidy.goOn (ht : h.Tidy) {server : Server}
    (hworkers : server.workers = Function.update h.server.workers i w)
    (hsame : w.InSession ↔ (h.server.workers i).InSession) (hout : ∀ session, w ≠ .serving session) :
    Holding.Tidy { h with server } := by
  have hpipes : h.held i = w.pipes (h.opens i) := by
    rw [ht.held i, Worker.pipes, Worker.pipes]
    exact (if_congr hsame rfl rfl).symm
  have hall := ht.update server (h.opens i) hworkers hpipes
    fun session hw => absurd hw (hout session)
  rwa [Function.update_eq_self, Function.update_eq_self] at hall

/-- What a part of `handle_client` leaves open is in its session, or in the hands of nobody. -/
theorem openAfter_of_afterPart {part : Handler (Option Ending)} {before : Session}
    (hpart : afterPart (part.run before) = some w) :
    ∃ ending after, part.run before = .ok (ending, after) ∧
      openAfter part before = after.descriptors ∧
      ∀ session, w = .serving session → session.descriptors = openAfter part before := by
  obtain ⟨ending, after, hrun, rfl⟩ := afterPart_eq_some hpart
  have hopen : openAfter part before = after.descriptors := by
    rw [openAfter, hrun]
  refine ⟨ending, after, hrun, hopen, fun session hw => ?_⟩
  cases ending with
  | none =>
    obtain rfl := Worker.serving.inj hw
    exact hopen.symm
  | some ending => cases hw

/-- A session that could not open the server pipe ends. -/
theorem Holding.Tidy.ended (ht : h.Tidy) {ending : Ending}
    (hw : h.server.workers i = .removing [] ending) (hopens : (h.opens i).server = false)
    (hout : ¬ w.InSession) :
    Holding.Tidy { h with
      server := h.server.goOn i w, held := Function.update h.held i [], left := h.left ++ h.held i } := by
  have hnone : h.held i = [] := by
    rw [ht.held i, hw, Worker.InSession.pipes (w := .removing [] ending) trivial]
    exact (h.opens i).pipes_eq_nil_iff.2 hopens
  have hserving : ∀ session, w = .serving session → session.descriptors = [] := by
    rintro session rfl
    exact absurd trivial hout
  have hall := ht.update (h.server.goOn i w) (h.opens i) rfl (if_neg hout).symm hserving
  rw [Function.update_eq_self] at hall
  rwa [hnone, List.append_nil]

/-- Every action keeps the descriptors with their sessions, if it ends none that has some. -/
theorem Holding.Tidy.keep (ht : h.Tidy) (hstep : holdingStep h a = some h')
    (hends : EndsUnopened h a) : h'.Tidy := by
  obtain ⟨server, hserver, rfl⟩ := Option.map_eq_some_iff.1 hstep
  have hmoves := queueStep_moves hserver
  cases hmoves with
  | extract => exact ⟨ht.held, ht.serving, ht.left⟩
  | park => exact ⟨ht.held, ht.serving, ht.left⟩
  | insert _ _ hworkers =>
    obtain rfl | ⟨i, hw, rfl⟩ := hworkers
    · exact ⟨ht.held, ht.serving, ht.left⟩
    · exact ht.goOn rfl (by rw [hw]; exact Iff.rfl) nofun
  | wakeProducer => exact ⟨ht.held, ht.serving, ht.left⟩
  | test hw =>
    refine ht.goOn rfl ?_ ?_
    · rw [hw]
      split <;> exact Iff.rfl
    · split <;> exact nofun
  | wake hw => exact ht.goOn rfl (by rw [hw]; exact Iff.rfl) nofun
  | retrieve hw => exact ht.goOn rfl (by rw [hw]; exact Iff.rfl) nofun
  | @start i opens session request w hw _ hclosed hpart =>
    obtain ⟨ending, after, hrun, hopen, hserving⟩ := openAfter_of_afterPart hpart
    obtain ⟨hdescriptors, -⟩ := wp_run_ok (wp_openSession opens session) hrun
    rw [hclosed, List.nil_append] at hdescriptors
    refine ht.update _ _ rfl ?_ hserving
    rw [hopen, hdescriptors, (inSession_of_afterPart hpart).pipes]
  | @next i service session w hw hpart =>
    obtain ⟨ending, after, hrun, hopen, hserving⟩ := openAfter_of_afterPart hpart
    have hsame : after.descriptors = session.descriptors :=
      (wp_run_ok (wp_handleNext_leaves (g := fun _ _ descriptors => descriptors) _) hrun).1
    have hheld : h.held i = (h.opens i).pipes := by
      rw [ht.held i, hw]
      exact Worker.InSession.pipes (w := .serving session) trivial _
    have hpipes : openAfter handleNext { session with service } = w.pipes (h.opens i) := by
      rw [hopen, hsame, ht.serving i session hw, hheld, (inSession_of_afterPart hpart).pipes]
    have hall := ht.update (h.server.goOn i w) (h.opens i) rfl hpipes hserving
    rw [Function.update_eq_self] at hall
    simpa only [Holding.heldAfter, Server.part, hw] using hall
  | @remove i session_id session_ids ending queue hw =>
    refine ht.goOn (by rw [Server.goOn, signalNotFull_workers]) ?_ fun _ => Worker.noConfusion
    rw [hw]
    exact Iff.rfl
  | back hw => exact ht.ended hw (hends _ rfl) id
  | exit hw => exact ht.ended hw (hends _ rfl) id

/-- A session that has opened the server pipe leaves it open. -/
theorem Holding.Tidy.lose (ht : h.Tidy) (hstep : holdingStep h a = some h')
    (hopen : ¬ EndsUnopened h a) : ¬ h'.Closed := by
  simp only [EndsUnopened] at hopen
  push Not at hopen
  obtain ⟨i, rfl, hserver⟩ := hopen
  obtain ⟨server, hqueue, rfl⟩ := Option.map_eq_some_iff.1 hstep
  have hin : (h.server.workers i).InSession := by
    cases queueStep_moves hqueue with
    | back hw => exact hw ▸ trivial
    | exit hw => exact hw ▸ trivial
  intro hclosed
  obtain ⟨-, hnone⟩ := List.append_eq_nil_iff.1 hclosed.left
  rw [ht.held i, hin.pipes, Opens.pipes_eq_nil_iff] at hnone
  exact hserver hnone

end Steps

theorem tidy_start : ({} : Holding).Tidy := ⟨fun _ => rfl, fun _ _ hw => (nomatch hw), rfl⟩

/-- **Sessions leave no descriptors if and only if none that could open the server pipe ends**, in
    every run of the threads. -/
theorem descriptors_closed_iff {actions : List Action} :
    Along holdingStep Holding.Closed {} actions ↔ Guarded holdingStep EndsUnopened {} actions :=
  along_iff_guarded (J := Holding.Tidy) (fun _ h => h.closed)
    (fun _ _ _ h hstep hg => h.keep hstep hg) (fun _ _ _ h hstep hg => h.lose hstep hg) tidy_start

/-- A client that asks for a session and quits at once. -/
def quittingClient : List Action :=
  [.extract sampleRequest, .insert none, .test firstWorker, .retrieve firstWorker,
    .start firstWorker {} (pipeSession [2]), .next firstWorker (pipeSession [2]).service,
    .leave firstWorker]

/-- Its three descriptors stay open. -/
theorem descriptors_left : ∃ h, exec holdingStep {} quittingClient = some h ∧
    h.server.workers firstWorker = .testing ∧ h.server.inProgress = 0 ∧
      h.left = [.server, .request, .response] ∧ ¬ h.Closed := by
  have hrun : (exec holdingStep {} quittingClient).any (fun h =>
      h.server.workers firstWorker = .testing ∧ h.server.inProgress = 0 ∧
        h.left = [.server, .request, .response]) = true := by
    decide +kernel
  obtain ⟨h, hh, hend⟩ := (Option.any_eq_true _ _).1 hrun
  obtain ⟨htesting, hnone, hleft⟩ := of_decide_eq_true hend
  refine ⟨h, hh, htesting, hnone, hleft, fun hclosed => ?_⟩
  exact absurd (hleft.symm.trans hclosed.left) (by decide)

end EventServer
