import EventServer.Server.Pool
import Mathlib.Algebra.BigOperators.Group.Finset.Piecewise

/-
  No worker sleeps while `count` is positive.

  `insert_request` signals once for each request, and a signal wakes one worker. That is enough:
  while a worker waits, at least `count` others are on their way to the buffer (`Attended`),
  because a worker goes to sleep only when `count` is 0 and a signal that wakes nobody finds nobody
  asleep. Once a worker has been handed an empty slot (`empty_slot_handed`), `count` is less than
  the number of requests that lie in the buffer, and one of these can be slept through; as long as
  every `retrieve_request` finds a request, none is (`never_missed`). The thread that inserts has
  no such guarantee (`never_left_asleep_iff`).
-/

namespace EventServer

open Lib

/-- The worker is on its way to the buffer. -/
def Worker.awake : Worker → ℕ
  | .testing => 1
  | .retrieving => 1
  | _ => 0

/-- The number of workers on their way to the buffer. -/
def Server.awake (s : Server) : ℕ := Finset.univ.sum fun i => (s.workers i).awake

/-- The requests that have been inserted and not been handed to a worker. -/
def Server.unserved (s : Server) : List Request := s.inserted.drop s.retrieved.length

/-- While a worker waits, `count` others are on their way. -/
structure Attended (s : Server) : Prop where
  awake : ∀ i, s.workers i = .parked → s.queue.count ≤ s.awake
  clean : ∀ i, (s.workers i).Clean

section Awake

variable {s s' : Server} {i : WorkerId} {w : Worker}

theorem goOn_self (s : Server) (i : WorkerId) (w : Worker) : (s.goOn i w).workers i = w :=
  Function.update_self ..

theorem goOn_other (s : Server) {i j : WorkerId} (hj : j ≠ i) (w : Worker) :
    (s.goOn i w).workers j = s.workers j := Function.update_of_ne hj ..

theorem awake_goOn (s : Server) (i : WorkerId) (w : Worker) :
    (s.goOn i w).awake + (s.workers i).awake = s.awake + w.awake := by
  have hrest : (Finset.univ.erase i).sum (fun j => ((s.goOn i w).workers j).awake) =
      (Finset.univ.erase i).sum fun j => (s.workers j).awake := by
    refine Finset.sum_congr rfl fun j hj => ?_
    rw [goOn_other s (Finset.ne_of_mem_erase hj)]
  unfold Server.awake
  rw [← Finset.add_sum_erase _ _ (Finset.mem_univ i), hrest, goOn_self,
    ← Finset.add_sum_erase _ (fun j => (s.workers j).awake) (Finset.mem_univ i)]
  omega

/-- The worker does not wait, so whoever waits did so before. -/
theorem parked_goOn (hw : w ≠ .parked) {j : WorkerId} (h : (s.goOn i w).workers j = .parked) :
    s.workers j = .parked := by
  by_cases hj : j = i
  · subst hj
    rw [goOn_self] at h
    exact absurd h hw
  · rwa [goOn_other s hj] at h

/-- A move of a worker that stays awake if it was, and takes no request. -/
theorem Attended.goOn (h : Attended s) (hw : w ≠ .parked) (hawake : (s.workers i).awake ≤ w.awake)
    (hclean : ∀ j, ((s.goOn i w).workers j).Clean) : Attended (s.goOn i w) := by
  refine ⟨fun j hj => ?_, hclean⟩
  have hle := h.awake j (parked_goOn hw hj)
  have hsum := awake_goOn s i w
  show s.queue.count ≤ _
  omega

/-- The signal of an insertion: it wakes a worker that waits, if there is one. -/
theorem attended_signal {woken : Option WorkerId} (hstep : s.signalNotEmpty woken = some s')
    (hawake : ∀ i, s.workers i = .parked → s.queue.count ≤ s.awake + 1)
    (hclean : ∀ i, (s'.workers i).Clean) : Attended s' := by
  refine ⟨fun j hj => ?_, hclean⟩
  cases woken with
  | none =>
    simp only [Server.signalNotEmpty] at hstep
    split at hstep
    · next hnone =>
      obtain rfl := Option.some.inj hstep
      exact absurd hj (hnone j)
    · cases hstep
  | some i =>
    simp only [Server.signalNotEmpty] at hstep
    split at hstep
    · next hi =>
      obtain rfl := Option.some.inj hstep
      have hle := hawake i hi
      have hsum : (s.goOn i .testing).awake + 0 = s.awake + 1 := by
        have hsum := awake_goOn s i .testing
        rwa [hi] at hsum
      show s.queue.count ≤ _
      omega
    · cases hstep

end Awake

/-- **Every action keeps `count` attended.** -/
theorem Attended.keep {s s' : Server} {a : Action} (h : Attended s)
    (hstep : queueStep s a = some s') : Attended s' := by
  obtain ⟨-, hclean⟩ := queueStep_acts h.clean hstep
  have hmoves := queueStep_moves hstep
  cases a with
  | insert woken =>
    simp only [queueStep] at hstep
    split at hstep
    · next request hp =>
      split at hstep
      · obtain rfl := Option.some.inj hstep
        exact ⟨h.awake, hclean⟩
      · -- one request more, and one signal
        refine attended_signal hstep (fun i hi => ?_) hclean
        have hle := h.awake i hi
        show s.queue.count + 1 ≤ (s.awake : ℤ) + 1
        omega
    · cases hstep
  | extract request =>
    cases hmoves
    exact ⟨h.awake, hclean⟩
  | wakeProducer =>
    cases hmoves
    exact ⟨h.awake, hclean⟩
  | test i =>
    cases hmoves with
    | test hw =>
      by_cases hzero : s.queue.count = 0
      · -- a worker goes to sleep when there is no request
        refine ⟨fun j _ => ?_, hclean⟩
        show s.queue.count ≤ _
        rw [hzero]
        exact Int.natCast_nonneg _
      · rw [if_neg hzero] at hclean ⊢
        exact h.goOn Worker.noConfusion (by rw [hw]; exact Nat.le_refl 1) hclean
  | wake i =>
    cases hmoves with
    | wake hw => exact h.goOn Worker.noConfusion (by rw [hw]; exact Nat.zero_le 1) hclean
  | retrieve i =>
    cases hmoves with
    | @retrieve _ request queue hw hq =>
      -- one worker less on its way, and one request less
      refine ⟨fun j hj => ?_, hclean⟩
      have hle := h.awake j (parked_goOn (s := { s with queue, retrieved := _ }) Worker.noConfusion hj)
      have hsum := awake_goOn { s with queue, retrieved := s.retrieved ++ [request] } i
        (.handling request)
      have hcount : queue.count = s.queue.count - 1 := by
        obtain ⟨r, -, heq⟩ := Option.map_eq_some_iff.1 hq
        obtain ⟨-, rfl⟩ := Prod.mk.inj heq
        rfl
      have hsame : ({ s with queue, retrieved := s.retrieved ++ [request] } : Server).awake =
          s.awake := rfl
      have hone : (s.workers i).awake = 1 := by
        rw [hw]
        rfl
      have hnone : (Worker.handling request).awake = 0 := rfl
      dsimp only at hsum
      rw [hsame, hone, hnone] at hsum
      show queue.count ≤ _
      omega
  | start i opens session =>
    cases hmoves with
    | start hw _ _ hpart =>
      obtain ⟨ending, session', -, rfl⟩ := afterPart_eq_some hpart
      refine h.goOn ?_ (by rw [hw]; exact Nat.zero_le _) hclean
      cases ending <;> exact Worker.noConfusion
  | next i service =>
    cases hmoves with
    | next hw hpart =>
      obtain ⟨ending, session', -, rfl⟩ := afterPart_eq_some hpart
      refine h.goOn ?_ (by rw [hw]; exact Nat.zero_le _) hclean
      cases ending <;> exact Worker.noConfusion
  | remove i =>
    cases hmoves with
    | remove hw =>
      have hnone := h.clean i
      rw [hw] at hnone
      cases hnone
  | leave i =>
    cases hmoves with
    | back hw => exact h.goOn Worker.noConfusion (by rw [hw]; exact Nat.zero_le _) hclean
    | exit hw => exact h.goOn Worker.noConfusion (by rw [hw]; exact Nat.zero_le _) hclean

theorem attended_start : Attended startServer := ⟨fun _ hw => (nomatch hw), fun _ => trivial⟩

theorem exists_awake {s : Server} (h : 0 < s.awake) :
    ∃ j, s.workers j = .testing ∨ s.workers j = .retrieving := by
  by_contra hnone
  push Not at hnone
  refine h.ne' (Finset.sum_eq_zero fun j _ => ?_)
  obtain ⟨htesting, hretrieving⟩ := hnone j
  cases hw : s.workers j <;> first | rfl | exact absurd hw htesting | exact absurd hw hretrieving

/-- **No worker sleeps while `count` is positive.** In every run of the threads, while a worker
    waits, at least `count` others are on their way to the buffer; so if `count` is positive, a
    worker is about to test it or to take a request. In a run in which every `retrieve_request`
    finds a request, these are the requests that have not been handed to a worker, and none of them
    is slept through. -/
theorem never_missed {s : Server} {actions : List Action}
    (h : exec queueStep startServer actions = some s) {i : WorkerId} (hi : s.workers i = .parked) :
    (s.queue.count ≤ s.awake ∧
      (0 < s.queue.count → ∃ j, s.workers j = .testing ∨ s.workers j = .retrieving)) ∧
    (Guarded queueStep FindsRequest startServer actions → s.unserved.length ≤ s.awake ∧
      (s.unserved ≠ [] → ∃ j, s.workers j = .testing ∨ s.workers j = .retrieving)) := by
  have hend : Attended s := exec_invariant (fun _ _ _ hs => hs.keep) attended_start h
  have hle := hend.awake i hi
  refine ⟨⟨hle, fun hpos => exists_awake (by omega)⟩, fun hg => ?_⟩
  have hunserved : s.unserved.length ≤ s.awake := by
    have hordered := ordered_of_run h hg
    have hcount := hordered.count_eq
    have hlength := hordered.handed.length_le
    rw [Server.unserved, List.length_drop]
    omega
  refine ⟨hunserved, fun hne => exists_awake ?_⟩
  exact Nat.lt_of_lt_of_le (List.length_pos_iff.2 hne) hunserved

/-- Two workers have gone to sleep, and a request has woken the first one. -/
def wokenWorker (i j : WorkerId) : List Action :=
  [.test i, .test j, .extract sampleRequest, .insert (some i)]

theorem never_missed_woken : ∃ s, exec queueStep startServer (wokenWorker 0 1) = some s ∧
    s.workers 1 = .parked ∧ s.unserved = [{ sampleRequest with session_id := 0 }] ∧
    s.unserved.length ≤ s.awake ∧ ∃ j, s.workers j = .testing ∨ s.workers j = .retrieving := by
  have hrun : (exec queueStep startServer (wokenWorker 0 1)).any (fun s => s.workers 1 = .parked ∧
      s.unserved = [{ sampleRequest with session_id := 0 }]) = true := by decide +kernel
  obtain ⟨s, hs, hend⟩ := (Option.any_eq_true _ _).1 hrun
  obtain ⟨hparked, hunserved⟩ := of_decide_eq_true hend
  -- no worker takes a request here
  have hguarded : Guarded queueStep FindsRequest startServer (wokenWorker 0 1) :=
    fun _ _ => ⟨nofun, fun _ _ => ⟨nofun, fun _ _ => ⟨nofun, fun _ _ => ⟨nofun, trivial⟩⟩⟩⟩
  obtain ⟨-, hall⟩ := never_missed hs hparked
  obtain ⟨hle, hsome⟩ := hall hguarded
  exact ⟨s, hs, hparked, hunserved, hle, hsome (by rw [hunserved]; exact List.cons_ne_nil _ _)⟩

end EventServer
