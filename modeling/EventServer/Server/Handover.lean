import EventServer.Lib.Ring
import EventServer.Lib.Runs
import EventServer.Server.Queue

/-
  Handing requests to the workers.

  The test of `count` and the removal of a request lie in different critical sections, so two
  workers can pass the test for one request. As long as every `retrieve_request` still finds a
  request, the buffer is a ring that hands the requests out in order, each once (`in_order_iff`).
  `retrieve_request` makes room without a signal, so the inserting thread is left asleep exactly
  when one runs while it waits (`never_left_asleep_iff`).
-/

namespace EventServer

open Lib

/-! ## In order, each request once -/

/-- The requests that workers have got are the first that were inserted, each once and in order,
    and `count` is the number of those that are left, between 0 and the size of the buffer. -/
structure InOrder (s : Server) : Prop where
  handed : s.retrieved <+: s.inserted
  count_eq : s.queue.count = s.inserted.length - s.retrieved.length
  nonneg : 0 ≤ s.queue.count
  le_max : s.queue.count ≤ MAX_SESSION_COUNT

/-- If the action is a `retrieve_request`, there is a request. -/
def FindsRequest (s : Server) (a : Action) : Prop := ∀ i, a = .retrieve i → s.queue.count ≠ 0

/-- The buffer is a ring of the requests that are left. -/
structure Ordered (s : Server) : Prop extends InOrder s where
  size : s.queue.buffer.length = MAX_SESSION_COUNT
  in_eq : s.queue.in_ = s.inserted.length % MAX_SESSION_COUNT
  out_eq : s.queue.out = s.retrieved.length % MAX_SESSION_COUNT
  holds : Holds s.queue.buffer s.inserted s.retrieved.length
  clean : ∀ i, (s.workers i).Clean

theorem ordered_start : Ordered startServer where
  handed := List.prefix_refl _
  count_eq := rfl
  nonneg := Int.le_refl _
  le_max := by decide
  size := rfl
  in_eq := rfl
  out_eq := rfl
  holds := holds_nil _
  clean := fun _ => trivial

/-- Actions that find a request keep the ring. -/
theorem Ordered.keep {s s' : Server} {a : Action} (h : Ordered s) (hstep : queueStep s a = some s')
    (hfinds : FindsRequest s a) : Ordered s' := by
  obtain ⟨hacts, hclean⟩ := queueStep_acts h.clean hstep
  cases hacts with
  | extract hp => exact { h with }
  | park hp hfull => exact { h with }
  | wakeProducer hp => exact { h with }
  | work ha => exact { h with clean := hclean }
  | @insert woken request workers hp hroom =>
    have hcount := h.count_eq
    have hle := h.le_max
    have hlt : s.queue.count < MAX_SESSION_COUNT := lt_of_le_of_ne hle hroom
    refine {
      handed := h.handed.trans (List.prefix_append _ _)
      count_eq := ?_
      nonneg := ?_
      le_max := ?_
      size := ?_
      in_eq := ?_
      out_eq := h.out_eq
      holds := ?_
      clean := hclean }
    · simp only [Queue.insert, List.length_append, List.length_singleton]
      omega
    · have := h.nonneg
      simp only [Queue.insert]
      omega
    · simp only [Queue.insert]
      omega
    · simpa [Queue.insert] using h.size
    · simp [Queue.insert, h.in_eq]
    · have hput := h.holds.put (by rw [h.size]; omega)
        { request with session_id := s.queue.session_counter }
      rw [h.size, ← h.in_eq] at hput
      exact hput
  | @retrieve i request queue workers hq =>
    have hcount := h.count_eq
    have hne := hfinds i rfl
    have hnonneg := h.nonneg
    have hlt : s.retrieved.length < s.inserted.length := by omega
    obtain ⟨hslot, hholds⟩ := h.holds.take hlt
    rw [h.size, ← h.out_eq] at hslot
    obtain ⟨r, hr, heq⟩ := Option.map_eq_some_iff.1 hq
    obtain ⟨rfl, rfl⟩ := Prod.mk.inj heq
    have hmax := h.le_max
    exact {
      handed := prefix_concat h.handed (hslot.symm.trans hr)
      count_eq := by simp only [List.length_append, List.length_singleton]; omega
      nonneg := by dsimp only; omega
      le_max := by dsimp only; omega
      size := h.size
      in_eq := h.in_eq
      out_eq := by simp [h.out_eq]
      holds := by simpa using hholds
      clean := hclean }

/-- A `retrieve_request` that finds none makes `count` negative. -/
theorem Ordered.lose {s s' : Server} {a : Action} (h : Ordered s) (hstep : queueStep s a = some s')
    (hnone : ¬ FindsRequest s a) : ¬ InOrder s' := by
  have hempty : ∃ i, a = .retrieve i ∧ s.queue.count = 0 := by
    simp only [FindsRequest] at hnone
    push Not at hnone
    exact hnone
  obtain ⟨i, rfl, hzero⟩ := hempty
  obtain ⟨hacts, -⟩ := queueStep_acts h.clean hstep
  intro h'
  have hnonneg := h'.nonneg
  cases hacts with
  | @retrieve i request queue workers hq =>
    obtain ⟨r, -, heq⟩ := Option.map_eq_some_iff.1 hq
    obtain ⟨rfl, rfl⟩ := Prod.mk.inj heq
    dsimp only at hnonneg
    omega
  | work ha => exact ha i rfl

/-- In a run in which every `retrieve_request` finds a request the buffer stays a ring. -/
theorem ordered_of_run {actions : List Action} {s : Server}
    (h : exec queueStep startServer actions = some s)
    (hg : Guarded queueStep FindsRequest startServer actions) : Ordered s :=
  exec_guarded (A := fun _ => True) (fun _ _ _ _ hs hstep hfinds => hs.keep hstep hfinds)
    (fun _ _ => trivial) ordered_start hg h

/-- **Each request is handed to one worker, in order, and no worker is handed an empty slot, if and
    only if every `retrieve_request` finds `count` not to be 0**, in every run of the threads. -/
theorem in_order_iff {actions : List Action} :
    Along queueStep InOrder startServer actions ↔ Guarded queueStep FindsRequest startServer actions :=
  along_iff_guarded (J := Ordered) (fun _ h => h.toInOrder) (fun _ _ _ h hstep hg => h.keep hstep hg)
    (fun _ _ _ h hstep hg => h.lose hstep hg) ordered_start

/-- The request that the main thread inserts in the two runs below. -/
def sampleRequest : Request := ⟨-1, [97], [98], [115]⟩

/-- Both workers pass the test for the only request. -/
def racingWorkers : List Action :=
  [.extract sampleRequest, .insert none, .test 0, .test 1, .retrieve 0, .retrieve 1]

/-- The second worker is handed a slot that has never held a request. -/
theorem empty_slot_handed : ∃ s, exec queueStep startServer racingWorkers = some s ∧
    s.inserted = [{ sampleRequest with session_id := 0 }] ∧
    s.retrieved = [{ sampleRequest with session_id := 0 }, ⟨0, [], [], []⟩] ∧
    s.queue.count = -1 ∧ ¬ InOrder s := by
  have hrun : (exec queueStep startServer racingWorkers).any (fun s =>
      s.inserted = [{ sampleRequest with session_id := 0 }] ∧
      s.retrieved = [{ sampleRequest with session_id := 0 }, ⟨0, [], [], []⟩] ∧
      s.queue.count = -1) = true := by decide +kernel
  obtain ⟨s, hs, hend⟩ := (Option.any_eq_true _ _).1 hrun
  obtain ⟨hinserted, hretrieved, hcount⟩ := of_decide_eq_true hend
  refine ⟨s, hs, hinserted, hretrieved, hcount, fun h => ?_⟩
  have := h.nonneg
  omega

/-! ## The inserting thread asleep -/

/-- The inserting thread waits on `not_full_cond` although the buffer is not full. A critical
    section is one action, and a signal takes a waiting thread out of the wait at once; so no
    wake-up is on its way to a thread that waits. -/
def LeftAsleep (s : Server) : Prop :=
  (∃ request, s.producer = .parked request) ∧ s.queue.count < MAX_SESSION_COUNT

/-- If the action is a `retrieve_request`, the inserting thread does not wait. -/
def NobodyWaits (s : Server) (a : Action) : Prop :=
  ∀ i, a = .retrieve i → ∀ request, s.producer ≠ .parked request

/-- The inserting thread waits only while the buffer is full. -/
structure Waiting (s : Server) : Prop where
  full : ∀ request, s.producer = .parked request → s.queue.count = MAX_SESSION_COUNT
  clean : ∀ i, (s.workers i).Clean

theorem Waiting.keep {s s' : Server} {a : Action} (h : Waiting s) (hstep : queueStep s a = some s')
    (hnobody : NobodyWaits s a) : Waiting s' := by
  obtain ⟨hacts, hclean⟩ := queueStep_acts h.clean hstep
  refine ⟨?_, hclean⟩
  cases hacts with
  | extract hp => exact fun request hparked => nomatch hparked
  | park hp hfull => exact fun _ _ => hfull
  | insert hp hroom => exact fun request hparked => nomatch hparked
  | wakeProducer hp => exact fun request hparked => nomatch hparked
  | @retrieve i => exact fun request hparked => absurd hparked (hnobody i rfl request)
  | work ha => exact h.full

/-- A `retrieve_request` makes room without a signal. -/
theorem Waiting.lose {s s' : Server} {a : Action} (h : Waiting s) (hstep : queueStep s a = some s')
    (hwaits : ¬ NobodyWaits s a) : LeftAsleep s' := by
  have hparked : ∃ i, a = .retrieve i ∧ ∃ request, s.producer = .parked request := by
    simp only [NobodyWaits] at hwaits
    push Not at hwaits
    exact hwaits
  obtain ⟨i, rfl, request, hparked⟩ := hparked
  obtain ⟨hacts, -⟩ := queueStep_acts h.clean hstep
  cases hacts with
  | retrieve hq =>
    obtain ⟨r, -, heq⟩ := Option.map_eq_some_iff.1 hq
    obtain ⟨rfl, rfl⟩ := Prod.mk.inj heq
    have hfull := h.full request hparked
    exact ⟨⟨request, hparked⟩, by dsimp only; omega⟩
  | work ha => exact absurd rfl (ha i)

/-- **The inserting thread is never left asleep if and only if no `retrieve_request` runs while it
    waits**, in every run of the threads. -/
theorem never_left_asleep_iff {actions : List Action} :
    Along queueStep (fun s => ¬ LeftAsleep s) startServer actions ↔
      Guarded queueStep NobodyWaits startServer actions :=
  along_iff_guarded (J := Waiting)
    (fun s h hasleep => by
      obtain ⟨⟨request, hparked⟩, hroom⟩ := hasleep
      exact absurd (h.full request hparked) hroom.ne)
    (fun _ _ _ h hstep hg => h.keep hstep hg)
    (fun _ _ _ h hstep hg => not_not_intro (h.lose hstep hg))
    ⟨fun _ hparked => (nomatch hparked), fun _ => trivial⟩

/-- Two requests fill the buffer, the thread that has a third one waits, and a worker takes the
    first request. -/
def sleepingProducer : List Action :=
  [.extract sampleRequest, .insert none, .extract sampleRequest, .insert none,
    .extract sampleRequest, .insert none, .test 0, .retrieve 0]

theorem left_asleep :
    ∃ s, exec queueStep startServer sleepingProducer = some s ∧ LeftAsleep s := by
  have hrun : (exec queueStep startServer sleepingProducer).any (fun s =>
      s.producer = .parked sampleRequest ∧ s.queue.count = 1) = true := by decide +kernel
  obtain ⟨s, hs, hend⟩ := (Option.any_eq_true _ _).1 hrun
  obtain ⟨hparked, hcount⟩ := of_decide_eq_true hend
  exact ⟨s, hs, ⟨_, hparked⟩, by rw [hcount]; decide⟩

end EventServer
