import EventServer.Lib.Runs
import EventServer.Server.Threads

/-
  The store over whole runs of calls.

  `storeStep` is one call, with any outcome of its locks and allocations; a call that faults
  has no state after it. Starting from `ems_init`, every state of every run holds a well-formed
  list with distinct ids, on which `get_event` ends and finds the event with the given id, and
  no event ever moves (`store_invariant`). Only a reservation of an event whose size wraps can
  fault (`storeStep_eq_none`).
-/

namespace EventServer

open Lib Op

/-- A call with the outcomes of its locks and allocations. -/
structure StoreCall where
  call : Call
  env : Env := {}
  valid : call.Valid

/-- The memory after one call. -/
def storeStep (m : Mem) (c : StoreCall) : Option Mem := (runOp (c.call.op c.env) m).map Prod.snd

variable {m m' m₀ : Mem} {l : Ptr} {es es' : List Entry}

/-- A call that does not fault did one of the things it can do, whatever the events' sizes. -/
theorem call_did (h : Rep m l es) {call : Call} {env : Env} (hvalid : call.Valid)
    {ret : Int32 × Bytes} (hr : runOp (call.op env) m = some (ret, m')) :
    ∃ es', Rep m' l es' ∧ Did call ret es es' := by
  cases call with
  | emsCreate id rows cols =>
    obtain ⟨ret', m'', es', hrun, hrep, hdid⟩ := runOp_emsCreate h env id rows cols
    rw [Call.op, hrun] at hr
    cases hr
    exact ⟨es', hrep, hdid⟩
  | emsReserve id args =>
    obtain ⟨code, w, hret, hf, ⟨rfl, hm, -⟩ | ⟨rfl, -, e, hfind, hacc, hm, -⟩⟩ :=
      wp_of_runOp (E := fun _ => True) hr
        (wp_emsReserve (w := { mem := m }) h hvalid.length_le fun _ _ _ _ => trivial)
    · cases hret
      exact ⟨es, hm ▸ h, by rw [hf], Or.inl ⟨rfl, rfl⟩⟩
    · cases hret
      refine ⟨_, ?_, by rw [hf], Or.inr ⟨rfl, e, hfind, hacc, rfl⟩⟩
      rw [hm]
      exact h.reserve (findId_eq_some hfind).1 _
  | emsShow id =>
    rw [Call.op, runOp_emsShow h] at hr
    cases hr
    refine ⟨es, h, rfl, ?_⟩
    cases env.lockList && env.lockEvent
    · exact Or.inr rfl
    · exact Or.inl rfl
  | emsListEvents =>
    rw [Call.op, runOp_emsListEvents h] at hr
    cases hr
    refine ⟨es, h, rfl, ?_⟩
    cases env.lockList
    · exact Or.inr rfl
    · exact Or.inl rfl

/-- Runs keep the representation, and the events stay where they are. -/
theorem rep_of_run (h : Rep m l es) {cs : List StoreCall} (hrun : exec storeStep m cs = some m') :
    ∃ es', Rep m' l es' ∧ es.map Entry.key <+: es'.map Entry.key := by
  refine exec_invariant (I := fun m' => ∃ es', Rep m' l es' ∧
    es.map Entry.key <+: es'.map Entry.key) (fun m₁ c m₂ hi hm => ?_) ⟨es, h, List.prefix_refl _⟩ hrun
  obtain ⟨es₁, h₁, hpre⟩ := hi
  obtain ⟨⟨ret, _⟩, hr, rfl⟩ := Option.map_eq_some_iff.1 hm
  obtain ⟨es₂, h₂, hdid⟩ := call_did h₁ c.valid hr
  exact ⟨es₂, h₂, hpre.trans hdid.keys_prefix⟩

/-- Only a reservation of an event whose size wraps can fault: it writes outside the array. -/
theorem storeStep_eq_none (h : Rep m l es) {c : StoreCall} (hc : storeStep m c = none) :
    ∃ e ∈ es, ¬ NoWrap e.ev.rows e.ev.cols ∧ ∃ args, c.call = .emsReserve e.ev.id args := by
  obtain ⟨call, env, valid⟩ := c
  cases call with
  | emsCreate id rows cols =>
    obtain ⟨ret, m', es', hrun, -⟩ := runOp_emsCreate h env id rows cols
    rw [storeStep, Call.op, hrun] at hc
    cases hc
  | emsReserve id args =>
    by_contra hnone
    obtain ⟨code, w, hrun, -⟩ := runOp_of_wp
      (x := emsReserve env id args.num_seats args.xs args.ys)
      (wp_emsReserve (w := { mem := m }) h valid.length_le
        fun e hfind hwrap _ => hnone ⟨e, (findId_eq_some hfind).1, hwrap, args,
          by rw [(findId_eq_some hfind).2]⟩)
    rw [storeStep, Call.op, hrun] at hc
    cases hc
  | emsShow id =>
    rw [storeStep, Call.op, runOp_emsShow h] at hc
    cases hc
  | emsListEvents =>
    rw [storeStep, Call.op, runOp_emsListEvents h] at hc
    cases hc

/-! ## The shape of the list -/

/-- Follow `next` from a node `k` times. -/
def follow (m : Mem) : Nat → Option Ptr → Option Ptr
  | 0, p => p
  | k + 1, p => follow m k ((p.bind m.nodes.load).bind ListNode.next)

theorem follow_chain : ∀ {ps : List Ptr} {o : Option Ptr} {t : Ptr},
    Chain ListNode.next m.nodes o (ps ++ [t]) → follow m ps.length o = some t
  | [], _, _, hc => hc.1
  | p :: ps, o, t, ⟨ho, a, ha, hc⟩ => by
      rw [List.length_cons, follow, ho, Option.bind_some, ha, Option.bind_some]
      exact follow_chain hc

/-- The shape that `eventlist.c` relies on: both ends are NULL or none is, and then the tail is
    reached from the head and is the last node. -/
structure Shape (m : Mem) (list : EventList) : Prop where
  ends : list.head = none ↔ list.tail = none
  reach : list.head ≠ none → ∃ k, follow m k list.head = list.tail
  last : ∀ t, list.tail = some t → ∃ node, m.nodes.load t = some node ∧ node.next = none

theorem Rep.shape (h : Rep m l es) :
    Shape m ⟨(es.map Entry.node).head?, (es.map Entry.node).getLast?⟩ := by
  rcases List.eq_nil_or_concat' es with rfl | ⟨front, last, rfl⟩
  · exact ⟨by simp, by simp, by simp⟩
  · have htail : ((front ++ [last]).map Entry.node).getLast? = some last.node := by simp
    refine ⟨by simp, fun _ => ⟨front.length, ?_⟩, fun t ht => ?_⟩
    · have hchain := h.chain
      rw [List.map_append, List.map_singleton] at hchain
      have := follow_chain hchain
      rw [List.length_map] at this
      rw [htail]
      simpa using this
    · obtain rfl : last.node = t := Option.some.inj (htail.symm.trans ht)
      exact ⟨_, h.next_eq (show front ++ [last] = front ++ last :: [] from rfl), rfl⟩

/-- `get_event` on the whole list. -/
theorem Rep.getEvent (h : Rep m l es) (id : UInt32) :
    runOp (getEvent (some l) id (es.map Entry.node).head? (es.map Entry.node).getLast?) m =
      some (((findId es id).map Entry.event, []), m) := by
  have hwp := wp_getEventWithDelay (w := { mem := m }) h id (E := fun _ => False)
  rw [getEventWithDelay, wp_bind] at hwp
  simp only [wp_get, h.root] at hwp
  obtain ⟨r, w, hrun, rfl, rfl⟩ := runOp_of_wp hwp
  exact hrun

theorem Rep.findId_event (h : Rep m l es) {id : UInt32} {p : Ptr} :
    (findId es id).map Entry.event = some p ↔ ∃ e ∈ es, e.event = p ∧ e.ev.id = id := by
  constructor
  · intro hp
    obtain ⟨e, hfind, rfl⟩ := Option.map_eq_some_iff.1 hp
    obtain ⟨he, hid⟩ := findId_eq_some hfind
    exact ⟨e, he, rfl, hid⟩
  · rintro ⟨e, he, rfl, rfl⟩
    rw [h.findId_of_mem he, Option.map_some]

/-- **The store is well formed in every state of every run**, its events stay where they are,
    `get_event` ends and finds exactly the event with the given id, and an earlier LIST is a
    prefix of a later one. A run can always go on, except with a reservation of an event whose
    size wraps. -/
theorem store_invariant {env : Env} {bs : Bytes}
    (hinit : runOp (emsInit env) {} = some ((0, bs), m₀)) {cs cs' : List StoreCall}
    (h : exec storeStep m₀ cs = some m) (h' : exec storeStep m cs' = some m') :
    ∃ l list es es', m.eventList = some l ∧ m.lists.load l = some list ∧ Shape m list ∧
      Rep m l es ∧ Rep m' l es' ∧ (es.map fun e => e.ev.id).Nodup ∧
      es.map Entry.key <+: es'.map Entry.key ∧
      (∀ id, ∃ r, runOp (getEvent (some l) id list.head list.tail) m = some ((r, []), m) ∧
        ∀ p, r = some p ↔ ∃ e ∈ es, e.event = p ∧ e.ev.id = id) ∧
      (∀ env env', env.lockList = true → env'.lockList = true →
        ∃ ids ids', runOp (emsListEvents env) m = some (listing ids, m) ∧
          runOp (emsListEvents env') m' = some (listing ids', m') ∧ ids <+: ids') ∧
      ∀ c, storeStep m c = none →
        ∃ e ∈ es, ¬ NoWrap e.ev.rows e.ev.cols ∧ ∃ args, c.call = .emsReserve e.ev.id args := by
  obtain ⟨l, hrep₀⟩ := rep_of_emsInit hinit
  obtain ⟨es, hrep, -⟩ := rep_of_run hrep₀ h
  obtain ⟨es', hrep', hkeys⟩ := rep_of_run hrep h'
  refine ⟨l, _, es, es', hrep.root, hrep.list, hrep.shape, hrep, hrep', hrep.ids, hkeys,
    fun id => ⟨_, hrep.getEvent id, fun p => hrep.findId_event⟩, fun env env' hl hl' => ?_,
    fun c => storeStep_eq_none hrep⟩
  refine ⟨es.map fun e => e.ev.id, es'.map fun e => e.ev.id, ?_, ?_, ?_⟩
  · rw [runOp_emsListEvents hrep, if_pos hl]
    rfl
  · rw [runOp_emsListEvents hrep', if_pos hl']
    rfl
  · have := hkeys.map Entry.Key.id
    rwa [List.map_map, List.map_map] at this

/-- Creating an event, failing to create another, and reserving a seat of the first. -/
theorem store_invariant_sample : ∃ m m', exec storeStep freshMem
      [⟨.emsCreate 7 2 2, {}, trivial⟩, ⟨.emsCreate 8 1 1, { mallocNode := false }, trivial⟩] = some m ∧
    exec storeStep m [⟨.emsReserve 7 (.ofSeats [(1, 2)]), {}, SeatArgs.within_ofSeats _⟩,
      ⟨.emsCreate 9 3 1, {}, trivial⟩] = some m' ∧
    ∃ l list es es', m.eventList = some l ∧ m.lists.load l = some list ∧ Shape m list ∧
      Rep m l es ∧ Rep m' l es' ∧ (es.map fun e => e.ev.id).Nodup ∧
      es.map Entry.key <+: es'.map Entry.key ∧
      (∀ id, ∃ r, runOp (getEvent (some l) id list.head list.tail) m = some ((r, []), m) ∧
        ∀ p, r = some p ↔ ∃ e ∈ es, e.event = p ∧ e.ev.id = id) ∧
      (∀ env env', env.lockList = true → env'.lockList = true →
        ∃ ids ids', runOp (emsListEvents env) m = some (listing ids, m) ∧
          runOp (emsListEvents env') m' = some (listing ids', m') ∧ ids <+: ids') ∧
      ∀ c, storeStep m c = none →
        ∃ e ∈ es, ¬ NoWrap e.ev.rows e.ev.cols ∧ ∃ args, c.call = .emsReserve e.ev.id args := by
  have hrun : (exec storeStep freshMem
      ([⟨.emsCreate 7 2 2, {}, trivial⟩, ⟨.emsCreate 8 1 1, { mallocNode := false }, trivial⟩] ++
        [⟨.emsReserve 7 (.ofSeats [(1, 2)]), {}, SeatArgs.within_ofSeats _⟩,
          ⟨.emsCreate 9 3 1, {}, trivial⟩])).isSome =
      true := by decide +kernel
  rw [exec_append] at hrun
  obtain ⟨m', hm'⟩ := Option.isSome_iff_exists.1 hrun
  obtain ⟨m, hm, hmm'⟩ := Option.bind_eq_some_iff.1 hm'
  exact ⟨m, m', hm, hmm', store_invariant emsInit_freshMem hm hmm'⟩

end EventServer
