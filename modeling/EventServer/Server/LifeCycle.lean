import EventServer.Server.Locking

/-
  The life cycle of the store: `ems_init`, `ems_terminate` and `free_list` of `eventlist.c`.

  Whether the store is initialised is told by the pointer `event_list`. `free_list` gives back every
  block of the list once (`wp_freeList`), the struct with the list's lock among them; but
  `ems_terminate` then unlocks that lock, and it leaves `event_list` as it is, so that every later
  operation finds the store initialised and takes the lock of a list that is gone
  (`run_dangling`). So a run of calls keeps to the life cycle exactly as long as no
  `ems_terminate` gets the lock of an initialised store (`proper_iff`).
-/

namespace EventServer

open Lib Op

/-! ## `free_list` -/

/-- Frees the memory used by an event. -/
def freeEvent (event : Ptr) : Op Unit := do
  let e ← deref Mem.events (some event)
  Op.release Mem.cells putCells e.data
  Op.release Mem.events putEvents event

/-- The loop of `free_list`, as long as there are nodes. -/
def freeNodes : Nat → Option Ptr → Op Unit
  | _, none => return ()
  | 0, some _ => throw .diverges
  | fuel + 1, some temp => do
    let current ← deref Mem.nodes (some temp)
    freeEvent current.event
    Op.release Mem.nodes putNodes temp
    freeNodes fuel current.next

/-- Frees the memory used by an event list. -/
def freeList (list : Option Ptr) : Op Unit := do
  match list with
  | none => return ()
  | some p =>
    let l ← deref Mem.lists list
    freeNodes (← get).mem.nodes.fresh l.head
    Op.release Mem.lists putLists p

/-- `ems_terminate`. -/
def emsTerminate (env : Env) : Op Int32 := do
  if (← get).mem.eventList = none then
    printError "EMS state must be initialized.\n"
    return 1
  else if !(← lockList env) then
    printError "Error locking list rwl.\n"
    return 1
  else
    freeList (← get).mem.eventList
    if !(← unlockList env) then
      printError "Error unlocking list rwl.\n"
      return 1
    else return 0

/-! ### What it frees -/

/-- The memory after the blocks of the entries `es` have been freed. -/
structure Mem.Released (m m' : Mem) (es : List Entry) : Prop where
  eventList : m'.eventList = m.eventList
  lists : m'.lists = m.lists
  nodes : m.nodes.Freed m'.nodes (es.map Entry.node)
  events : m.events.Freed m'.events (es.map Entry.event)
  cells : m.cells.Freed m'.cells (es.map fun e => e.ev.data)

/-- What the loop of `free_list` needs of the entries it has still to free. -/
structure Mem.Holds (m : Mem) (es : List Entry) : Prop where
  chain : Chain ListNode.next m.nodes (es.map Entry.node).head? (es.map Entry.node)
  node : ∀ e ∈ es, ∃ next, m.nodes.load e.node = some ⟨e.event, next⟩
  event : ∀ e ∈ es, m.events.load e.event = some e.ev
  cells : ∀ e ∈ es, m.cells.load e.ev.data = some e.cells
  events : (es.map Entry.event).Nodup
  data : (es.map fun e => e.ev.data).Nodup

variable {m : Mem} {l : Ptr} {es : List Entry} {w : World} {E : Stop → Prop}

theorem Rep.holds (h : Rep m l es) : m.Holds es where
  chain := h.chain
  node := h.node
  event := h.event
  cells := h.cells
  events := List.Nodup.map_on (fun _ he _ he' hp => h.event_inj he he' hp)
    (List.Nodup.of_map _ h.ids)
  data := h.data

/-- Freeing the blocks of the first entry leaves those of the others alone. -/
theorem Mem.Holds.tail {m' : Mem} {e : Entry} (h : m.Holds (e :: es))
    (hnodes : ∀ q, m'.nodes.load q = if q = e.node then none else m.nodes.load q)
    (hevents : ∀ q, m'.events.load q = if q = e.event then none else m.events.load q)
    (hcells : ∀ q, m'.cells.load q = if q = e.ev.data then none else m.cells.load q) :
    m'.Holds es := by
  have hnode : ∀ p ∈ es.map Entry.node, p ≠ e.node := by
    rintro p hp rfl
    exact (List.nodup_cons.1 (chain_nodup h.chain)).1 hp
  obtain ⟨hevent, hevents'⟩ := List.nodup_cons.1 h.events
  obtain ⟨hdata, hdata'⟩ := List.nodup_cons.1 h.data
  obtain ⟨-, a, ha, hchain⟩ := h.chain
  rw [chain_eq_head? hchain] at hchain
  refine ⟨chain_congr hchain fun p hp b hb => ⟨b, ?_, rfl⟩, fun e' he' => ?_, fun e' he' => ?_,
    fun e' he' => ?_, hevents', hdata'⟩
  · rw [hnodes, if_neg (hnode p hp), hb]
  · rw [hnodes, if_neg (hnode _ (List.mem_map_of_mem he'))]
    exact h.node e' (List.mem_cons_of_mem _ he')
  · rw [hevents, if_neg fun heq => hevent (List.mem_map.2 ⟨e', he', heq⟩)]
    exact h.event e' (List.mem_cons_of_mem _ he')
  · rw [hcells, if_neg fun heq => hdata (List.mem_map.2 ⟨e', he', heq⟩)]
    exact h.cells e' (List.mem_cons_of_mem _ he')

/-- The loop frees what is left of the list. -/
theorem wp_freeNodes : ∀ (fuel : Nat) (es : List Entry) (w : World), es.length ≤ fuel →
    w.mem.Holds es →
    wp (freeNodes fuel (es.map Entry.node).head?) (fun _ w' => w.mem.Released w'.mem es) E w
  | fuel, [], w, _, _ => by
      rw [List.map_nil, List.head?_nil, freeNodes, wp_pure]
      exact ⟨rfl, rfl, Heap.freed_nil _, Heap.freed_nil _, Heap.freed_nil _⟩
  | fuel + 1, e :: es, w, hlen, h => by
      obtain ⟨next, hnode⟩ := h.node e (List.mem_cons_self ..)
      have hnext : next = (es.map Entry.node).head? := by
        obtain ⟨-, a, ha, hchain⟩ := h.chain
        obtain rfl : a = ⟨e.event, next⟩ := Option.some.inj (ha.symm.trans hnode)
        exact chain_eq_head? hchain
      have hevent := h.event e (List.mem_cons_self ..)
      obtain ⟨cells, hcells, hcells'⟩ := Heap.free_of_load (h.cells e (List.mem_cons_self ..))
      obtain ⟨events, hevents, hevents'⟩ := Heap.free_of_load hevent
      obtain ⟨nodes, hnodes, hnodes'⟩ := Heap.free_of_load hnode
      simp only [List.map_cons, List.head?_cons, freeNodes, freeEvent, wp_bind, wp_deref, hnode,
        hevent, wp_release, hcells, hevents, hnodes, putCells, putEvents, putNodes, hnext]
      refine wp_mono (wp_freeNodes fuel es _ (Nat.le_of_succ_le_succ hlen)
        (h.tail hnodes' hevents' hcells')) (fun _ w' hrel => ?_) fun _ he => he
      exact ⟨hrel.eventList, hrel.lists, hrel.nodes.cons hnodes', hrel.events.cons hevents',
        hrel.cells.cons hcells'⟩

/-- **`free_list` frees every node, event and array of seats of the list once, and no other**, and
    then the list; `event_list` still points there. -/
theorem wp_freeList (h : Rep w.mem l es) :
    wp (freeList (some l)) (fun _ w' => w'.mem.eventList = some l ∧
      w.mem.lists.Freed w'.mem.lists [l] ∧
      w.mem.nodes.Freed w'.mem.nodes (es.map Entry.node) ∧
      w.mem.events.Freed w'.mem.events (es.map Entry.event) ∧
      w.mem.cells.Freed w'.mem.cells (es.map fun e => e.ev.data)) E w := by
  simp only [freeList, wp_bind, wp_deref, h.list, wp_get]
  refine wp_mono (wp_freeNodes _ es w h.length_le h.holds) (fun _ w₁ hrel => ?_) fun _ he => he
  have hlist := h.list
  rw [← hrel.lists] at hlist
  obtain ⟨lists, hfree, hlists⟩ := Heap.free_of_load hlist
  simp only [wp_release, hfree, putLists]
  rw [hrel.lists] at hlists
  exact ⟨hrel.eventList.trans h.root, (Heap.freed_nil lists).cons hlists, hrel.nodes, hrel.events,
    hrel.cells⟩

/-- So `ems_terminate` unlocks a lock that is gone. -/
theorem run_emsTerminate (h : Rep w.mem l es) {env : Env} (hlock : env.lockList = true) :
    (emsTerminate env).run w = .error .dangling := by
  have hnn : w.mem.eventList ≠ none := by rw [h.root]; simp
  have hwp : wp (emsTerminate env) (fun _ _ => False) (· = .dangling) w := by
    simp only [emsTerminate, wp_bind, wp_get, wp_ite, wp_lockList h.root h.list, hlock,
      Bool.not_true, Bool.false_eq_true, false_imp_iff, true_and, not_false_iff, true_imp_iff]
    refine ⟨fun hn => absurd hn hnn, fun _ => ?_⟩
    have h' : Rep (w.mark true (.acquire .list)).mem l es := by rwa [World.mark_mem]
    rw [h'.root]
    refine wp_mono (wp_freeList h') (fun _ w₁ hpost => ?_) fun _ he => he
    obtain ⟨hroot, hlists, -⟩ := hpost
    have hdead : w₁.mem.lists.load l = none := by simp [hlists l]
    simp [unlockList, hroot, wp_deref, hdead]
  obtain ⟨e, hrun, rfl⟩ := run_error_of_wp hwp
  exact hrun

/-! ## Runs of calls -/

/-- A function of the store's interface. -/
inductive LifeOp where
  | emsInit
  | emsTerminate
  | store (op : StoreOp)

def LifeOp.op (env : Env) : LifeOp → Op Int32
  | .emsInit => EventServer.emsInit env
  | .emsTerminate => EventServer.emsTerminate env
  | .store op => op.op env

/-- The argument arrays of a reservation are long enough. -/
def LifeOp.Valid : LifeOp → Prop
  | .store (.call c) => c.Valid
  | _ => True

/-- A call with the outcomes of its locks and allocations and the turns on its descriptor. -/
structure LifeCall where
  op : LifeOp
  env : Env := {}
  turns : List Turn := []
  valid : op.Valid

def LifeCall.run (c : LifeCall) (m : Mem) : Except Stop (Int32 × World) :=
  (c.op.op c.env).run { mem := m, fd := { turns := c.turns } }

/-- The server's memory. The store is initialised if `ems_init` has returned 0 and `ems_terminate`
    has not since. -/
structure Life where
  mem : Mem := {}
  initialised : Bool := false

/-- Whether the store is initialised after a call. -/
def LifeOp.initialises (code : Int32) (before : Bool) : LifeOp → Bool
  | .emsInit => if code = 0 then true else before
  | .emsTerminate => if code = 0 then false else before
  | .store _ => before

def lifeStep (s : Life) (c : LifeCall) : Option Life :=
  match c.run s.mem with
  | .ok (code, w) => some ⟨w.mem, c.op.initialises code s.initialised⟩
  | .error _ => none

/-- The call keeps to the life cycle. -/
structure Proper (s : Life) (c : LifeCall) : Prop where
  /-- It uses no block that has been freed, and frees none twice. -/
  live : ∀ e, c.run s.mem = .error e → e ≠ .dangling ∧ e ≠ .nullPointer
  /-- `ems_terminate` leaves no node, no event and no array of seats. -/
  freed : c.op = .emsTerminate → ∀ w, c.run s.mem = .ok (0, w) →
    ∀ p, w.mem.nodes.load p = none ∧ w.mem.events.load p = none ∧ w.mem.cells.load p = none
  /-- Without a store every operation returns 1 and touches nothing. -/
  closed : s.initialised = false → c.op ≠ .emsInit →
    ∃ w, c.run s.mem = .ok (1, w) ∧ w.mem = s.mem ∧ w.trace = []

/-- The call is an `ems_terminate` that gets the lock of an initialised store. -/
def FreesList (s : Life) (c : LifeCall) : Prop :=
  c.op = .emsTerminate ∧ s.mem.eventList ≠ none ∧ c.env.lockList = true

/-! ### Without a store -/

theorem wp_respond_untouched (result : Int32) :
    wp (respond result) (fun _ w' => w'.mem = w.mem ∧ w'.trace = w.trace) E w := by
  simp only [respond, write, wp_bind, wp_get, wp_set, wp_pure, wp_ite, wp_printError]
  exact ⟨fun _ => ⟨trivial, trivial⟩, fun _ => ⟨trivial, trivial⟩⟩

/-- Every function but `ems_init` sees that there is no store. -/
theorem wp_closed (hnone : w.mem.eventList = none) {op : LifeOp} (hop : op ≠ .emsInit)
    (env : Env) :
    wp (op.op env) (fun code w' => code = 1 ∧ w'.mem = w.mem ∧ w'.trace = w.trace) E w := by
  cases op with
  | emsInit => exact absurd rfl hop
  | emsTerminate => simp [LifeOp.op, emsTerminate, hnone]
  | store op =>
    cases op with
    | emsShowStdout fuel id =>
      simp [LifeOp.op, StoreOp.op, emsShowStdout, emsShowStdoutLookup, hnone]
    | call c =>
      cases c with
      | emsCreate id rows cols => simp [LifeOp.op, StoreOp.op, Call.op, emsCreate, hnone]
      | emsReserve id args =>
        simp [LifeOp.op, StoreOp.op, Call.op, emsReserve, emsReserveLookup, hnone]
      | emsShow id =>
        simp only [LifeOp.op, StoreOp.op, Call.op, emsShow, emsShowLookup, wp_bind, wp_get, hnone,
          if_true, wp_printError]
        exact wp_mono (wp_respond_untouched 1) (fun _ _ h => ⟨rfl, h⟩) fun _ he => he
      | emsListEvents =>
        simp only [LifeOp.op, StoreOp.op, Call.op, emsListEvents, wp_bind, wp_get, hnone, if_true,
          wp_printError]
        exact wp_mono (wp_respond_untouched 1) (fun _ _ h => ⟨rfl, h⟩) fun _ he => he

/-- `ems_init` sets up an empty list, or none. -/
theorem wp_emsInit (hnone : w.mem.eventList = none) (env : Env) :
    wp (emsInit env) (fun code w' => code = 0 ∧ (∃ l, Rep w'.mem l []) ∨
      code ≠ 0 ∧ w'.mem.eventList = none) E w := by
  have hempty : (w.mem.lists.alloc ⟨none, none⟩).load w.mem.lists.fresh = some ⟨none, none⟩ :=
    Heap.load_alloc_fresh _ _
  obtain ⟨lists, hfree, -⟩ := Heap.free_of_load hempty
  simp only [emsInit, createList, wp_bind, wp_get, wp_ite, wp_allocate, wp_setMem, wp_pure,
    wp_release, hnone, putLists, hfree]
  refine ⟨fun h => absurd rfl h, fun _ => ⟨fun _ => ⟨fun _ => ?_, fun _ => by simp⟩,
    fun _ => by simp⟩⟩
  refine Or.inl ⟨by simp, w.mem.lists.fresh, ?_⟩
  exact ⟨rfl, hempty, rfl, by simp, by simp, by simp, by simp, List.nodup_nil, List.nodup_nil⟩

/-! ### With a store -/

/-- A call of an operation keeps the representation, and uses no block that has been freed. -/
theorem wp_storeOp (h : Rep w.mem l es) {op : StoreOp} (hop : (LifeOp.store op).Valid)
    (env : Env) :
    wp (op.op env) (fun _ w' => ∃ es', Rep w'.mem l es')
      (fun e => e ≠ .dangling ∧ e ≠ .nullPointer) w := by
  cases op with
  | emsShowStdout fuel id =>
    refine wp_mono (wp_emsShowStdout_mem h fun e _ => ?_) (fun _ w' hm => ⟨es, hm ▸ h⟩)
      fun _ he => he
    exact ⟨fun _ _ _ => by decide, fun _ => by decide, fun _ => ⟨by decide, fun _ => by decide⟩⟩
  | call c =>
    cases c with
    | emsCreate id rows cols =>
      refine wp_mono (wp_emsCreate h rows cols) (fun code w' hpost => ?_) fun _ he => he
      obtain ⟨-, ⟨-, hrep, -⟩ | ⟨-, -, -, -, hrep⟩⟩ := hpost
      · exact ⟨es, hrep⟩
      · exact ⟨_, hrep⟩
    | emsReserve id args =>
      refine wp_mono (wp_emsReserve h (SeatArgs.Within.length_le hop) fun _ _ _ _ => by decide)
        (fun code w' hpost => ?_) fun _ he => he
      obtain ⟨-, ⟨-, hm, -⟩ | ⟨-, -, e, hfind, -, hm, -⟩⟩ := hpost
      · exact ⟨es, hm ▸ h⟩
      · rw [hm]
        exact ⟨_, h.reserve (findId_eq_some hfind).1 _⟩
    | emsShow id =>
      exact wp_mono (wp_emsShow h id) (fun _ w' hr => ⟨es, hr.mem ▸ h⟩) fun _ he => he
    | emsListEvents =>
      exact wp_mono (wp_emsListEvents h) (fun _ w' hr => ⟨es, hr.mem ▸ h⟩) fun _ he => he

/-- What every call keeps that does not free the list. -/
def Life.Alive (s : Life) : Prop :=
  s.initialised = false ∧ s.mem.eventList = none ∨
    s.initialised = true ∧ ∃ l es, Rep s.mem l es

theorem wp_lifeCall {s : Life} (hs : s.Alive) {c : LifeCall} (hc : ¬ FreesList s c) :
    wp (c.op.op c.env)
      (fun code w' => (⟨w'.mem, c.op.initialises code s.initialised⟩ : Life).Alive ∧
        (c.op = .emsTerminate → code = 1))
      (fun e => e ≠ .dangling ∧ e ≠ .nullPointer) { mem := s.mem, fd := { turns := c.turns } } := by
  obtain ⟨op, env, turns, valid⟩ := c
  obtain ⟨hinit, hnone⟩ | ⟨hinit, l, es, hrep⟩ := hs
  · by_cases hop : op = .emsInit
    · subst hop
      refine wp_mono (wp_emsInit (w := { mem := s.mem, fd := { turns } }) hnone env)
        (fun code w' hpost => ⟨?_, fun h => LifeOp.noConfusion h⟩) fun _ he => he
      obtain ⟨rfl, l, hrep⟩ | ⟨hcode, hnone'⟩ := hpost
      · exact Or.inr ⟨rfl, l, [], hrep⟩
      · exact Or.inl ⟨by simp [LifeOp.initialises, hcode, hinit], hnone'⟩
    · refine wp_mono (wp_closed (w := { mem := s.mem, fd := { turns } }) hnone hop env)
        (fun code w' hpost => ?_) fun _ he => he
      obtain ⟨rfl, hm, -⟩ := hpost
      refine ⟨Or.inl ⟨?_, hm ▸ hnone⟩, fun _ => rfl⟩
      cases op <;> simp_all [LifeOp.initialises]
  · have hsome : s.mem.eventList ≠ none := by rw [hrep.root]; simp
    cases op with
    | emsInit =>
      simp only [LifeOp.op, emsInit, wp_bind, wp_get, wp_ite, wp_printError, wp_pure]
      refine ⟨fun _ => ⟨Or.inr ⟨hinit, l, es, hrep⟩, fun h => LifeOp.noConfusion h⟩, fun h => ?_⟩
      exact absurd h (not_not_intro hsome)
    | emsTerminate =>
      have hlock : env.lockList = false := by
        cases hlock : env.lockList
        · rfl
        · exact absurd ⟨rfl, hsome, hlock⟩ hc
      simp only [LifeOp.op, emsTerminate, wp_bind, wp_get, wp_ite, hlock, wp_printError, wp_pure,
        wp_lockList (w := { mem := s.mem, fd := { turns } }) hrep.root hrep.list]
      refine ⟨fun h => absurd h hsome, fun _ => ⟨fun _ => ?_, fun h => absurd rfl h⟩⟩
      exact ⟨Or.inr ⟨hinit, l, es, hrep⟩, fun _ => trivial⟩
    | store op =>
      refine wp_mono (wp_storeOp (w := { mem := s.mem, fd := { turns } }) hrep valid env)
        (fun code w' hpost => ?_) fun _ he => he
      obtain ⟨es', hrep'⟩ := hpost
      exact ⟨Or.inr ⟨hinit, l, es', hrep'⟩, fun h => LifeOp.noConfusion h⟩

theorem Life.Alive.step {s s' : Life} (hs : s.Alive) {c : LifeCall}
    (hstep : lifeStep s c = some s') : s'.Alive := by
  unfold lifeStep at hstep
  split at hstep
  · next code w hrun =>
    obtain rfl := Option.some.inj hstep
    by_cases hc : FreesList s c
    · obtain ⟨op, env, turns, valid⟩ := c
      obtain ⟨rfl, hsome, hlock⟩ := hc
      obtain ⟨-, hnone⟩ | ⟨-, l, es, hrep⟩ := hs
      · exact absurd hnone hsome
      · have hdangling := run_emsTerminate (w := { mem := s.mem, fd := { turns } }) hrep hlock
        rw [LifeCall.run, LifeOp.op, hdangling] at hrun
        cases hrun
    · exact (wp_run_ok (wp_lifeCall hs hc) hrun).1
  · cases hstep

theorem alive_start : Life.Alive {} := Or.inl ⟨rfl, rfl⟩

/-- A call keeps to the life cycle exactly when it does not free the list. -/
theorem Life.Alive.proper_iff_not_frees {s : Life} (hs : s.Alive) (c : LifeCall) :
    Proper s c ↔ ¬ FreesList s c := by
  constructor
  · rintro hproper ⟨hop, hsome, hlock⟩
    obtain ⟨op, env, turns, valid⟩ := c
    obtain rfl : op = .emsTerminate := hop
    obtain ⟨-, hnone⟩ | ⟨-, l, es, hrep⟩ := hs
    · exact hsome hnone
    · have hdangling := run_emsTerminate (w := { mem := s.mem, fd := { turns } }) hrep hlock
      exact (hproper.live .dangling hdangling).1 rfl
  · intro hc
    have hwp := wp_lifeCall hs hc
    refine ⟨fun e hrun => (wp_of_run_error hrun).1 hwp, fun hop w hrun => ?_, fun hinit hop => ?_⟩
    · exact absurd ((wp_run_ok hwp hrun).2 hop) (by decide)
    · obtain ⟨-, hnone⟩ | ⟨hinit', -⟩ := hs
      · obtain ⟨code, w, hrun, rfl, hm, htrace⟩ := run_of_wp
          (wp_closed (w := { mem := s.mem, fd := { turns := c.turns } }) hnone hop c.env)
        exact ⟨w, hrun, hm, htrace⟩
      · rw [hinit] at hinit'
        cases hinit'

/-- **A run keeps to the life cycle exactly when none of its calls is an `ems_terminate` that gets
    the lock of an initialised store.** -/
theorem proper_iff (cs : List LifeCall) :
    Throughout lifeStep Proper {} cs ↔ Throughout lifeStep (fun s c => ¬ FreesList s c) {} cs :=
  throughout_iff (I := Life.Alive) (fun _ _ _ hs hstep => hs.step hstep)
    (fun _ c hs => hs.proper_iff_not_frees c) alive_start

/-- Setting up a store and terminating it. -/
theorem not_proper_terminate :
    ¬ Throughout lifeStep Proper {} [⟨.emsInit, {}, [], trivial⟩, ⟨.emsTerminate, {}, [], trivial⟩] := by
  rintro ⟨-, h⟩
  exact ((h _ rfl).1.live .dangling rfl).1 rfl

/-- Once `free_list` has freed the list, whatever is called uses it, since `event_list` still points
    there; and `ems_init` does not set up another one. -/
theorem run_dangling {m : Mem} {l : Ptr} (hroot : m.eventList = some l)
    (hdead : m.lists.load l = none) (c : LifeCall) :
    c.op ≠ .emsInit ∧ c.run m = .error .dangling ∨
      c.op = .emsInit ∧ ∃ w, c.run m = .ok (1, w) ∧ w.mem = m := by
  obtain ⟨op, env, turns, valid⟩ := c
  have hall : op ≠ .emsInit → wp (op.op env) (fun _ _ => False) (· = .dangling)
      { mem := m, fd := { turns } } := by
    intro hop
    cases op with
    | emsInit => exact absurd rfl hop
    | emsTerminate => simp [LifeOp.op, emsTerminate, lockList, wp_deref, hroot, hdead]
    | store op =>
      cases op with
      | emsShowStdout fuel id =>
        simp [LifeOp.op, StoreOp.op, emsShowStdout, emsShowStdoutLookup, lockList, wp_deref, hroot,
          hdead]
      | call c =>
        cases c <;>
          simp [LifeOp.op, StoreOp.op, Call.op, emsCreate, emsReserve, emsReserveLookup, emsShow,
            emsShowLookup, emsListEvents, lockList, wp_deref, hroot, hdead]
  by_cases hop : op = .emsInit
  · subst hop
    have hinit : wp (emsInit env) (fun code w => code = 1 ∧ w.mem = m) (fun _ => False)
        { mem := m, fd := { turns } } := by simp [emsInit, hroot]
    obtain ⟨code, w, hrun, rfl, hm⟩ := run_of_wp hinit
    exact Or.inr ⟨rfl, w, hrun, hm⟩
  · obtain ⟨e, hrun, rfl⟩ := run_error_of_wp (hall hop)
    exact Or.inl ⟨hop, hrun⟩

end EventServer
