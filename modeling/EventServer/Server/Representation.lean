import EventServer.Server.Operations

/-
  What the memory represents: the representation invariant and one specification per operation.

  `Rep m l es` says that the list at `l` holds exactly the events `es`, in order: the nodes form
  a chain from head to tail, each event and its seat array is live and of the right size, ids
  are distinct and no two events share a seat array. Each operation is specified by what it does
  to `es`; nothing after this file follows a pointer.
-/

namespace EventServer

open Lib Op

/-- An event of the list, with the pointers that lead to it. -/
structure Entry where
  node : Ptr
  event : Ptr
  ev : Event
  cells : List UInt32
  deriving DecidableEq, Repr

/-- What never changes about an event: where it is, its id and its dimensions. -/
structure Entry.Key where
  node : Ptr
  event : Ptr
  id : UInt32
  rows : UInt64
  cols : UInt64
  data : Ptr
  deriving DecidableEq, Repr

def Entry.key (e : Entry) : Entry.Key :=
  ⟨e.node, e.event, e.ev.id, e.ev.rows, e.ev.cols, e.ev.data⟩

structure Rep (m : Mem) (l : Ptr) (es : List Entry) : Prop where
  root : m.eventList = some l
  list : m.lists.load l = some ⟨(es.map Entry.node).head?, (es.map Entry.node).getLast?⟩
  chain : Chain ListNode.next m.nodes (es.map Entry.node).head? (es.map Entry.node)
  node : ∀ e ∈ es, ∃ next, m.nodes.load e.node = some ⟨e.event, next⟩
  event : ∀ e ∈ es, m.events.load e.event = some e.ev
  cells : ∀ e ∈ es, m.cells.load e.ev.data = some e.cells
  size : ∀ e ∈ es, e.cells.length = (e.ev.rows * e.ev.cols).toNat
  ids : (es.map fun e => e.ev.id).Nodup
  data : (es.map fun e => e.ev.data).Nodup

/-- The entry with the given id. -/
def findId (es : List Entry) (id : UInt32) : Option Entry := es.find? fun e => e.ev.id = id

variable {m : Mem} {l : Ptr} {es : List Entry} {w : World}

theorem findId_eq_some {id : UInt32} {e : Entry} (h : findId es id = some e) :
    e ∈ es ∧ e.ev.id = id :=
  ⟨List.mem_of_find?_eq_some h, by simpa using List.find?_some h⟩

theorem findId_eq_none {id : UInt32} : findId es id = none ↔ ∀ e ∈ es, e.ev.id ≠ id := by
  simp [findId]

/-- In a list with distinct ids the look-up finds every entry. -/
theorem findId_of_mem (hids : (es.map fun e => e.ev.id).Nodup) {e : Entry} (he : e ∈ es) :
    findId es e.ev.id = some e := by
  cases hf : findId es e.ev.id with
  | none => exact absurd rfl (findId_eq_none.1 hf e he)
  | some e' =>
    obtain ⟨he', hid⟩ := findId_eq_some hf
    rw [List.inj_on_of_nodup_map hids he' he hid]

theorem Rep.findId_of_mem (h : Rep m l es) {e : Entry} (he : e ∈ es) :
    findId es e.ev.id = some e :=
  EventServer.findId_of_mem h.ids he

/-- Two entries at one address are the same entry. -/
theorem Rep.event_inj (h : Rep m l es) {e e' : Entry} (he : e ∈ es) (he' : e' ∈ es)
    (hp : e.event = e'.event) : e = e' := by
  have hev : e.ev = e'.ev := Option.some.inj ((h.event e he).symm.trans (hp ▸ h.event e' he'))
  exact List.inj_on_of_nodup_map h.ids he he' (congrArg Event.id hev)

theorem Rep.nodes_nodup (h : Rep m l es) : (es.map Entry.node).Nodup := chain_nodup h.chain

theorem Rep.length_le (h : Rep m l es) : es.length ≤ m.nodes.fresh := by
  simpa using chain_length_le h.chain

/-! ## Walking the list -/

/-- The next pointer at an entry of the list leads to the entry after it. -/
theorem Rep.next_eq (h : Rep m l es) {pre rest : List Entry} {e : Entry}
    (hes : es = pre ++ e :: rest) :
    m.nodes.load e.node = some ⟨e.event, (rest.map Entry.node).head?⟩ := by
  obtain ⟨next, hnode⟩ := h.node e (by simp [hes])
  have hchain := h.chain
  rw [hes] at hchain
  simp only [List.map_append, List.map_cons] at hchain
  obtain ⟨-, a, ha, hrest⟩ := chain_drop hchain
  obtain rfl : a = ⟨e.event, next⟩ := Option.some.inj (ha.symm.trans hnode)
  rw [hnode, ← chain_eq_head? hrest]

/-- The list's tail is the node of its last entry and of no other. -/
theorem Rep.eq_tail_iff (h : Rep m l es) {pre rest : List Entry} {e : Entry}
    (hes : es = pre ++ e :: rest) :
    some e.node = (es.map Entry.node).getLast? ↔ rest = [] := by
  constructor
  · intro ht
    rcases List.eq_nil_or_concat' rest with hr | ⟨front, last, hr⟩
    · exact hr
    · have hnd := h.nodes_nodup
      subst hr
      rw [hes] at ht hnd
      simp only [List.map_append, List.map_cons, List.map_nil, ← List.cons_append,
        ← List.append_assoc, List.getLast?_concat, Option.some.injEq] at ht hnd
      rw [List.nodup_append] at hnd
      exact absurd ht (hnd.2.2 _ (by simp) _ (by simp))
  · rintro rfl
    simp [hes]

/-- `get_event` from any entry on finds the entry with the given id there. -/
theorem wp_getEventLoop (h : Rep w.mem l es) (id : UInt32) {E : Stop → Prop} : ∀ (fuel : Nat)
    (pre rest : List Entry) (e : Entry), es = pre ++ e :: rest → rest.length < fuel →
    wp (getEventLoop id (es.map Entry.node).getLast? fuel (some e.node))
      (fun r w' => r = (findId (e :: rest) id).map Entry.event ∧ w' = w) E w
  | 0, _, _, _, _, hf => by omega
  | fuel + 1, pre, rest, e, hes, hf => by
      have hnode := h.next_eq hes
      have hev := h.event e (by simp [hes])
      simp only [getEventLoop, wp_bind, wp_deref, hnode, hev, wp_ite, wp_pure]
      refine ⟨fun hid => by simp [findId, hid], fun hid => ⟨fun ht => ?_, fun ht => ?_⟩⟩
      · obtain rfl := (h.eq_tail_iff hes).1 ht
        simp [findId, hid]
      · obtain ⟨e', rest', rfl⟩ : ∃ e' rest', rest = e' :: rest' := by
          cases rest with
          | nil => exact absurd ((h.eq_tail_iff hes).2 rfl) ht
          | cons e' rest' => exact ⟨e', rest', rfl⟩
        have hrec := wp_getEventLoop h id (E := E) fuel (pre ++ [e]) rest' e' (by simp [hes])
          (by simp at hf; omega)
        have hfind : findId (e :: e' :: rest') id = findId (e' :: rest') id := by
          simp [findId, hid]
        rw [hfind]
        exact hrec

/-- `get_event` on the whole list finds the event with the given id, and changes nothing. -/
theorem wp_getEventWithDelay (h : Rep w.mem l es) (id : UInt32) {E : Stop → Prop} :
    wp (getEventWithDelay id (es.map Entry.node).head? (es.map Entry.node).getLast?)
      (fun r w' => r = (findId es id).map Entry.event ∧ w' = w) E w := by
  simp only [getEventWithDelay, getEvent, wp_bind, wp_get, wp_ite, wp_pure, h.root]
  cases hes : es with
  | nil => simp [findId]
  | cons e rest =>
    refine ⟨by simp, fun _ => ?_⟩
    have hlen := h.length_le
    have := wp_getEventLoop h id (E := E) w.mem.nodes.fresh [] rest e hes
      (by simp [hes] at hlen; omega)
    simpa [hes] using this

/-! ## The contents of the store -/

/-- What clients can know of an event. -/
structure Contents where
  id : UInt32
  reservations : UInt32
  rows : UInt64
  cols : UInt64
  cells : List UInt32
  deriving DecidableEq, Repr

def Entry.contents (e : Entry) : Contents :=
  ⟨e.ev.id, e.ev.reservations, e.ev.rows, e.ev.cols, e.cells⟩

/-- The events that a walk of at most `n` nodes meets. -/
def Mem.walk (m : Mem) : Nat → Option Ptr → List Contents
  | 0, _ => []
  | _, none => []
  | n + 1, some p =>
    match m.nodes.load p with
    | none => []
    | some node =>
      match m.events.load node.event with
      | none => []
      | some ev =>
        ⟨ev.id, ev.reservations, ev.rows, ev.cols, (m.cells.load ev.data).getD []⟩ ::
          m.walk n node.next

/-- The events of the store, in creation order. -/
def Mem.contents (m : Mem) : List Contents :=
  match m.eventList.bind m.lists.load with
  | none => []
  | some list => m.walk m.nodes.fresh list.head

theorem Rep.walk (h : Rep m l es) : ∀ (n : Nat) (pre rest : List Entry), es = pre ++ rest →
    rest.length ≤ n → m.walk n (rest.map Entry.node).head? = rest.map Entry.contents
  | 0, _, rest, _, hn => by
      obtain rfl := List.eq_nil_of_length_eq_zero (Nat.le_zero.1 hn)
      rfl
  | n + 1, pre, [], _, _ => rfl
  | n + 1, pre, e :: rest, hes, hn => by
      have hrec := h.walk n (pre ++ [e]) rest (by simp [hes]) (by simpa using hn)
      simp only [List.map_cons, List.head?_cons, Mem.walk, h.next_eq hes,
        h.event e (by simp [hes]), h.cells e (by simp [hes]), hrec, Option.getD_some]
      rfl

/-- The walk meets the events that the memory represents. -/
theorem Rep.contents (h : Rep m l es) : m.contents = es.map Entry.contents := by
  rw [Mem.contents, h.root, Option.bind_some, h.list]
  exact h.walk _ [] es rfl h.length_le

/-! ## Appending -/

/-- The invariant speaks only of the blocks that the list reaches. -/
theorem Rep.congr {m' : Mem} (h : Rep m l es) (hroot : m'.eventList = m.eventList)
    (hlist : m'.lists.load l = m.lists.load l)
    (hnode : ∀ p a, m.nodes.load p = some a → m'.nodes.load p = some a)
    (hevent : ∀ p a, m.events.load p = some a → m'.events.load p = some a)
    (hcells : ∀ p a, m.cells.load p = some a → m'.cells.load p = some a) : Rep m' l es where
  root := hroot.trans h.root
  list := hlist.trans h.list
  chain := chain_congr h.chain fun p _ a ha => ⟨a, hnode p a ha, rfl⟩
  node e he := (h.node e he).imp fun _ ha => hnode _ _ ha
  event e he := hevent _ _ (h.event e he)
  cells e he := hcells _ _ (h.cells e he)
  size := h.size
  ids := h.ids
  data := h.data

/-- Adding an entry whose event and seats are in place and whose node closes the chain. -/
theorem Rep.snoc {m' : Mem} {e : Entry} (h : Rep m l es) (hroot : m'.eventList = some l)
    (hlist : m'.lists.load l = some ⟨((es ++ [e]).map Entry.node).head?, some e.node⟩)
    (hchain : Chain ListNode.next m'.nodes ((es ++ [e]).map Entry.node).head?
      ((es ++ [e]).map Entry.node))
    (hnode : ∀ e' ∈ es ++ [e], ∃ next, m'.nodes.load e'.node = some ⟨e'.event, next⟩)
    (hevents : m'.events = m.events) (hcells : m'.cells = m.cells)
    (hev : m.events.load e.event = some e.ev) (hdata : m.cells.load e.ev.data = some e.cells)
    (hsize : e.cells.length = (e.ev.rows * e.ev.cols).toNat)
    (hid : ∀ e' ∈ es, e'.ev.id ≠ e.ev.id) (hnew : ∀ e' ∈ es, e'.ev.data ≠ e.ev.data) :
    Rep m' l (es ++ [e]) where
  root := hroot
  list := by rw [hlist]; simp
  chain := hchain
  node := hnode
  event e' he' := by
    rw [hevents]
    rcases List.mem_append.1 he' with he' | he'
    · exact h.event e' he'
    · rw [List.mem_singleton.1 he']; exact hev
  cells e' he' := by
    rw [hcells]
    rcases List.mem_append.1 he' with he' | he'
    · exact h.cells e' he'
    · rw [List.mem_singleton.1 he']; exact hdata
  size e' he' := by
    rcases List.mem_append.1 he' with he' | he'
    · exact h.size e' he'
    · rw [List.mem_singleton.1 he']; exact hsize
  ids := by
    rw [List.map_append, List.map_singleton, List.nodup_append]
    refine ⟨h.ids, List.nodup_singleton _, fun a ha b hb => ?_⟩
    obtain ⟨e', he', rfl⟩ := List.mem_map.1 ha
    rw [List.mem_singleton.1 hb]
    exact hid e' he'
  data := by
    rw [List.map_append, List.map_singleton, List.nodup_append]
    refine ⟨h.data, List.nodup_singleton _, fun a ha b hb => ?_⟩
    obtain ⟨e', he', rfl⟩ := List.mem_map.1 ha
    rw [List.mem_singleton.1 hb]
    exact hnew e' he'

/-- `append_to_list` puts the event behind all others, on the empty list as well, or fails and
    changes nothing. -/
theorem wp_appendToList (env : Env) (h : Rep w.mem l es) {p : Ptr} {ev : Event}
    {cells : List UInt32} (hev : w.mem.events.load p = some ev)
    (hdata : w.mem.cells.load ev.data = some cells)
    (hsize : cells.length = (ev.rows * ev.cols).toNat) (hid : ∀ e' ∈ es, e'.ev.id ≠ ev.id)
    (hnew : ∀ e' ∈ es, e'.ev.data ≠ ev.data) {E : Stop → Prop} :
    wp (appendToList env (some l) p) (fun code w' =>
      w'.fd = w.fd ∧ w'.mem.events = w.mem.events ∧ w'.mem.cells = w.mem.cells ∧
      (env.mallocNode = false ∧ code = 1 ∧ w' = w ∨
        env.mallocNode = true ∧ code = 0 ∧
          Rep w'.mem l (es ++ [⟨w.mem.nodes.fresh, p, ev, cells⟩]))) E w := by
  simp only [appendToList, wp_bind, wp_allocate, wp_deref, putNodes, h.list]
  refine ⟨fun hok => ?_, fun hok => ⟨rfl, rfl, rfl, Or.inl ⟨hok, rfl, rfl⟩⟩⟩
  have hnew_node : ∀ e' ∈ es, e'.node ≠ w.mem.nodes.fresh := fun e' he' =>
    Heap.ne_fresh_of_load (h.node e' he').choose_spec
  rcases List.eq_nil_or_concat' es with rfl | ⟨front, last, rfl⟩
  · -- the empty list: the new node is both head and tail
    have hst := Heap.store_of_load h.list ⟨some w.mem.nodes.fresh, some w.mem.nodes.fresh⟩
    have hload := Heap.load_set h.list ⟨some w.mem.nodes.fresh, some w.mem.nodes.fresh⟩
    simp only [List.map_nil, List.head?_nil, wp_bind, wp_assign, hst, wp_pure, putLists]
    refine ⟨trivial, trivial, trivial, Or.inr ⟨hok, trivial, ?_⟩⟩
    refine h.snoc h.root (by simp [hload]) ⟨rfl, _, Heap.load_alloc_fresh _ _, rfl⟩
      (fun e' he' => ?_) rfl rfl hev hdata hsize hid hnew
    obtain rfl := List.mem_singleton.1 he'
    exact ⟨none, Heap.load_alloc_fresh _ _⟩
  · -- a non-empty list: the old tail is linked to the new node
    have hlast : (w.mem.nodes.alloc ⟨p, none⟩).load last.node = some ⟨last.event, none⟩ :=
      Heap.load_alloc_of_load (h.next_eq (show front ++ [last] = front ++ last :: [] from rfl)) _
    obtain ⟨head, hhead⟩ : ∃ x, ((front ++ [last]).map Entry.node).head? = some x := by
      cases front <;> simp
    have htail : ((front ++ [last]).map Entry.node).getLast? = some last.node := by simp
    have hst := Heap.store_of_load hlast ⟨last.event, some w.mem.nodes.fresh⟩
    have hload := Heap.load_set hlast ⟨last.event, some w.mem.nodes.fresh⟩
    have hst' := Heap.store_of_load h.list ⟨some head, some w.mem.nodes.fresh⟩
    have hload' := Heap.load_set h.list ⟨some head, some w.mem.nodes.fresh⟩
    generalize (w.mem.nodes.alloc ⟨p, none⟩).set last.node ⟨last.event, some w.mem.nodes.fresh⟩ =
      nodes at hst hload
    simp only [hhead, htail, wp_bind, wp_deref, hlast, wp_assign, hst, putNodes, putLists, hst',
      wp_pure]
    refine ⟨trivial, trivial, trivial, Or.inr ⟨hok, trivial, ?_⟩⟩
    have hold : ∀ q a, q ≠ last.node → w.mem.nodes.load q = some a → nodes.load q = some a := by
      intro q a hq ha
      rw [hload, if_neg hq]
      exact Heap.load_alloc_of_load ha _
    have hlink : nodes.load last.node = some ⟨last.event, some w.mem.nodes.fresh⟩ := by
      rw [hload, if_pos rfl]
    have hfresh : nodes.load w.mem.nodes.fresh = some ⟨p, none⟩ := by
      rw [hload, if_neg (hnew_node last (by simp)).symm]
      exact Heap.load_alloc_fresh _ _
    have hlast_front : ∀ e' ∈ front, e'.node ≠ last.node := fun e' he' heq => by
      have hnd := h.nodes_nodup
      rw [List.map_append, List.nodup_append] at hnd
      exact hnd.2.2 _ (List.mem_map_of_mem he') _ (by simp) heq
    refine h.snoc h.root ?_ ?_ (fun e' he' => ?_) rfl rfl hev hdata hsize hid hnew
    · rw [hload', if_pos rfl]
      cases front <;> simpa using hhead.symm
    · have hchain := h.chain
      rw [List.map_append, List.map_singleton] at hchain
      have : Chain ListNode.next nodes _ _ := chain_snoc hchain (fun q hq => ?_) ⟨_, hlink, rfl⟩ hfresh rfl
      · cases front <;> simpa using this
      · obtain ⟨e', he', rfl⟩ := List.mem_map.1 hq
        obtain ⟨next, hn⟩ := h.node e' (by simp [he'])
        rw [hn]
        exact hold _ _ (hlast_front e' he') hn
    · simp only [List.append_assoc, List.mem_append, List.cons_append, List.nil_append,
        List.mem_cons, List.not_mem_nil, or_false] at he'
      rcases he' with he' | rfl | rfl
      · obtain ⟨next, hn⟩ := h.node e' (by simp [he'])
        exact ⟨next, hold _ _ (hlast_front e' he') hn⟩
      · exact ⟨_, hlink⟩
      · exact ⟨_, hfresh⟩

/-! ## Creating -/

/-- Do the allocations of `ems_create` succeed? -/
def Env.allocates (env : Env) : Bool :=
  env.mallocEvent && env.mutexInit && env.callocCells && env.mallocNode

/-- The entry that a successful `ems_create` adds to the memory `m`. -/
def newEntry (m : Mem) (id : UInt32) (rows cols : UInt64) : Entry :=
  ⟨m.nodes.fresh, m.events.fresh, ⟨id, 0, cols, rows, m.cells.fresh⟩,
    List.replicate (rows * cols).toNat 0⟩

/-- `m'` has the blocks of `m` and no others: what has been allocated in between has been given
    back. -/
structure Mem.Restored (m m' : Mem) : Prop where
  eventList : m'.eventList = m.eventList
  lists : ∀ p, m'.lists.load p = m.lists.load p
  nodes : ∀ p, m'.nodes.load p = m.nodes.load p
  events : ∀ p, m'.events.load p = m.events.load p
  cells : ∀ p, m'.cells.load p = m.cells.load p

theorem Mem.restored_refl (m : Mem) : m.Restored m :=
  ⟨rfl, fun _ => rfl, fun _ => rfl, fun _ => rfl, fun _ => rfl⟩

theorem Rep.restored {m' : Mem} (h : Rep m l es) (hm : m.Restored m') : Rep m' l es :=
  h.congr hm.eventList (hm.lists l) (fun p _ hp => (hm.nodes p).trans hp)
    (fun p _ hp => (hm.events p).trans hp) fun p _ hp => (hm.cells p).trans hp

theorem wp_createEvent (h : Rep w.mem l es) {env : Env} {id : UInt32} (rows cols : UInt64)
    (hid : ∀ e ∈ es, e.ev.id ≠ id) {E : Stop → Prop} :
    wp (createEvent env id rows cols) (fun code w' => w'.fd = w.fd ∧
      (env.allocates = false ∧ code = 1 ∧ w.mem.Restored w'.mem ∨
        env.allocates = true ∧ code = 0 ∧ Rep w'.mem l (es ++ [newEntry w.mem id rows cols])))
      E w := by
  simp only [createEvent, wp_bind, wp_allocate, putEvents, wp_printError]
  refine ⟨fun hev => ?_, fun hev => ?_⟩
  swap
  · -- no memory for the event
    refine wp_leaveList h.root h.list fun w' hm hf => ?_
    rw [wp_pure, hm, hf]
    exact ⟨rfl, Or.inl ⟨by simp [Env.allocates, hev], rfl, w.mem.restored_refl⟩⟩
  obtain ⟨events₁, hfree₁, hold₁⟩ := Heap.free_fresh
    (Heap.load_alloc_fresh w.mem.events ⟨id, 0, cols, rows, 0⟩)
    fun q hq => Heap.load_alloc_of_ne hq _
  cases hmutex : env.mutexInit with
  | false =>
    simp only [Bool.not_false, if_true, wp_bind]
    refine wp_leaveList h.root h.list fun w' hm hf => ?_
    simp only [wp_release, hm, hfree₁, wp_pure, putEvents]
    exact ⟨hf, Or.inl ⟨by simp [Env.allocates, hmutex], trivial,
      { w.mem.restored_refl with events := hold₁ }⟩⟩
  | true =>
    simp only [Bool.not_true, Bool.false_eq_true, if_false, wp_bind, wp_allocate, putCells,
      wp_printError]
    refine ⟨fun hcells => ?_, fun hcells => ?_⟩
    swap
    · -- no memory for the seats
      refine wp_leaveList h.root h.list fun w' hm hf => ?_
      simp only [wp_release, hm, hfree₁, wp_pure, putEvents]
      exact ⟨hf, Or.inl ⟨by simp [Env.allocates, hcells], trivial,
        { w.mem.restored_refl with events := hold₁ }⟩⟩
    have hst := Heap.store_of_load (Heap.load_alloc_fresh w.mem.events ⟨id, 0, cols, rows, 0⟩)
      ⟨id, 0, cols, rows, w.mem.cells.fresh⟩
    obtain ⟨hnew₂, hold₂⟩ := Heap.load_set_fresh w.mem.events ⟨id, 0, cols, rows, 0⟩
      ⟨id, 0, cols, rows, w.mem.cells.fresh⟩
    generalize (w.mem.events.alloc ⟨id, 0, cols, rows, 0⟩).set w.mem.events.fresh
      ⟨id, 0, cols, rows, w.mem.cells.fresh⟩ = events₂ at hst hnew₂ hold₂
    have hcells_old : ∀ q, q ≠ w.mem.cells.fresh →
        (w.mem.cells.alloc (List.replicate (rows * cols).toNat 0)).load q = w.mem.cells.load q :=
      fun q hq => Heap.load_alloc_of_ne hq _
    simp only [wp_assign, hst, wp_get, putEvents, h.root]
    have hrep : Rep ⟨some l, w.mem.lists, w.mem.nodes, events₂,
        w.mem.cells.alloc (List.replicate (rows * cols).toNat 0)⟩ l es :=
      h.congr h.root.symm rfl (fun _ _ hq => hq)
        (fun _ _ hq => (hold₂ _ (Heap.ne_fresh_of_load hq)).trans hq)
        fun _ _ hq => (hcells_old _ (Heap.ne_fresh_of_load hq)).trans hq
    have happend := wp_appendToList env (E := E) (w := { w with mem := _ }) hrep hnew₂
      (Heap.load_alloc_fresh _ _) (by simp) hid
      (fun e' he' => Heap.ne_fresh_of_load (h.cells e' he'))
    refine wp_mono happend (fun code w₁ hpost => ?_) fun _ he => he
    obtain ⟨hfd, hevents, hcells₁, ⟨hnode, rfl, rfl⟩ | ⟨hnode, rfl, hrep₁⟩⟩ := hpost
    · -- no memory for the node: both blocks are given back
      obtain ⟨cells₃, hfree₃, hold₃⟩ := Heap.free_fresh
        (Heap.load_alloc_fresh w.mem.cells (List.replicate (rows * cols).toNat 0)) hcells_old
      obtain ⟨events₃, hfree₄, hold₄⟩ := Heap.free_fresh hnew₂ hold₂
      rw [if_pos (by decide : (1 : Int32) ≠ 0)]
      simp only [wp_bind, wp_printError]
      refine wp_leaveList hrep.root hrep.list fun w' hm hf => ?_
      simp only [wp_release, hm, hfree₃, putCells, hfree₄, putEvents, wp_pure]
      exact ⟨hf, Or.inl ⟨by simp [Env.allocates, hnode], trivial,
        { w.mem.restored_refl with eventList := h.root.symm, events := hold₄, cells := hold₃ }⟩⟩
    · rw [if_neg (by decide : ¬ (0 : Int32) ≠ 0), wp_bind]
      refine wp_leaveList hrep₁.root hrep₁.list fun w' hm hf => ?_
      rw [wp_pure, hf, hm]
      exact ⟨hfd, Or.inr ⟨by simp [Env.allocates, hev, hmutex, hcells, hnode], rfl, hrep₁⟩⟩

/-- The beginning of an operation on an event: without the lock it ends, and else it goes on with
    what the search for the event gives. -/
theorem wp_searched {α : Type} (h : Rep w.mem l es) {env : Env} {id : UInt32} {absent stop : Op α}
    {next : Option Ptr → Op α} {Q : α → World → Prop} {E : Stop → Prop}
    (hstop : env.lockList = false → wp stop Q E w)
    (hnext : env.lockList = true → Rep (w.mark true (.acquire .list)).mem l es →
      wp (next ((findId es id).map Entry.event)) Q E (w.mark true (.acquire .list))) :
    wp (do
      if (← get).mem.eventList = none then absent
      else if !(← lockList env) then stop
      else
        let list ← deref Mem.lists (← get).mem.eventList
        let event ← getEventWithDelay id list.head list.tail
        next event) Q E w := by
  have hnn : w.mem.eventList ≠ none := by rw [h.root]; simp
  simp only [wp_bind, wp_get, wp_ite, wp_lockList h.root h.list]
  refine ⟨fun hn => absurd hn hnn, fun _ => ?_⟩
  cases hlock : env.lockList with
  | false => exact ⟨fun _ => hstop hlock, fun h => absurd rfl h⟩
  | true =>
    have h' : Rep (w.mark true (.acquire .list)).mem l es := by rwa [World.mark_mem]
    simp only [World.mark_mem, h.root, wp_deref, h.list]
    refine ⟨fun h => Bool.noConfusion h, fun _ => ?_⟩
    refine wp_mono (wp_getEventWithDelay h' id) (fun r w₁ hr => ?_) fun _ he => he
    obtain ⟨rfl, rfl⟩ := hr
    exact hnext hlock h'

/-- `ems_create`: `1` and the memory as before, or `0` and one more event behind the others. -/
theorem wp_emsCreate_restores (h : Rep w.mem l es) {env : Env} {id : UInt32} (rows cols : UInt64)
    {E : Stop → Prop} :
    wp (emsCreate env id rows cols) (fun code w' => w'.fd = w.fd ∧
      (code = 1 ∧ w.mem.Restored w'.mem ∧
          ((findId es id).isSome ∨ env.lockList = false ∨ env.allocates = false) ∨
        code = 0 ∧ findId es id = none ∧ env.lockList = true ∧ env.allocates = true ∧
          Rep w'.mem l (es ++ [newEntry w.mem id rows cols]))) E w := by
  unfold emsCreate
  refine wp_searched h (fun hlock => ?_) fun hlock h' => ?_
  · exact ⟨rfl, Or.inl ⟨rfl, w.mem.restored_refl, Or.inr (Or.inl hlock)⟩⟩
  rw [wp_ite]
  cases hf : findId es id with
  | some e =>
    refine ⟨fun _ => ?_, fun hne => absurd (by simp) hne⟩
    simp only [wp_bind, wp_printError]
    refine wp_leaveList h'.root h'.list fun w' hm hfd => ?_
    rw [wp_pure, hm, hfd, World.mark_mem, World.mark_fd]
    exact ⟨rfl, Or.inl ⟨rfl, w.mem.restored_refl, Or.inl rfl⟩⟩
  | none =>
    refine ⟨fun hne => absurd rfl hne, fun _ => ?_⟩
    refine wp_mono (wp_createEvent h' rows cols (findId_eq_none.1 hf)) (fun code w₂ hpost => ?_)
      fun _ he => he
    rw [World.mark_fd, World.mark_mem] at hpost
    obtain ⟨hfd, ⟨ha, rfl, hm⟩ | ⟨ha, rfl, hrep⟩⟩ := hpost
    · exact ⟨hfd, Or.inl ⟨rfl, hm, Or.inr (Or.inr ha)⟩⟩
    · exact ⟨hfd, Or.inr ⟨rfl, rfl, hlock, ha, hrep⟩⟩

/-- `ems_create`: `1` and the same events, or `0` and one more event behind them. It succeeds
    exactly when the lock is taken, the id is new and no allocation fails. -/
theorem wp_emsCreate (h : Rep w.mem l es) {env : Env} {id : UInt32} (rows cols : UInt64)
    {E : Stop → Prop} :
    wp (emsCreate env id rows cols) (fun code w' => w'.fd = w.fd ∧
      (code = 1 ∧ Rep w'.mem l es ∧
          ((findId es id).isSome ∨ env.lockList = false ∨ env.allocates = false) ∨
        code = 0 ∧ findId es id = none ∧ env.lockList = true ∧ env.allocates = true ∧
          Rep w'.mem l (es ++ [newEntry w.mem id rows cols]))) E w := by
  refine wp_mono (wp_emsCreate_restores h rows cols) (fun code w' hpost => ?_) fun _ he => he
  exact hpost.imp_right (Or.imp_left fun ⟨hcode, hm, hwhy⟩ => ⟨hcode, h.restored hm, hwhy⟩)

/-! ## Looking up -/

/-- What the look-up of `ems_reserve` and `ems_show` ends with when the locks do not fail. -/
def lookupResult (es : List Entry) (id : UInt32) : Int32 ⊕ Ptr :=
  match findId es id with
  | none => .inl 1
  | some e => .inr e.event

/-- A look-up ends the call with 1 or finds the event. -/
theorem lookup_cases (es : List Entry) (id : UInt32) (ok : Bool) :
    (if ok then lookupResult es id else .inl 1) = .inl 1 ∨
      ∃ e, findId es id = some e ∧ (if ok then lookupResult es id else .inl 1) = .inr e.event := by
  cases ok with
  | false => exact Or.inl rfl
  | true =>
    cases hfind : findId es id with
    | none => exact Or.inl (by simp [lookupResult, hfind])
    | some e => exact Or.inr ⟨e, rfl, by simp [lookupResult, hfind]⟩

/-- The look-up of `ems_reserve` changes nothing. -/
theorem wp_emsReserveLookup (h : Rep w.mem l es) {env : Env} (id : UInt32) {E : Stop → Prop} :
    wp (emsReserveLookup env id) (fun r w' => w'.mem = w.mem ∧ w'.fd = w.fd ∧
      r = if env.lockList && env.unlockList then lookupResult es id else .inl 1) E w := by
  unfold emsReserveLookup
  refine wp_searched h (fun hlock => ?_) fun hlock h' => ?_
  · simp [hlock]
  · simp only [wp_bind, wp_unlockList h'.root h'.list]
    cases hu : env.unlockList with
    | false => simp
    | true =>
      cases hf : findId es id <;> simp [hlock, lookupResult, hf]

end EventServer
