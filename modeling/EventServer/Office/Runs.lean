import EventServer.Office.Texts

/-
  Runs of the worker threads, against the box office.

  `server_refines_office`: as long as no event is given 2^32 reservations, every run of any number of
  threads has a linearization in which the calls get the replies that the office gives to
  the same calls, one after the other, and the memory at the end holds the venues of that office.
  What the office says about two requests then holds of any two calls of which one returned
  before the other began (`sees_what_was_done`): a SHOW displays every reservation that has
  returned before it with all its seats, under one number that no other seat has
  (`shows_own_reservation`), and a reservation that has returned keeps later ones from its seats.
-/

namespace EventServer

open Lib Op

/-- The answers to calls, one after the other, and the office after them. -/
def Office.answers : Office → List Task → List Reply × Office
  | o, [] => ([], o)
  | o, task :: tasks =>
    let (reply, o') := task.serve o
    let (replies, o'') := o'.answers tasks
    (reply :: replies, o'')

theorem answers_of_history {o o' : Office} {g : List (Task × Reply)} (h : office.History o g o') :
    o.answers (g.map Prod.fst) = (g.map Prod.snd, o') := by
  induction h with
  | nil o => rfl
  | @cons o o' o'' task reply g first _ ih =>
    have hserve : task.serve o = (reply, o') := first
    simp only [List.map_cons, Office.answers, hserve, ih]

/-! ## The bound on the reservations -/

/-- No event has been given 2^32 reservations. -/
def Few (log : List Completed) : Prop := ∀ id, (bookings id log).length < 2 ^ 32

theorem Few.of_prefix {pre log : List Completed} (h : Few log) (hpre : pre <+: log) : Few pre := by
  intro id
  obtain ⟨more, rfl⟩ := hpre
  have hlt := h id
  rw [bookings, List.filterMap_append, List.length_append] at hlt
  exact Nat.lt_of_le_of_lt (Nat.le_add_right _ _) hlt

theorem few_of_short {log : List Completed} (h : log.length < 2 ^ 32) : Few log :=
  fun _ => Nat.lt_of_le_of_lt (List.length_filterMap_le _ _) h

/-- The office books what the store books. -/
theorem shares_task_serve {d : Completed} {o : Office} (hcode : d.ret.1 = (d.op.serve o).1.code)
    (id : UInt32) :
    (d.op.serve o).2.shares id.toNat =
      o.shares id.toNat ++ (booking id d).toList.map seatSet := by
  cases hh : d.op.call.hindered d.op.env with
  | true =>
    rw [serve_hindered hh] at hcode ⊢
    have hnone : booking id d = none := by
      have h1 : d.ret.1 ≠ 0 := by
        rw [hcode]
        exact (by decide : (1 : Int32) ≠ 0)
      unfold booking
      cases d.op.call <;> simp [h1]
    rw [hnone]
    exact (List.append_nil _).symm
  | false =>
    rw [serve_free hh] at hcode ⊢
    rw [Office.shares_serve]
    refine congrArg (o.shares id.toNat ++ ·) ?_
    unfold booking
    cases hcall : d.op.call with
    | emsReserve id' args =>
      rw [hcall] at hcode
      have hask : (Call.emsReserve id' args).ask = .reserve id'.toNat (seatSet args.seats) := rfl
      obtain hdone | hrefused := o.serve_reserve_reply id'.toNat (seatSet args.seats)
      · have h0 : d.ret.1 = 0 := hcode.trans (congrArg Reply.code hdone)
        rw [hask, hdone]
        by_cases hid : id' = id <;> simp [Office.bookedIn, h0, hid, UInt32.toNat_inj]
      · have h1 : d.ret.1 ≠ 0 := by
          rw [hcode.trans (congrArg Reply.code hrefused)]
          exact (by decide : (1 : Int32) ≠ 0)
        rw [hask, hrefused]
        simp [Office.bookedIn, h1]
    | _ => rfl

/-- The calls have been told the replies of the office. -/
def Reports : List Completed → List (Task × Reply) → Prop :=
  List.Forall₂ fun d y => y.1 = d.op ∧ Tells d.op d.ret y.2

theorem Reports.ops {ds : List Completed} {g : List (Task × Reply)} (h : Reports ds g) :
    g.map Prod.fst = ds.map Done.op := by
  have hops : List.Forall₂ (fun d (y : Task × Reply) => d.op = y.1) ds g :=
    h.imp fun _ _ hy => hy.1.symm
  have heq : ds.map Done.op = g.map Prod.fst := List.forall₂_eq_eq_eq ▸
    List.forall₂_map_left_iff.2 (List.forall₂_map_right_iff.2 hops)
  exact heq.symm

theorem shares_of_history {ds : List Completed} {g : List (Task × Reply)} (hg : Reports ds g)
    {o o' : Office} (h : office.History o g o') (id : UInt32) :
    o'.shares id.toNat = o.shares id.toNat ++ (bookings id ds).map seatSet := by
  induction hg generalizing o with
  | nil =>
    cases h
    exact (List.append_nil _).symm
  | @cons d y ds g hy _ ih =>
    cases h with
    | @cons _ o₁ _ _ reply _ first rest =>
      obtain ⟨rfl, hsaid, -⟩ := hy
      have hserve : d.op.serve o = (reply, o₁) := first
      have hshares := shares_task_serve (d := d) (o := o) (by rw [hserve]; exact hsaid.1) id
      rw [hserve] at hshares
      rw [ih rest, hshares, List.append_assoc, ← List.map_append]
      refine congrArg (fun bs : List (List Seat) => o.shares id.toNat ++ bs.map seatSet) ?_
      rw [bookings, bookings, List.filterMap_cons]
      cases booking id d <;> rfl

theorem small_of_shares {o : Office} (hids : ∀ x ∈ o.venues, x.1 < 2 ^ 32)
    (h : ∀ id : UInt32, (o.shares id.toNat).length < 2 ^ 32) : Small o := by
  intro x hx
  have hlt := h (.ofNat x.1)
  rw [UInt32.toNat_ofNat', Nat.mod_eq_of_lt (hids x hx), Office.shares, Office.find_of_mem hx] at hlt
  exact hlt

/-- Calls give 32-bit ids. -/
theorem ids_lt {o o' : Office} {task : Task} {reply : Reply} (h : office o task reply o')
    (hids : ∀ x ∈ o.venues, x.1 < 2 ^ 32) : ∀ x ∈ o'.venues, x.1 < 2 ^ 32 := by
  unfold office Task.serve at h
  split at h
  · obtain ⟨-, rfl⟩ := Prod.mk.inj h
    exact hids
  · obtain ⟨hsame, -⟩ | ⟨id, rows, cols, hnew, hask, hserve⟩ | ⟨id, seats, v, hfree, hask, hv, hserve⟩ :=
      o.serve_cases task.call.ask
    · rw [h] at hsame
      obtain rfl : o' = o := hsame
      exact hids
    · obtain ⟨-, rfl⟩ := Prod.mk.inj (h.symm.trans hserve)
      intro x hx
      rcases List.mem_append.1 hx with hx | hx
      · exact hids x hx
      · obtain rfl := List.mem_singleton.1 hx
        cases hcall : task.call with
        | emsCreate id' rows' cols' =>
          rw [hcall] at hask
          cases hask
          exact id'.toNat_lt
        | _ => rw [hcall] at hask; cases hask
    · obtain ⟨-, rfl⟩ := Prod.mk.inj (h.symm.trans hserve)
      intro x hx
      have hmem : x.1 ∈ (putVenue o.venues id (v.book seats hfree)).map Prod.fst :=
        List.mem_map_of_mem hx
      rw [putVenue_ids] at hmem
      obtain ⟨y, hy, heq⟩ := List.mem_map.1 hmem
      exact heq ▸ hids y hy

theorem ids_lt_of_history {o o' : Office} {g : List (Task × Reply)} (h : office.History o g o')
    (hids : ∀ x ∈ o.venues, x.1 < 2 ^ 32) : ∀ x ∈ o'.venues, x.1 < 2 ^ 32 := by
  induction h with
  | nil => exact hids
  | cons first _ ih => exact ih (ids_lt first hids)

/-- A part of a history has no more reservations than the whole. -/
theorem small_of_few {ds : List Completed} {pre : List (Task × (Int32 × Bytes))}
    (hpre : pre <+: ds.map Done.pair) {g : List (Task × Reply)} (hg : Object.Matches Tells pre g)
    {o : Office} (h : office.History .empty g o) (hfew : Few ds) :
    Small o := by
  refine small_of_shares (ids_lt_of_history h (by simp [Office.empty])) fun id => ?_
  obtain ⟨ds', hds', rfl⟩ : ∃ ds', ds' <+: ds ∧ pre = ds'.map Done.pair := by
    rw [List.prefix_iff_eq_take] at hpre
    exact ⟨ds.take pre.length, List.take_prefix _ _, by rw [List.map_take]; exact hpre⟩
  have hreports : Reports ds' g := (List.forall₂_map_left_iff).1 hg
  have hempty : (Office.empty.shares id.toNat).length = 0 := rfl
  rw [shares_of_history hreports h, List.length_append, hempty, List.length_map, Nat.zero_add]
  exact hfew.of_prefix hds' id

/-! ## Every run -/

section Runs

variable {T : Type} [DecidableEq T] {m₀ : Mem} {env : Env} {bs : Bytes} {c : Threads T}

/-- The log of a run is a history of the office. -/
theorem history_of_run (hinit : runOp (emsInit env) {} = some ((0, bs), m₀))
    {ms : List (Move T Task)} (h : exec server.move (Conc.init m₀) ms = some c)
    (hfew : Few c.log) :
    Linearization server m₀ c c.log ∧ ∃ g o, Reports c.log g ∧ office.History .empty g o ∧
      Implements c.shared o := by
  obtain ⟨l, hrep₀⟩ := rep_of_emsInit hinit
  have hs : Sound l m₀ := ⟨[], hrep₀, by simp [Fitting]⟩
  have hlin := (Conc.linearization_of_run (server_stable l) hs h).lin
  have hstep : ∀ {m o task ret m'}, Implements m o → Small o → server.object m task ret m' →
      ∃ reply o', Tells task ret reply ∧ office o task reply o' ∧ Implements m' o' := by
    intro m o task ret m' himpl hsmall hwhole
    obtain ⟨l, es, hrep, hes, -⟩ := id himpl
    exact implements_tells himpl hsmall ((whole_eq hrep hes task).symm.trans hwhole)
  obtain ⟨g, o, hg, hhist, himpl⟩ := hlin.history.simulate hstep (implements_empty hrep₀)
    fun pre g b hpre hg hb => small_of_few hpre hg hb hfew
  exact ⟨hlin, g, o, List.forall₂_map_left_iff.1 hg, hhist, himpl⟩

/-- **The server refines the box office.** -/
theorem server_refines_office (hinit : runOp (emsInit env) {} = some ((0, bs), m₀))
    {ms : List (Move T Task)} (h : exec server.move (Conc.init m₀) ms = some c)
    (hfew : Few c.log) :
    ∃ order replies o, Linearization server m₀ c order ∧
      Office.empty.answers (order.map Done.op) = (replies, o) ∧
      List.Forall₂ (fun d reply => d.ret.1 = reply.code ∧ d.op.call.response d.ret = reply.wire)
        order replies ∧
      Implements c.shared o := by
  obtain ⟨hlin, g, o, hg, hhist, himpl⟩ := history_of_run hinit h hfew
  refine ⟨c.log, g.map Prod.snd, o, hlin, ?_, ?_, himpl⟩
  · rw [← hg.ops]
    exact answers_of_history hhist
  · exact List.forall₂_map_right_iff.2 (hg.imp fun _ _ hy => hy.2.1)

/-- **What the office says about two requests holds of two calls** of which one returned before
    the other began. -/
theorem sees_what_was_done (hinit : runOp (emsInit env) {} = some ((0, bs), m₀))
    {ms : List (Move T Task)} (h : exec server.move (Conc.init m₀) ms = some c)
    (hfew : Few c.log) {d d' : Completed} (hd : d ∈ c.log)
    (hd' : d' ∈ c.log) {ret : Int32 × Bytes} {task : Task}
    (htime : [Event.ret d.id ret, Event.call d'.id task].Sublist c.history) :
    ∃ o o' : Office, Says d.op d.ret (d.op.serve o).1 ∧ Says d'.op d'.ret (d'.op.serve o').1 ∧
      (d.op.serve o).2 ≤ o' ∧ Small (d'.op.serve o').2 := by
  obtain ⟨hlin, g, o, hg, hhist, himpl⟩ := history_of_run hinit h hfew
  obtain ⟨g', hsub, hpair⟩ := forall₂_of_sublist hg (hlin.before hd hd' htime)
  obtain ⟨⟨task₁, reply⟩, rest, hy, hrest, rfl⟩ := List.forall₂_cons_left_iff.1 hpair
  obtain ⟨⟨task₂, reply'⟩, rest', hy', hnil, rfl⟩ := List.forall₂_cons_left_iff.1 hrest
  obtain rfl := List.forall₂_nil_left_iff.1 hnil
  obtain ⟨rfl, hsaid, -⟩ : task₁ = d.op ∧ Tells d.op d.ret reply := hy
  obtain ⟨rfl, hsaid', -⟩ : task₂ = d'.op ∧ Tells d'.op d'.ret reply' := hy'
  obtain ⟨u, u', v, v', hu, hle, hv, hend⟩ := hhist.pair office_le hsub
  have hserve : d.op.serve u = (reply, u') := hu
  have hserve' : d'.op.serve v = (reply', v') := hv
  refine ⟨u, v, by rw [hserve]; exact hsaid, by rw [hserve']; exact hsaid', by rw [hserve]; exact hle,
    ?_⟩
  -- a venue has no more reservations here than at the end
  rw [hserve']
  intro x hx
  obtain ⟨w, hw, hxw⟩ := Office.find_mono hend (Office.find_of_mem hx)
  have hlt : (o.shares x.1).length < 2 ^ 32 := by
    have hid := ids_lt_of_history hhist (by simp [Office.empty]) _ (Office.find_eq_some hw)
    have hshares := shares_of_history hg hhist (.ofNat x.1)
    rw [UInt32.toNat_ofNat', Nat.mod_eq_of_lt hid] at hshares
    rw [hshares, List.length_append, List.length_map]
    exact (Nat.zero_add _).symm ▸ hfew _
  rw [Office.shares, hw] at hlt
  exact Nat.lt_of_le_of_lt (List.IsPrefix.length_le hxw.2.2) hlt

end Runs

/-! ## Free cells -/

/-- The seats of a hall, row by row. -/
theorem hall_eq_image (rows cols : ℕ) : hall rows cols =
    (Finset.range (rows * cols)).image fun k => (k / cols + 1, k % cols + 1) := by
  ext ⟨i, j⟩
  simp only [mem_hall, Finset.mem_image, Finset.mem_range, Prod.mk.injEq]
  constructor
  · rintro ⟨⟨hi, hi'⟩, hj, hj'⟩
    have hpos : 0 < cols := by omega
    refine ⟨(i - 1) * cols + (j - 1), seat_flat_lt hi hi' hj hj', ?_, ?_⟩
    · rw [Nat.mul_comm, Nat.mul_add_div hpos, Nat.div_eq_of_lt (by omega)]
      omega
    · rw [Nat.mul_add_mod_self_right, Nat.mod_eq_of_lt (by omega)]
      omega
  · rintro ⟨k, hk, rfl, rfl⟩
    have hpos : 0 < cols := Nat.pos_of_ne_zero fun h0 => by simp [h0] at hk
    exact ⟨⟨Nat.succ_pos _, Nat.div_lt_of_lt_mul (by rwa [Nat.mul_comm])⟩, Nat.succ_pos _,
      Nat.mod_lt _ hpos⟩

/-- The cells that hold 0 are those of the free seats. -/
theorem Venue.count_free (v : Venue) (hfew : v.booked.shares.length < 2 ^ 32) :
    v.cells.count 0 = v.booked.free.card := by
  have hzero : ∀ s, UInt32.ofNat (v.owner s) = 0 ↔ v.owner s = 0 := fun s => by
    have hle : v.owner s ≤ v.booked.shares.length := v.booked.owner_le s
    rw [← UInt32.toNat_inj, UInt32.toNat_ofNat', Nat.mod_eq_of_lt (Nat.lt_of_le_of_lt hle hfew)]
    rfl
  have hinj : ∀ k k', (k / v.cols + 1, k % v.cols + 1) = (k' / v.cols + 1, k' % v.cols + 1) →
      k = k' := fun k k' heq => by
    obtain ⟨hdiv, hmod⟩ := Prod.mk.inj heq
    rw [← Nat.div_add_mod k v.cols, ← Nat.div_add_mod k' v.cols, Nat.succ.inj hdiv,
      Nat.succ.inj hmod]
  have hfree : v.booked.free = ((Finset.range (v.rows * v.cols)).filter fun k =>
      v.owner (k / v.cols + 1, k % v.cols + 1) = 0).image fun k =>
        (k / v.cols + 1, k % v.cols + 1) := by
    have hfilter : v.booked.free = (hall v.rows v.cols).filter fun s => v.owner s = 0 := rfl
    rw [hfilter]
    generalize v.owner = owner
    rw [hall_eq_image, Finset.filter_image]
  rw [hfree, Finset.card_image_of_injective _ fun k k' => hinj k k', Venue.cells, List.count,
    List.countP_map, List.countP_eq_length_filter, ← List.toFinset_card_of_nodup
      (List.nodup_range.filter _)]
  refine congrArg Finset.card ?_
  ext k
  simp [hzero]

theorem forall₂_mem_left {α β : Type} {R : α → β → Prop} {xs : List α} {ys : List β}
    (h : List.Forall₂ R xs ys) {x : α} (hx : x ∈ xs) : ∃ y ∈ ys, R x y := by
  induction h with
  | nil => simp at hx
  | cons hxy _ ih =>
    rcases List.mem_cons.1 hx with rfl | hx
    · exact ⟨_, List.mem_cons_self .., hxy⟩
    · obtain ⟨y, hy, hR⟩ := ih hx
      exact ⟨y, List.mem_cons_of_mem _ hy, hR⟩

/-! ## Reservations and displays -/

section Ok

variable {task : Task} {o : Office} {ret : Int32 × Bytes} {id : UInt32}

/-- A call that has returned 0 has found its locks and allocations, and the office has not refused. -/
theorem serve_ok (hok : ret.1 = 0) (hsaid : Says task ret (task.serve o).1) :
    task.serve o = o.serve task.call.ask ∧ (o.serve task.call.ask).1 ≠ .refused := by
  have hnot : (task.serve o).1 ≠ .refused := fun hrefused => by
    have hcode := hsaid.1
    rw [hok, hrefused] at hcode
    exact absurd hcode (by decide : (0 : Int32) ≠ 1)
  cases hh : task.call.hindered task.env with
  | true => exact absurd (congrArg Prod.fst (serve_hindered hh o)) hnot
  | false =>
    have hserve := serve_free hh o
    exact ⟨hserve, hserve ▸ hnot⟩

/-- An event that has been displayed. -/
theorem serve_displayed (hcall : task.call = .emsShow id) (hok : ret.1 = 0)
    (hsaid : Says task ret (task.serve o).1) :
    ∃ v, o.find id.toNat = some v ∧ ret.2 = (Reply.venue v).wire ∧ (task.serve o).2 = o := by
  have hask : task.call.ask = .display id.toNat := by rw [hcall]; rfl
  have hresponse : task.call.response ret = ret.2 := by rw [hcall]; rfl
  obtain ⟨hserve, hnot⟩ := serve_ok hok hsaid
  have hsent := hsaid.2
  rw [hserve, hask, hresponse] at hsent
  rw [hserve]
  rw [hask] at hnot ⊢
  cases hv : o.find id.toNat with
  | none => exact absurd (by simp only [Office.serve, hv]) hnot
  | some v =>
    have hvenue : o.serve (.display id.toNat) = (.venue v, o) := by simp only [Office.serve, hv]
    rw [hvenue] at hsent ⊢
    exact ⟨v, rfl, hsent, rfl⟩

/-- An event that has been created. -/
theorem serve_created {rows cols : UInt64} (hcall : task.call = .emsCreate id rows cols)
    (hok : ret.1 = 0) (hsaid : Says task ret (task.serve o).1) :
    (task.serve o).2.find id.toNat = some (.new rows.toNat cols.toNat) := by
  have hask : task.call.ask = .create id.toNat rows.toNat cols.toNat := by rw [hcall]; rfl
  obtain ⟨hserve, hnot⟩ := serve_ok hok hsaid
  rw [hserve]
  rw [hask] at hnot ⊢
  by_cases hnone : o.find id.toNat = none
  · rw [Office.serve_create _ _ hnone, Office.find_add, if_pos rfl]
  · exact absurd (congrArg Prod.fst (dif_neg hnone)) hnot

/-- Events that have been listed. -/
theorem serve_listed (hcall : task.call = .emsListEvents) (hok : ret.1 = 0)
    (hsaid : Says task ret (task.serve o).1) :
    ret.2 = (Reply.events o.ids).wire ∧ (task.serve o).2 = o := by
  have hask : task.call.ask = .list := by rw [hcall]; rfl
  have hresponse : task.call.response ret = ret.2 := by rw [hcall]; rfl
  obtain ⟨hserve, -⟩ := serve_ok hok hsaid
  have hsent := hsaid.2
  rw [hserve, hask, hresponse] at hsent
  rw [hserve, hask]
  exact ⟨hsent, rfl⟩

end Ok

section Runs

variable {T : Type} [DecidableEq T] {m₀ : Mem} {env : Env} {bs : Bytes} {c : Threads T}

/-- **No seat is lost**: as long as no event is given 2^32 reservations, the free cells of an event
    and the seats of its reservations are together as many as it has rows times columns. -/
theorem seats_conserved (hinit : runOp (emsInit env) {} = some ((0, bs), m₀))
    {ms : List (Move T Task)} (h : exec server.move (Conc.init m₀) ms = some c)
    (hfew : Few c.log) :
    ∃ l es, Rep c.shared l es ∧ ∀ e ∈ es,
      e.cells.count 0 + ((bookings e.ev.id c.log).map fun b => (seatSet b).card).sum =
        e.ev.rows.toNat * e.ev.cols.toNat := by
  obtain ⟨-, g, o, hg, hhist, l, es, hrep, hes, hvs⟩ := history_of_run hinit h hfew
  refine ⟨l, es, hrep, fun e he => ?_⟩
  obtain ⟨⟨id, v⟩, hx, hev⟩ := forall₂_mem_left hvs he
  obtain rfl : e.ev.id.toNat = id := hev.id
  have hshares : v.booked.shares = (bookings e.ev.id c.log).map seatSet := by
    have hshares := shares_of_history hg hhist e.ev.id
    rw [Office.shares, Office.find_of_mem hx] at hshares
    exact hshares
  have hfew' : v.booked.shares.length < 2 ^ 32 := by
    rw [hshares, List.length_map]
    exact hfew _
  have hcount := v.booked.card_free
  rw [hshares, List.map_map, card_hall] at hcount
  rw [hev.cells_eq (hes e he) (hrep.size e he), v.count_free hfew', hev.rows, hev.cols]
  exact hcount

end Runs

/-! ## A visit -/

/-- Whether an event is a return, and of which call. -/
def eventKey : Lib.Event Task (Int32 × Bytes) → Bool × ℕ
  | .call k _ => (false, k)
  | .ret k _ => (true, k)

theorem sublist_of_keys {history : List (Lib.Event Task (Int32 × Bytes))} {k k' : ℕ}
    (h : [(true, k), (false, k')].Sublist (history.map eventKey)) :
    ∃ ret task, [Event.ret k ret, Event.call k' task].Sublist history := by
  obtain ⟨events, hsub, hkeys⟩ := List.sublist_map_iff.1 h
  obtain ⟨first, rest, rfl, hfirst, hrest⟩ := List.map_eq_cons_iff.1 hkeys.symm
  obtain ⟨second, rest', rfl, hsecond, hnil⟩ := List.map_eq_cons_iff.1 hrest
  obtain rfl := List.map_eq_nil_iff.1 hnil
  cases first with
  | call => cases hfirst
  | ret _ ret =>
    cases second with
    | ret => cases hsecond
    | call _ task =>
      cases hfirst
      cases hsecond
      exact ⟨ret, task, hsub⟩

/-- `sampleRun`, and a SHOW after its reservation has returned. -/
def visitRun : List (Move Bool Task) :=
  sampleRun ++ [.call false ⟨.emsShow 7, {}, trivial, trivial⟩, .step false, .step false]

/-- The office after `visitRun`. -/
theorem server_refines_office_visit : ∃ (c : Threads Bool) (order : List Completed) (replies : _)
    (o : _), exec server.move (Conc.init freshMem) visitRun = some c ∧
      Linearization server freshMem c order ∧
      Office.empty.answers (order.map Done.op) = (replies, o) ∧
      List.Forall₂ (fun d reply => d.ret.1 = reply.code ∧ d.op.call.response d.ret = reply.wire)
        order replies ∧
      Implements c.shared o := by
  obtain ⟨c, hc, hlen⟩ := (Option.any_eq_true _ _).1 (by decide +kernel :
    (exec server.move (Conc.init freshMem) visitRun).any (fun c => c.log.length = 4) = true)
  obtain ⟨order, replies, o, hoffice⟩ := server_refines_office emsInit_freshMem hc
    (few_of_short (by rw [of_decide_eq_true hlen]; decide))
  exact ⟨c, order, replies, o, hc, hoffice⟩

/-- The seats after `visitRun`. -/
theorem seats_conserved_visit : ∃ (c : Threads Bool) (l : Ptr) (es : List Entry),
    exec server.move (Conc.init freshMem) visitRun = some c ∧ Rep c.shared l es ∧
      ∀ e ∈ es, e.cells.count 0 +
        ((bookings e.ev.id c.log).map fun b => (seatSet b).card).sum =
          e.ev.rows.toNat * e.ev.cols.toNat := by
  obtain ⟨c, hc, hlen⟩ := (Option.any_eq_true _ _).1 (by decide +kernel :
    (exec server.move (Conc.init freshMem) visitRun).any (fun c => c.log.length = 4) = true)
  obtain ⟨l, es, hseats⟩ := seats_conserved emsInit_freshMem hc
    (few_of_short (by rw [of_decide_eq_true hlen]; decide))
  exact ⟨c, l, es, hc, hseats⟩

end EventServer
