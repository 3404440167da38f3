import EventServer.Client.Renderings
import EventServer.Client.Success

/-
  Reading back what a client prints.

  `readRows`, `readCells` and `readEvents` are what a reader of the output file makes of it. They give
  back what was printed (`readCells_gridText`, `readEvents_listText`), so two texts are the same only
  if the events are (`Entry.text_inj`, `listText_inj`). Hence clients cannot tell two stores apart by
  SHOW and LIST if and only if the stores have the same events with the same seats; only the columns
  of an event without rows are not to be seen (`lookAlike_iff`).
-/

namespace EventServer

open Lib Client

/-- The number of rows in the text of an event: that of its lines. -/
def readRows (text : Bytes) : ℕ := (lines 10 text).length

/-- The numbers in the text of an event. -/
def readCells (text : Bytes) : List ℕ := (columns 32 isDigit text).dropLast.map digitsValue

/-- The ids in the text of a list: on each line the digits, if there are any. -/
def readEvents (text : Bytes) : List ℕ :=
  ((columns 10 isDigit text).dropLast.filter (· ≠ [])).map digitsValue

theorem map_digitsValue_decimal (vs : List UInt32) :
    (vs.map decimal).map digitsValue = vs.map UInt32.toNat := by
  rw [List.map_map]
  exact List.map_congr_left fun v _ => digitsValue_decimal v

theorem map_toNat_inj {vs vs' : List UInt32} (h : vs.map UInt32.toNat = vs'.map UInt32.toNat) :
    vs = vs' :=
  List.map_injective_iff.2 (fun _ _ hv => UInt32.toNat_inj.1 hv) h

/-! ## Events -/

theorem newline_not_mem_cellsText (cells : List UInt32) : (10 : UInt8) ∉ cellsText cells := by
  intro hmem
  obtain ⟨text, htext, hin⟩ := List.mem_flatten.1 hmem
  obtain ⟨cell, -, rfl⟩ := List.mem_map.1 htext
  obtain hin | hin := List.mem_append.1 hin
  · exact not_mem_decimal rfl cell hin
  · exact absurd hin (by decide)

/-- The rows are counted. -/
theorem readRows_gridText (cols n : ℕ) (cells : List UInt32) :
    readRows (gridText cols n cells) = n := by
  unfold readRows
  induction n generalizing cells with
  | zero => rfl
  | succ n ih =>
    have hline : gridText cols (n + 1) cells =
        cellsText (cells.take cols) ++ 10 :: gridText cols n (cells.drop cols) := by
      rw [gridText, List.append_assoc]
      rfl
    rw [hline, lines_append_newline (newline_not_mem_cellsText _), List.length_cons, ih]

/-- The cells are read back. -/
theorem readCells_gridText {cols n : ℕ} {cells : List UInt32} (h : cells.length = n * cols) :
    readCells (gridText cols n cells) = cells.map UInt32.toNat := by
  unfold readCells
  rw [columns_gridText cols n cells h, List.dropLast_concat, map_digitsValue_decimal]

section Entry

variable {e e' : Entry}

/-- The text of an event is its cells, row by row. -/
theorem Entry.text_eq_gridText (hfit : NoWrap e.ev.rows e.ev.cols)
    (hsize : e.cells.length = (e.ev.rows * e.ev.cols).toNat) :
    e.text = gridText e.ev.cols.toNat e.ev.rows.toNat e.cells := by
  have hgrid := e.gridText_eq hfit hsize e.ev.rows.toNat 0 (Nat.zero_add _)
  rw [Nat.zero_mul, List.drop_zero] at hgrid
  exact hgrid.symm

theorem length_cells (hfit : NoWrap e.ev.rows e.ev.cols)
    (hsize : e.cells.length = (e.ev.rows * e.ev.cols).toNat) :
    e.cells.length = e.ev.rows.toNat * e.ev.cols.toNat := by
  rw [hsize, UInt64.toNat_mul, Nat.mod_eq_of_lt hfit]

/-- **The text of an event determines what it shows.** -/
theorem Entry.text_inj (hfit : NoWrap e.ev.rows e.ev.cols)
    (hsize : e.cells.length = (e.ev.rows * e.ev.cols).toNat) (hfit' : NoWrap e'.ev.rows e'.ev.cols)
    (hsize' : e'.cells.length = (e'.ev.rows * e'.ev.cols).toNat) (h : e.text = e'.text) :
    e.ev.rows = e'.ev.rows ∧ e.cells = e'.cells ∧ (e.ev.rows ≠ 0 → e.ev.cols = e'.ev.cols) := by
  have hlen := length_cells hfit hsize
  have hlen' := length_cells hfit' hsize'
  rw [Entry.text_eq_gridText hfit hsize, Entry.text_eq_gridText hfit' hsize'] at h
  have hrows : e.ev.rows = e'.ev.rows := by
    have hread := congrArg readRows h
    rw [readRows_gridText, readRows_gridText] at hread
    exact UInt64.toNat_inj.1 hread
  have hcells : e.cells = e'.cells := by
    have hread := congrArg readCells h
    rw [readCells_gridText hlen, readCells_gridText hlen'] at hread
    exact map_toNat_inj hread
  refine ⟨hrows, hcells, fun hne => ?_⟩
  have hpos : 0 < e.ev.rows.toNat :=
    Nat.pos_of_ne_zero fun h0 => hne (UInt64.toNat_inj.1 h0)
  rw [hcells, hlen', ← hrows] at hlen
  exact UInt64.toNat_inj.1 (Nat.eq_of_mul_eq_mul_left hpos hlen).symm

end Entry

/-! ## Lists -/

/-- The ids are read back; the text of an empty list has none. -/
theorem readEvents_listText (ids : List UInt32) :
    readEvents (listText ids) = ids.map UInt32.toNat := by
  unfold readEvents listText
  by_cases hids : ids = []
  · rw [if_pos hids, hids]
    decide
  · have hall : ∀ text ∈ ids.map decimal, text ≠ [] := by
      intro text htext
      obtain ⟨id, -, rfl⟩ := List.mem_map.1 htext
      exact decimal_ne_nil id
    rw [if_neg hids, columns_listText, List.dropLast_concat,
      List.filter_eq_self.2 fun text htext => decide_eq_true (hall text htext),
      map_digitsValue_decimal]

/-- **The text of a list determines its ids.** -/
theorem listText_inj {ids ids' : List UInt32} (h : listText ids = listText ids') : ids = ids' := by
  have hread := congrArg readEvents h
  rw [readEvents_listText, readEvents_listText] at hread
  exact map_toNat_inj hread

/-! ## Stores -/

/-- SHOW and LIST. -/
def Call.Reads : Call → Prop
  | .emsShow _ => True
  | .emsListEvents => True
  | _ => False

/-- Asked by a client that nothing fails for, the store shows this: the return code of the call and
    the text that it prints. -/
def Views (m : Mem) (c : Call) (view : Int32 × Bytes) : Prop :=
  ∃ bytes, runOp (c.op {}) m = some ((view.1, bytes), m) ∧
    ∀ s : Process Unit, s.Reliable → s.response_pipe.bytes = bytes →
      ∃ s', (c.issue {} (return ())).run s = .ok (view.1, s') ∧
        s'.out.written = s.out.written ++ view.2

/-- Clients cannot tell the stores apart. -/
def LookAlike (m m' : Mem) : Prop := ∀ c : Call, c.Reads → ∀ view, Views m c view ↔ Views m' c view

/-- What can be seen of the events is the same. -/
structure SameShown (e e' : Entry) : Prop where
  id : e.ev.id = e'.ev.id
  rows : e.ev.rows = e'.ev.rows
  cells : e.cells = e'.cells
  cols : e.ev.rows ≠ 0 → e.ev.cols = e'.ev.cols

/-- What the events show. -/
def Call.view (es : List Entry) : Call → Int32 × Bytes
  | .emsShow event_id =>
    match findId es event_id with
    | none => (1, [])
    | some e => (0, e.text)
  | .emsListEvents => ((listReply es).1, listText (es.map fun e => e.ev.id))
  | _ => (0, [])

theorem view_none {es : List Entry} {id : UInt32} (h : findId es id = none) :
    (Call.emsShow id).view es = (1, []) := by
  show (match findId es id with
    | none => (1, [])
    | some e => (0, e.text)) = ((1, []) : Int32 × Bytes)
  rw [h]

theorem view_some {es : List Entry} {id : UInt32} {e : Entry} (h : findId es id = some e) :
    (Call.emsShow id).view es = (0, e.text) := by
  show (match findId es id with
    | none => (1, [])
    | some e => (0, e.text)) = ((0, e.text) : Int32 × Bytes)
  rw [h]

section Stores

variable {m m' : Mem} {l l' : Ptr} {es es' : List Entry} {c : Call}

theorem Views.unique {view view' : Int32 × Bytes} (h : Views m c view) (h' : Views m c view') :
    view = view' := by
  obtain ⟨bytes, hrun, hviews⟩ := h
  obtain ⟨bytes', hrun', hviews'⟩ := h'
  obtain ⟨hcode, rfl⟩ := Prod.mk.inj (congrArg Prod.fst (Option.some.inj (hrun.symm.trans hrun')))
  have hreliable : (reliableClient bytes).Reliable := ⟨calm_nil, calm_nil, calm_nil⟩
  obtain ⟨s, hissue, hout⟩ := hviews (reliableClient bytes) hreliable rfl
  obtain ⟨s', hissue', hout'⟩ := hviews' (reliableClient bytes) hreliable rfl
  obtain ⟨-, rfl⟩ := Prod.mk.inj (Except.ok.inj (hissue.symm.trans hissue'))
  exact Prod.ext hcode (List.append_cancel_left (hout.symm.trans hout'))

/-- What a client gets to see. -/
theorem views_of_rep (h : Rep m l es) (hes : Fitting es) (hc : c.Reads) : Views m c (c.view es) := by
  obtain ⟨ret, hrun, hans, hcode, hshown⟩ : ∃ ret, runOp (c.op {}) m = some (ret, m) ∧
      Answers es {} c ret ∧ ret.1 = (c.view es).1 ∧ c.shown es {} = (c.view es).2 := by
    cases c with
    | emsCreate | emsReserve => exact hc.elim
    | emsShow id =>
      refine ⟨showReply es id, runOp_emsShow h {} id, rfl, ?_⟩
      cases hfind : findId es id with
      | none =>
        rw [view_none hfind]
        exact ⟨by rw [showReply, hfind], by simp only [Call.shown, hfind]⟩
      | some e =>
        rw [view_some hfind]
        exact ⟨by rw [showReply, hfind], by simp only [Call.shown, hfind]; rfl⟩
    | emsListEvents => exact ⟨_, runOp_emsListEvents h {}, rfl, rfl, rfl⟩
  refine ⟨ret.2, by rw [hrun, ← hcode], fun s hs hbytes => ?_⟩
  have hvalid : c.Valid := by cases c <;> first | exact hc.elim | trivial
  have hsmall : c.Small := by cases c <;> first | exact hc.elim | trivial
  have hwp : wp (c.issue {} (return ())) (fun code s' => code = (c.view es).1 ∧
      s'.out.written = s.out.written ++ (c.view es).2) (fun _ => False) s := by
    refine wp_issue {} h hes hvalid hsmall hs fun s₁ h₁ => ?_
    have hbytes₁ : s₁.response_pipe.bytes = ret.2 := by rw [← hbytes, h₁.got, List.nil_append]
    refine ⟨h₁.reliable, ret, hans, hbytes₁, fun s' h' => ⟨hcode, ?_⟩⟩
    rw [h'.printed, h₁.printed, List.append_nil, hshown]
  obtain ⟨code, s', hrun', rfl, hout⟩ := run_of_wp hwp
  exact ⟨s', hrun', hout⟩

theorem views_iff (h : Rep m l es) (hes : Fitting es) (hc : c.Reads) (view : Int32 × Bytes) :
    Views m c view ↔ view = c.view es := by
  constructor
  · intro hview
    exact hview.unique (views_of_rep h hes hc)
  · rintro rfl
    exact views_of_rep h hes hc

/-- Stores look alike if they have the same views. -/
theorem lookAlike_iff_view (h : Rep m l es) (h' : Rep m' l' es') (hes : Fitting es)
    (hes' : Fitting es') : LookAlike m m' ↔ ∀ c : Call, c.Reads → c.view es = c.view es' := by
  refine forall_congr' fun c => imp_congr_right fun hc => ?_
  constructor
  · intro hviews
    exact (views_iff h' hes' hc _).1 ((hviews _).1 (views_of_rep h hes hc))
  · intro heq view
    rw [views_iff h hes hc, views_iff h' hes' hc, heq]

/-! ### The same views -/

theorem SameShown.text_eq {e e' : Entry} (h : SameShown e e') : e.text = e'.text := by
  by_cases hrows : e.ev.rows = 0
  · have hrows' : e'.ev.rows = 0 := h.rows.symm.trans hrows
    unfold Entry.text
    rw [hrows, hrows']
    rfl
  · unfold Entry.text Entry.rowText Entry.seat seatIndex
    rw [h.rows, h.cols hrows, h.cells]

theorem ids_of_sameShown (h : List.Forall₂ SameShown es es') :
    (es.map fun e => e.ev.id) = es'.map fun e => e.ev.id := by
  induction h with
  | nil => rfl
  | cons hhead _ ih => rw [List.map_cons, List.map_cons, hhead.id, ih]

/-- The same event is found. -/
theorem find_sameShown (h : List.Forall₂ SameShown es es') (id : UInt32) :
    findId es id = none ∧ findId es' id = none ∨
      ∃ e e', findId es id = some e ∧ findId es' id = some e' ∧ SameShown e e' := by
  induction h with
  | nil => exact Or.inl ⟨rfl, rfl⟩
  | @cons e e' es es' hhead _ ih =>
    by_cases hid : e.ev.id = id
    · refine Or.inr ⟨e, e', ?_, ?_, hhead⟩
      · exact List.find?_cons_of_pos (decide_eq_true hid)
      · exact List.find?_cons_of_pos (decide_eq_true (hhead.id.symm.trans hid))
    · have hid' : e'.ev.id ≠ id := fun heq => hid (hhead.id.trans heq)
      unfold findId at ih ⊢
      rw [List.find?_cons_of_neg (by simpa using hid), List.find?_cons_of_neg (by simpa using hid')]
      exact ih

theorem view_of_sameShown (h : List.Forall₂ SameShown es es') (c : Call) :
    c.view es = c.view es' := by
  cases c with
  | emsCreate | emsReserve => rfl
  | emsShow id =>
    obtain ⟨hnone, hnone'⟩ | ⟨e, e', he, he', hsame⟩ := find_sameShown h id
    · rw [view_none hnone, view_none hnone']
    · rw [view_some he, view_some he', hsame.text_eq]
  | emsListEvents =>
    unfold Call.view listReply
    rw [ids_of_sameShown h]

theorem sameShown_of_view (h : Rep m l es) (h' : Rep m' l' es') (hes : Fitting es)
    (hes' : Fitting es') (hviews : ∀ c : Call, c.Reads → c.view es = c.view es') :
    List.Forall₂ SameShown es es' := by
  have hids : List.Forall₂ (fun e e' => e.ev.id = e'.ev.id) es es' := by
    have hlist := listText_inj (congrArg Prod.snd (hviews .emsListEvents trivial))
    rw [← List.forall₂_eq_eq_eq, List.forall₂_map_left_iff, List.forall₂_map_right_iff] at hlist
    exact hlist
  obtain ⟨hlength, hzip⟩ := List.forall₂_iff_zip.1 hids
  refine List.forall₂_iff_zip.2 ⟨hlength, fun {e e'} hmem => ?_⟩
  obtain ⟨he, he'⟩ := List.of_mem_zip hmem
  have hid := hzip hmem
  have hview := hviews (.emsShow e.ev.id) trivial
  rw [view_some (findId_of_mem h.ids he), hid, view_some (findId_of_mem h'.ids he')] at hview
  obtain ⟨hrows, hcells, hcols⟩ := Entry.text_inj (hes e he) (h.size e he) (hes' e' he')
    (h'.size e' he') (congrArg Prod.snd hview)
  exact ⟨hid, hrows, hcells, hcols⟩

/-- **Clients cannot tell two stores apart if and only if the stores have the same events**, in the
    same order, with the same rows, columns and seats; the columns of an event without rows cannot
    be seen. -/
theorem lookAlike_iff (h : Rep m l es) (h' : Rep m' l' es') (hes : Fitting es)
    (hes' : Fitting es') : LookAlike m m' ↔ List.Forall₂ SameShown es es' := by
  rw [lookAlike_iff_view h h' hes hes']
  exact ⟨sameShown_of_view h h' hes hes', fun hsame c _ => view_of_sameShown hsame c⟩

end Stores

/-- An event of two rows and three columns, before and after a reservation of one seat; and two events
    without rows, of five and of nine columns. -/
theorem lookAlike_iff_seats :
    (∃ m m', runOp (emsCreate {} 7 2 3) freshMem = some ((0, []), m) ∧
      runOp (emsReserve {} 7 1 [1] [2]) m = some ((0, []), m') ∧
      (LookAlike m m' ↔ List.Forall₂ SameShown [newEntry freshMem 7 2 3]
        (reserveAt [newEntry freshMem 7 2 3] (newEntry freshMem 7 2 3).event [(1, 2)])) ∧
      ¬ LookAlike m m') ∧
    ∃ m m', runOp (emsCreate {} 7 0 5) freshMem = some ((0, []), m) ∧
      runOp (emsCreate {} 7 0 9) freshMem = some ((0, []), m') ∧
      (LookAlike m m' ↔
        List.Forall₂ SameShown [newEntry freshMem 7 0 5] [newEntry freshMem 7 0 9]) ∧
      LookAlike m m' := by
  have hfit {rows cols : UInt64} (h : NoWrap rows cols) : Fitting [newEntry freshMem 7 rows cols] := by
    intro e he
    obtain rfl := List.mem_singleton.1 he
    exact h
  constructor
  · obtain ⟨m, hrun, h⟩ := runOp_emsCreate_first rep_freshMem 7 2 3
    obtain ⟨code, w, hrun', hf, hcase⟩ := runOp_of_wp (x := emsReserve {} 7 1 [1] [2])
      (wp_emsReserve (w := { mem := m }) h (by decide) fun e he hn _ => absurd (hfit (by decide)
        e (findId_eq_some he).1) hn)
    have hfind : findId [newEntry freshMem 7 2 3] 7 = some (newEntry freshMem 7 2 3) := by decide
    obtain ⟨-, -, hrej⟩ | ⟨rfl, -, e, hfind', -, hm, -⟩ := hcase
    · exact absurd (by decide) (hrej rfl _ hfind)
    obtain rfl := Option.some.inj (hfind.symm.trans hfind')
    have h' := h.reserve (List.mem_singleton_self _) [(1, 2)]
    have hfit' : Fitting (reserveAt [newEntry freshMem 7 2 3] (newEntry freshMem 7 2 3).event
        [(1, 2)]) := by
      intro e he
      obtain ⟨x, hx, rfl⟩ := List.mem_map.1 he
      obtain rfl := List.mem_singleton.1 hx
      decide
    have hiff := lookAlike_iff h h' (hfit (by decide)) hfit'
    refine ⟨m, _, hrun, by rw [hrun', hf, hm]; rfl, hiff, fun hsame => ?_⟩
    obtain ⟨hseats, -⟩ := List.forall₂_cons.1 (hiff.1 hsame)
    exact absurd hseats.cells (by decide)
  · obtain ⟨m, hrun, h⟩ := runOp_emsCreate_first rep_freshMem 7 0 5
    obtain ⟨m', hrun', h'⟩ := runOp_emsCreate_first rep_freshMem 7 0 9
    have hiff := lookAlike_iff h h' (hfit (by decide)) (hfit (by decide))
    refine ⟨m, m', hrun, hrun', hiff, hiff.2 (.cons ⟨rfl, rfl, rfl, fun hrows => ?_⟩ .nil)⟩
    exact absurd rfl hrows

end EventServer
