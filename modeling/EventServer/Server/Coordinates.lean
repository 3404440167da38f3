import EventServer.Lib.Runs
import EventServer.Server.Truncation

/-
  The coordinates of a reserve request.

  `handle_client` reads a number of seats from the pipe, stores as many coordinates as that
  number asks for into two arrays of MAX_RESERVATION_SIZE elements, and `ems_reserve` reads the
  number of coordinates it was given. `coordinatesRead` are the elements that it reads for a
  given event (`emsReserveLocked_stable`: it depends on no others), `reserveRequest` is what
  the session has read and stored, `wp_handleReserve` that it does so. `within_iff` says when all
  of this stays inside the arrays and inside the request.
-/

namespace EventServer

open Lib Op Handler

/-! ## What `ems_reserve` reads -/

/-- An element of the arrays `xs` and `ys`. -/
inductive Coordinate where
  | x (i : Nat)
  | y (i : Nat)
  deriving DecidableEq, Repr

def Coordinate.index : Coordinate → Nat
  | .x i => i
  | .y i => i

/-- The element, if the array is long enough. -/
def Coordinate.get (xs ys : List UInt64) : Coordinate → Option UInt64
  | .x i => xs[i]?
  | .y i => ys[i]?

/-- The loop that checks the coordinates of `n` seats from the `i`th on: the elements it reads and
    its result, which is `none` when it reads outside an array. -/
def checkSeats (event : Event) (xs ys : List UInt64) : Nat → Nat → List Coordinate × Option Bool
  | 0, _ => ([], some true)
  | n + 1, i =>
    match xs[i]? with
    | none => ([.x i], none)
    | some x =>
      if x ≤ 0 ∨ x > event.rows then ([.x i], some false)
      else
        match ys[i]? with
        | none => ([.x i, .y i], none)
        | some y =>
          if y ≤ 0 ∨ y > event.cols then ([.x i, .y i], some false)
          else
            let rest := checkSeats event xs ys n (i + 1)
            (.x i :: .y i :: rest.1, rest.2)

/-- The elements that `ems_reserve` reads under the event's mutex: those of the bounds check, and
    if that succeeds all listed ones again. -/
def coordinatesRead (event : Event) (num_seats : UInt64) (xs ys : List UInt64) : List Coordinate :=
  let check := checkSeats event xs ys num_seats.toNat 0
  check.1 ++ if check.2 = some true then
    (List.range num_seats.toNat).flatMap fun i => [.x i, .y i] else []

section Stable

variable {event : Event} {xs ys xs' ys' : List UInt64}

/-- `checkSeats` is the loop of the model. -/
theorem seatsInBounds_eq : ∀ (n i : Nat), seatsInBounds event xs ys n i =
    match (checkSeats event xs ys n i).2 with
    | none => throw .outOfBounds
    | some b => return b
  | 0, _ => rfl
  | n + 1, i => by
      rw [seatsInBounds, checkSeats, index, index]
      cases xs[i]? with
      | none => rfl
      | some x =>
        dsimp only
        rw [pure_bind]
        by_cases hx : x ≤ 0 ∨ x > event.rows
        · rw [if_pos hx, if_pos hx]
        · rw [if_neg hx, if_neg hx]
          cases ys[i]? with
          | none => rfl
          | some y =>
            dsimp only
            rw [pure_bind]
            by_cases hy : y ≤ 0 ∨ y > event.cols
            · rw [if_pos hy, if_pos hy]
            · rw [if_neg hy, if_neg hy]
              exact seatsInBounds_eq n (i + 1)

/-- The check depends only on what it reads. -/
theorem checkSeats_stable : ∀ (n i : Nat),
    (∀ c ∈ (checkSeats event xs ys n i).1, c.get xs ys = c.get xs' ys') →
    checkSeats event xs' ys' n i = checkSeats event xs ys n i
  | 0, _, _ => rfl
  | n + 1, i, h => by
      have hfirst : .x i ∈ (checkSeats event xs ys (n + 1) i).1 := by
        rw [checkSeats]
        repeat' split
        all_goals simp
      have hx : xs[i]? = xs'[i]? := h (.x i) hfirst
      rw [checkSeats] at h ⊢
      rw [checkSeats, ← hx]
      cases hx : xs[i]? with
      | none => rfl
      | some x =>
        simp only [hx] at h ⊢
        by_cases hgood : x ≤ 0 ∨ x > event.rows
        · rw [if_pos hgood, if_pos hgood]
        · rw [if_neg hgood] at h ⊢
          rw [if_neg hgood]
          have hy : ys[i]? = ys'[i]? := h (.y i) (by repeat' split; all_goals simp)
          rw [← hy]
          cases hy : ys[i]? with
          | none => rfl
          | some y =>
            simp only [hy] at h ⊢
            by_cases hgood' : y ≤ 0 ∨ y > event.cols
            · rw [if_pos hgood', if_pos hgood']
            · rw [if_neg hgood'] at h ⊢
              rw [if_neg hgood', checkSeats_stable n (i + 1) fun c hc => h c (by simp [hc])]

/-- Arrays that agree on the first `n` elements. -/
theorem take_eq_of_get {n : Nat}
    (h : ∀ c ∈ (List.range n).flatMap fun i => [Coordinate.x i, .y i], c.get xs ys = c.get xs' ys') :
    xs.take n = xs'.take n ∧ ys.take n = ys'.take n := by
  have hmem : ∀ i < n, ∀ c ∈ [Coordinate.x i, .y i], c.get xs ys = c.get xs' ys' := fun i hi c hc =>
    h c (List.mem_flatMap.2 ⟨i, List.mem_range.2 hi, hc⟩)
  constructor <;> refine List.ext_getElem? fun i => ?_ <;> rw [List.getElem?_take, List.getElem?_take]
  · split
    · next hi => exact hmem i hi (.x i) (by simp)
    · rfl
  · split
    · next hi => exact hmem i hi (.y i) (by simp)
    · rfl

/-- **`ems_reserve` depends on no elements of its arrays but `coordinatesRead`.** -/
theorem emsReserveLocked_stable {w : World} {p : Ptr} {num_seats : UInt64}
    (hlive : w.mem.events.load p = some event)
    (h : ∀ c ∈ coordinatesRead event num_seats xs ys, c.get xs ys = c.get xs' ys') (env : Env) :
    (emsReserveLocked env p num_seats xs ys).run w =
      (emsReserveLocked env p num_seats xs' ys').run w := by
  have hcheck := checkSeats_stable num_seats.toNat 0 fun c hc => h c (List.mem_append_left _ hc)
  refine run_eq_of_wp fun Q E => ?_
  simp only [emsReserveLocked, wp_bind, wp_ite, wp_lockEvent hlive, wp_deref, World.mark_mem, hlive,
    seatsInBounds_eq, hcheck]
  cases hresult : (checkSeats event xs ys num_seats.toNat 0).2 with
  | none => rfl
  | some b =>
    cases b with
    | false => simp only [wp_pure, Bool.not_false, not_true_eq_false, false_imp_iff]
    | true =>
      -- all listed seats exist, and the loops that follow read all of them
      obtain ⟨hxs, hys⟩ := take_eq_of_get (n := num_seats.toNat) fun c hc =>
        h c (List.mem_append_right _ (by rwa [if_pos hresult]))
      have htaken : ∀ k i, someCellTaken p event num_seats xs ys k i =
          someCellTaken p event num_seats xs' ys' k i := fun k i => by
        rw [← someCellTaken_take p event (le_refl num_seats.toNat), hxs, hys,
          someCellTaken_take p event (le_refl num_seats.toNat)]
      have hwrite : ∀ id, writeSeats p event id xs ys num_seats.toNat 0 =
          writeSeats p event id xs' ys' num_seats.toNat 0 := fun id => by
        rw [← writeSeats_take (n := num_seats.toNat) p event id _ 0 (by omega), hxs, hys,
          writeSeats_take (n := num_seats.toNat) p event id _ 0 (by omega)]
      simp only [htaken, hwrite]

/-- What the check of one seat does. -/
theorem checkSeats_cases (event : Event) (xs ys : List UInt64) (n i : Nat) :
    (xs[i]? = none ∧ checkSeats event xs ys (n + 1) i = ([.x i], none)) ∨
    (∃ x, xs[i]? = some x ∧ (x ≤ 0 ∨ x > event.rows) ∧
      checkSeats event xs ys (n + 1) i = ([.x i], some false)) ∨
    (∃ x, xs[i]? = some x ∧ ¬ (x ≤ 0 ∨ x > event.rows) ∧ ys[i]? = none ∧
      checkSeats event xs ys (n + 1) i = ([.x i, .y i], none)) ∨
    (∃ x y, xs[i]? = some x ∧ ¬ (x ≤ 0 ∨ x > event.rows) ∧ ys[i]? = some y ∧
      (y ≤ 0 ∨ y > event.cols) ∧
      checkSeats event xs ys (n + 1) i = ([.x i, .y i], some false)) ∨
    (∃ x y, xs[i]? = some x ∧ ¬ (x ≤ 0 ∨ x > event.rows) ∧ ys[i]? = some y ∧
      ¬ (y ≤ 0 ∨ y > event.cols) ∧
      checkSeats event xs ys (n + 1) i =
        (.x i :: .y i :: (checkSeats event xs ys n (i + 1)).1,
          (checkSeats event xs ys n (i + 1)).2)) := by
  rw [checkSeats]
  cases xs[i]? with
  | none => exact Or.inl ⟨rfl, rfl⟩
  | some x =>
    by_cases hx : x ≤ 0 ∨ x > event.rows
    · exact Or.inr (Or.inl ⟨x, rfl, hx, if_pos hx⟩)
    · dsimp only
      rw [if_neg hx]
      cases ys[i]? with
      | none => exact Or.inr (Or.inr (Or.inl ⟨x, rfl, hx, rfl, rfl⟩))
      | some y =>
        by_cases hy : y ≤ 0 ∨ y > event.cols
        · exact Or.inr (Or.inr (Or.inr (Or.inl ⟨x, y, rfl, hx, rfl, hy, if_pos hy⟩)))
        · exact Or.inr (Or.inr (Or.inr (Or.inr ⟨x, y, rfl, hx, rfl, hy, if_neg hy⟩)))

/-- A check that succeeds has read all coordinates. -/
theorem checkSeats_all : ∀ (n i : Nat), (checkSeats event xs ys n i).2 = some true →
    ∀ j, i ≤ j → j < i + n →
      .x j ∈ (checkSeats event xs ys n i).1 ∧ .y j ∈ (checkSeats event xs ys n i).1
  | 0, _, _, _, _, _ => by omega
  | n + 1, i, h, j, hij, hj => by
      obtain ⟨-, hc⟩ | ⟨x, -, -, hc⟩ | ⟨x, -, -, -, hc⟩ | ⟨x, y, -, -, -, -, hc⟩ |
        ⟨x, y, -, -, -, -, hc⟩ := checkSeats_cases event xs ys n i
      all_goals rw [hc] at h ⊢
      iterate 4 cases h
      rcases Nat.eq_or_lt_of_le hij with rfl | hlt
      · simp
      · obtain ⟨hxj, hyj⟩ := checkSeats_all n (i + 1) h j (by omega) (by omega)
        simp [hxj, hyj]

/-- What `ems_reserve` reads is what its first loop reads. -/
theorem mem_coordinatesRead {num_seats : UInt64} {c : Coordinate} :
    c ∈ coordinatesRead event num_seats xs ys ↔
      c ∈ (checkSeats event xs ys num_seats.toNat 0).1 := by
  refine ⟨fun hc => ?_, List.mem_append_left _⟩
  rcases List.mem_append.1 hc with hc | hc
  · exact hc
  · split at hc
    · next hall =>
      obtain ⟨i, hi, hc⟩ := List.mem_flatMap.1 hc
      obtain ⟨hx, hy⟩ := checkSeats_all _ 0 hall i (Nat.zero_le i) (by simpa using hi)
      rcases List.mem_pair.1 hc with rfl | rfl
      · exact hx
      · exact hy
    · cases hc

end Stable

/-! ## The part of the arrays that has been received -/

/-- Among the elements is one of a seat that does not exist in the event, and no element before
    it is missing. -/
def EndsCheck (event : Event) (xs ys : List UInt64) (n i : Nat) : Prop :=
  ∃ j, i ≤ j ∧ j < i + n ∧ j ≤ ys.length ∧ ∃ x, xs[j]? = some x ∧
    ((x ≤ 0 ∨ x > event.rows) ∨ ∃ y, ys[j]? = some y ∧ (y ≤ 0 ∨ y > event.cols))

theorem x_mem_checkSeats (event : Event) (xs ys : List UInt64) (n i : Nat) :
    .x i ∈ (checkSeats event xs ys (n + 1) i).1 := by
  obtain ⟨-, hc⟩ | ⟨x, -, -, hc⟩ | ⟨x, -, -, -, hc⟩ | ⟨x, y, -, -, -, -, hc⟩ |
    ⟨x, y, -, -, -, -, hc⟩ := checkSeats_cases event xs ys n i
  all_goals simp [hc]

/-- A seat that exists does not end the check. -/
theorem endsCheck_succ {event : Event} {xs ys : List UInt64} {n i : Nat} {x y : UInt64}
    (hx : xs[i]? = some x) (hx' : ¬ (x ≤ 0 ∨ x > event.rows)) (hy : ys[i]? = some y)
    (hy' : ¬ (y ≤ 0 ∨ y > event.cols)) :
    EndsCheck event xs ys (n + 1) i ↔ EndsCheck event xs ys n (i + 1) := by
  constructor
  · rintro ⟨j, hij, hj, hlen, x', hxj, hend⟩
    rcases Nat.eq_or_lt_of_le hij with rfl | hlt
    · obtain rfl : x = x' := Option.some.inj (hx.symm.trans hxj)
      rcases hend with hbad | ⟨y', hyj, hbad⟩
      · exact absurd hbad hx'
      · obtain rfl : y = y' := Option.some.inj (hy.symm.trans hyj)
        exact absurd hbad hy'
    · exact ⟨j, hlt, by omega, hlen, x', hxj, hend⟩
  · rintro ⟨j, hij, hj, hend⟩
    exact ⟨j, by omega, by omega, hend⟩

/-- Of longer arrays, the check reads only the given part iff that part holds all elements, or
    holds the one that ends the check. -/
theorem checkSeats_within_iff (event : Event) {xs ys X Y : List UInt64}
    (hX : X.take xs.length = xs) (hY : Y.take ys.length = ys) : ∀ (n i : Nat),
    i ≤ xs.length → i ≤ ys.length →
    ((∀ c ∈ (checkSeats event X Y n i).1, (c.get xs ys).isSome) ↔
      i + n ≤ xs.length ∧ i + n ≤ ys.length ∨ EndsCheck event xs ys n i)
  | 0, i, hx, hy => by simp [checkSeats, hx, hy]
  | n + 1, i, hx, hy => by
      rcases Nat.eq_or_lt_of_le hx with hxi | hxi
      · -- the row is missing
        have hnone : xs[i]? = none := List.getElem?_eq_none hxi.ge
        refine iff_of_false (fun h => ?_) ?_
        · simpa [Coordinate.get, hnone] using h _ (x_mem_checkSeats event X Y n i)
        · rintro (⟨h, -⟩ | ⟨j, hij, -, -, x, hxj, -⟩)
          · omega
          · rw [List.getElem?_eq_none (by omega)] at hxj
            cases hxj
      have hXi : X[i]? = xs[i]? := by rw [← hX, List.getElem?_take_of_lt hxi]
      have hhas : (xs[i]?).isSome := by rw [List.getElem?_eq_getElem hxi]; rfl
      obtain ⟨h, -⟩ | ⟨x, hx, hbad, hc⟩ | h := checkSeats_cases event X Y n i
      · rw [← hXi, h] at hhas
        cases hhas
      · rw [hc]
        refine iff_of_true (fun c hc => ?_)
          (Or.inr ⟨i, le_refl i, by omega, hy, x, hXi ▸ hx, .inl hbad⟩)
        rw [List.mem_singleton.1 hc]
        exact hhas
      have hread : .y i ∈ (checkSeats event X Y (n + 1) i).1 := by
        obtain ⟨x, -, -, -, hc⟩ | ⟨x, y, -, -, -, -, hc⟩ | ⟨x, y, -, -, -, -, hc⟩ := h
        all_goals simp [hc]
      have hrow : ∃ x, xs[i]? = some x ∧ ¬ (x ≤ 0 ∨ x > event.rows) := by
        obtain ⟨x, hx, hgood, -⟩ | ⟨x, y, hx, hgood, -⟩ | ⟨x, y, hx, hgood, -⟩ := h
        all_goals exact ⟨x, hXi ▸ hx, hgood⟩
      rcases Nat.eq_or_lt_of_le hy with hyi | hyi
      · -- the column is missing
        have hnone : ys[i]? = none := List.getElem?_eq_none hyi.ge
        refine iff_of_false (fun h => ?_) ?_
        · simpa [Coordinate.get, hnone] using h _ hread
        · obtain ⟨x, hx, hgood⟩ := hrow
          rintro (⟨-, h⟩ | ⟨j, hij, -, hj, x', hxj, hbad⟩)
          · omega
          · obtain rfl : j = i := by omega
            obtain rfl : x = x' := Option.some.inj (hx.symm.trans hxj)
            rcases hbad with hbad | ⟨y, hyj, -⟩
            · exact hgood hbad
            · rw [hnone] at hyj
              cases hyj
      have hYi : Y[i]? = ys[i]? := by rw [← hY, List.getElem?_take_of_lt hyi]
      have hhas' : (ys[i]?).isSome := by rw [List.getElem?_eq_getElem hyi]; rfl
      obtain ⟨x, -, -, h, -⟩ | ⟨x, y, hx, -, hy', hbad, hc⟩ | ⟨x, y, hx, hgood, hy', hgood', hc⟩ := h
      · rw [← hYi, h] at hhas'
        cases hhas'
      · rw [hc]
        refine iff_of_true (fun c hc => ?_) (Or.inr ⟨i, le_refl i, by omega, hy, x, hXi ▸ hx,
          .inr ⟨y, hYi ▸ hy', hbad⟩⟩)
        rcases List.mem_pair.1 hc with rfl | rfl
        · exact hhas
        · exact hhas'
      · have ih : (∀ c ∈ (checkSeats event X Y n (i + 1)).1, (c.get xs ys).isSome) ↔ _ :=
          checkSeats_within_iff event hX hY n (i + 1) (by omega) (by omega)
        have hsum : i + (n + 1) = i + 1 + n := by omega
        rw [hc, endsCheck_succ (hXi ▸ hx) hgood (hYi ▸ hy') hgood', hsum, ← ih]
        simp only [List.forall_mem_cons]
        exact ⟨fun h => h.2.2, fun h => ⟨hhas, hhas', h⟩⟩

/-! ## Reading a reserve request -/

/-- The numbers that a reserve request starts with. -/
def readNumbers : Handler Unit := do
  let _ ← readSessionId
  let _ ← readEventId
  let _ ← readNumSeats

/-- The bytes that reading an array stores. -/
def Session.arrayBytes (s : Session) : Bytes :=
  (myRead s.request_pipe (seatsSize s.locals)).stored

/-- The bytes are stored at indices of the array. -/
def StoredInside (bs : Bytes) : Prop := ∀ i, i < bs.length → i / 8 < MAX_RESERVATION_SIZE

/-- All bytes of the element are among those stored for this request. -/
def Coordinate.Received (xs ys : Bytes) : Coordinate → Prop
  | .x i => 8 * (i + 1) ≤ xs.length
  | .y i => 8 * (i + 1) ≤ ys.length

/-- The events that the memory of a well-formed store holds. -/
structure Stored where
  mem : Mem
  list : Ptr
  events : List Entry
  rep : Rep mem list events

/-- The session, when other sessions have made this store of the one they share. -/
def Session.onStore (s : Session) (σ : Stored) : Session :=
  { s with service := { s.service with world := { s.service.world with mem := σ.mem } } }

/-- The event with that id gets to the loops of `ems_reserve`: it exists and the locks hold. -/
def Session.reserves (s : Session) (σ : Stored) (event_id : UInt32) (event : Event) : Prop :=
  (s.service.envs.headD {}).reserves = true ∧
    ∃ e, findId σ.events event_id = some e ∧ e.ev = event

/-- What the reserve case does with the arrays, from where its numbers have been read: every
    store is inside, and every element that `ems_reserve` reads is inside and has been received
    with this request. -/
structure Session.ArraysWithin (s : Session) (σ : Stored) : Prop where
  xs : StoredInside s.arrayBytes
  ys : ∀ ret s₁, readXs.run s = .ok (ret, s₁) → StoredInside s₁.arrayBytes
  reads : ∀ ret s₁ ret' s₂ event_id args event, readXs.run s = .ok (ret, s₁) →
    readYs.run s₁ = .ok (ret', s₂) → s₂.locals.call 4 = some (.emsReserve event_id args) →
    s₂.reserves σ event_id event →
    ∀ c ∈ coordinatesRead event args.num_seats args.xs args.ys,
      c.index < MAX_RESERVATION_SIZE ∧ c.Received s.arrayBytes s₁.arrayBytes

/-- If the next request is a reserve request, it stays within the arrays and within itself. -/
def Session.Within (s : Session) (σ : Stored) : Prop :=
  ∀ s₁ s₂, nextOpCode.run s = .ok (some 4, s₁) → readNumbers.run s₁ = .ok ((), s₂) →
    s₂.ArraysWithin σ

/-- One round of the loop of `handle_client`, if it goes on after it. -/
def sessionRound (s : Session) (σ : Stored) : Option Session :=
  match handleNext.run (s.onStore σ) with
  | .ok (none, s') => some s'
  | _ => none

/-! ## The condition on the bytes -/

/-- A reserve request: the variables when its numbers have been read, and the bytes it has for the
    two arrays. -/
structure ReserveRequest where
  operands : Locals
  xs : Bytes
  ys : Bytes
  deriving DecidableEq, Repr

/-- The request that the bytes after the op code begin with. The size of an array is what
    `my_read` makes of `num_seats * sizeof(size_t)`: a signed number. -/
def Locals.reserveRequest (v : Locals) (bs : Bytes) : ReserveRequest :=
  let operands := { v with
    session_id := v.session_id.overwrite (bs.take 4)
    event_id := v.event_id.overwrite ((bs.drop 4).take 4)
    num_seats := v.num_seats.overwrite ((bs.drop 8).take 8) }
  let size := (ssize (seatsSize operands)).toNat
  ⟨operands, (bs.drop 16).take size, (bs.drop (16 + size)).take size⟩

/-- The request fits the event: all the coordinates it announces have arrived, or one has that
    ends the check. -/
def ReserveRequest.FitsEvent (r : ReserveRequest) (event : Event) : Prop :=
  let xs := toSizes (r.xs.length / 8) r.xs
  let ys := toSizes (r.ys.length / 8) r.ys
  r.operands.seats ≤ xs.length ∧ r.operands.seats ≤ ys.length ∨
    EndsCheck event xs ys r.operands.seats 0

/-- If the next request is a reserve request, the arrays have room for what it brings, and it fits
    the event it is for. -/
def Session.Fits (s : Session) (σ : Stored) : Prop :=
  ∀ bs, s.request_pipe.bytes = 4 :: bs →
    let r := s.locals.reserveRequest bs
    r.xs.length ≤ 8 * MAX_RESERVATION_SIZE ∧ r.ys.length ≤ 8 * MAX_RESERVATION_SIZE ∧
      ∀ event, s.reserves σ (toUInt r.operands.event_id.bytes) event → r.FitsEvent event

/-! ## The two agree -/

theorem storedInside_iff {bs : Bytes} : StoredInside bs ↔ bs.length ≤ 8 * MAX_RESERVATION_SIZE := by
  constructor
  · intro h
    by_contra hlt
    have := h (8 * MAX_RESERVATION_SIZE) (by omega)
    rw [Nat.mul_div_cancel_left _ (by decide)] at this
    omega
  · intro h i hi
    rw [Nat.div_lt_iff_lt_mul (by decide)]
    omega

/-- An element has been received if it is among the whole elements received. -/
theorem Coordinate.received_iff {xs ys : Bytes} {c : Coordinate} : c.Received xs ys ↔
    (c.get (toSizes (xs.length / 8) xs) (toSizes (ys.length / 8) ys)).isSome := by
  have hlt : ∀ (bs : Bytes) (i : Nat),
      8 * (i + 1) ≤ bs.length ↔ ((toSizes (bs.length / 8) bs)[i]?).isSome := by
    intro bs i
    simp only [Option.isSome_iff_ne_none, ne_eq, List.getElem?_eq_none_iff, length_toSizes]
    omega
  cases c with
  | x i => exact hlt xs i
  | y i => exact hlt ys i

theorem Coordinate.Received.index_lt {xs ys : Bytes} {c : Coordinate} (h : c.Received xs ys)
    (hx : xs.length ≤ 8 * MAX_RESERVATION_SIZE) (hy : ys.length ≤ 8 * MAX_RESERVATION_SIZE) :
    c.index < MAX_RESERVATION_SIZE := by
  cases c with
  | x i =>
    have hi : 8 * (i + 1) ≤ xs.length := h
    show i < MAX_RESERVATION_SIZE
    omega
  | y i =>
    have hi : 8 * (i + 1) ≤ ys.length := h
    show i < MAX_RESERVATION_SIZE
    omega

/-- The elements that are read are those received exactly when the request fits the event. -/
theorem reads_within_iff {r : ReserveRequest} (event : Event)
    (hx : r.xs.length ≤ 8 * MAX_RESERVATION_SIZE) (hy : r.ys.length ≤ 8 * MAX_RESERVATION_SIZE) :
    (∀ c ∈ coordinatesRead event (toSize r.operands.num_seats.bytes)
        (toSizes MAX_RESERVATION_SIZE (r.operands.xs.overwrite r.xs).bytes)
        (toSizes MAX_RESERVATION_SIZE (r.operands.ys.overwrite r.ys).bytes),
      c.index < MAX_RESERVATION_SIZE ∧ c.Received r.xs r.ys) ↔ r.FitsEvent event := by
  have hstored : ∀ (b : Buffer (8 * MAX_RESERVATION_SIZE)) (bs : Bytes),
      bs.length ≤ 8 * MAX_RESERVATION_SIZE →
      (toSizes MAX_RESERVATION_SIZE (b.overwrite bs).bytes).take
        (toSizes (bs.length / 8) bs).length = toSizes (bs.length / 8) bs := fun b bs hlen => by
    rw [length_toSizes]
    exact take_toSizes_overwrite b (by omega) (by omega)
  have hcheck := checkSeats_within_iff event (hstored r.operands.xs r.xs hx)
    (hstored r.operands.ys r.ys hy) r.operands.seats 0 (Nat.zero_le _) (Nat.zero_le _)
  rw [Nat.zero_add] at hcheck
  refine Iff.trans (forall_congr' fun c => ?_) hcheck
  rw [mem_coordinatesRead, Coordinate.received_iff]
  refine imp_congr_right fun _ => ⟨fun h => h.2, fun h => ⟨?_, h⟩⟩
  exact (Coordinate.received_iff.2 h).index_lt hx hy

section Read

variable {s : Session} {σ : Stored} (hc : Calm s.request_pipe.turns)
  (heof : s.request_pipe.eof = true)

include hc

theorem arrayBytes_calm :
    s.arrayBytes = s.request_pipe.bytes.take (ssize (seatsSize s.locals)).toNat := by
  obtain ⟨ts, -, -, hread⟩ := myRead_calm hc (seatsSize s.locals)
  rw [Session.arrayBytes, hread]

include heof

/-- Reading the numbers leaves the variables as `reserveRequest` says. -/
theorem readNumbers_run : ∃ ts, Calm ts ∧ readNumbers.run s = .ok ((), { s with
    request_pipe := { s.request_pipe with bytes := s.request_pipe.bytes.drop 16, turns := ts }
    locals := (s.locals.reserveRequest s.request_pipe.bytes).operands }) := by
  have h4 : (ssize (4 : UInt64)).toNat = 4 := by decide
  have h8 : (ssize (8 : UInt64)).toNat = 8 := by decide
  have hwp : wp readNumbers (fun _ s' => ∃ ts, Calm ts ∧ s' = { s with
      request_pipe := { s.request_pipe with bytes := s.request_pipe.bytes.drop 16, turns := ts }
      locals := (s.locals.reserveRequest s.request_pipe.bytes).operands }) (fun _ => False) s := by
    simp only [readNumbers, wp_bind]
    refine wp_readInto hc h4 (Or.inr heof) (fun h => ?_) fun _ ts₁ hc₁ _ _ => ?_
    · rw [List.length_take] at h
      omega
    refine wp_readInto hc₁ h4 (Or.inr heof) (fun h => ?_) fun _ ts₂ hc₂ _ _ => ?_
    · rw [List.length_take] at h
      omega
    refine wp_readInto hc₂ h8 (Or.inr heof) (fun h => ?_) fun _ ts₃ hc₃ _ _ => ?_
    · rw [List.length_take] at h
      omega
    exact ⟨ts₃, hc₃, by simp [Locals.reserveRequest]⟩
  obtain ⟨_, s', hrun, ts, hts, rfl⟩ := run_of_wp hwp
  exact ⟨ts, hts, hrun⟩

theorem readXs_run {size : Nat} (hsize : (ssize (seatsSize s.locals)).toNat = size)
    (hfits : (s.request_pipe.bytes.take size).length ≤ 8 * MAX_RESERVATION_SIZE) :
    ∃ ret ts, Calm ts ∧ readXs.run s = .ok (ret, { s with
      request_pipe := { s.request_pipe with bytes := s.request_pipe.bytes.drop size, turns := ts }
      locals := { s.locals with
        xs := s.locals.xs.overwrite (s.request_pipe.bytes.take size) } }) := by
  have hwp : wp readXs (fun _ s' => ∃ ts, Calm ts ∧ s' = { s with
      request_pipe := { s.request_pipe with bytes := s.request_pipe.bytes.drop size, turns := ts }
      locals := { s.locals with
        xs := s.locals.xs.overwrite (s.request_pipe.bytes.take size) } }) (fun _ => False) s := by
    rw [readXs, wp_bind, wp_get]
    exact wp_readInto hc hsize (Or.inr heof) (fun h => absurd hfits (Nat.not_le.2 h))
      fun _ ts hts _ _ => ⟨ts, hts, rfl⟩
  obtain ⟨ret, s', hrun, ts, hts, rfl⟩ := run_of_wp hwp
  exact ⟨ret, ts, hts, hrun⟩

theorem readYs_run {size : Nat} (hsize : (ssize (seatsSize s.locals)).toNat = size)
    (hfits : (s.request_pipe.bytes.take size).length ≤ 8 * MAX_RESERVATION_SIZE) :
    ∃ ret ts, Calm ts ∧ readYs.run s = .ok (ret, { s with
      request_pipe := { s.request_pipe with bytes := s.request_pipe.bytes.drop size, turns := ts }
      locals := { s.locals with
        ys := s.locals.ys.overwrite (s.request_pipe.bytes.take size) } }) := by
  have hwp : wp readYs (fun _ s' => ∃ ts, Calm ts ∧ s' = { s with
      request_pipe := { s.request_pipe with bytes := s.request_pipe.bytes.drop size, turns := ts }
      locals := { s.locals with
        ys := s.locals.ys.overwrite (s.request_pipe.bytes.take size) } }) (fun _ => False) s := by
    rw [readYs, wp_bind, wp_get]
    exact wp_readInto hc hsize (Or.inr heof) (fun h => absurd hfits (Nat.not_le.2 h))
      fun _ ts hts _ _ => ⟨ts, hts, rfl⟩
  obtain ⟨ret, s', hrun, ts, hts, rfl⟩ := run_of_wp hwp
  exact ⟨ret, ts, hts, hrun⟩

/-- What is stored and read, against the bytes of the request. -/
theorem arraysWithin_iff {r : ReserveRequest} {size : Nat} (hop : s.locals = r.operands)
    (hsize : (ssize (seatsSize r.operands)).toNat = size)
    (hxs : s.request_pipe.bytes.take size = r.xs)
    (hys : (s.request_pipe.bytes.drop size).take size = r.ys) :
    s.ArraysWithin σ ↔ r.xs.length ≤ 8 * MAX_RESERVATION_SIZE ∧
      r.ys.length ≤ 8 * MAX_RESERVATION_SIZE ∧
      ∀ event, s.reserves σ (toUInt r.operands.event_id.bytes) event → r.FitsEvent event := by
  rw [← hop] at hsize
  have hx : s.arrayBytes = r.xs := by rw [arrayBytes_calm hc, hsize, hxs]
  by_cases hfx : r.xs.length ≤ 8 * MAX_RESERVATION_SIZE
  swap
  · exact iff_of_false (fun h => hfx (storedInside_iff.1 (hx ▸ h.xs))) fun h => hfx h.1
  obtain ⟨ret, ts, hts, hrun⟩ := readXs_run hc heof hsize (by rwa [hxs])
  set s₁ : Session := { s with
    request_pipe := { s.request_pipe with bytes := s.request_pipe.bytes.drop size, turns := ts }
    locals := { s.locals with
      xs := s.locals.xs.overwrite (s.request_pipe.bytes.take size) } } with hs₁
  have hc₁ : Calm s₁.request_pipe.turns := hts
  have hsize₁ : (ssize (seatsSize s₁.locals)).toNat = size := hsize
  have hy : s₁.arrayBytes = r.ys := by rw [arrayBytes_calm hc₁, hsize₁, ← hys]
  by_cases hfy : r.ys.length ≤ 8 * MAX_RESERVATION_SIZE
  swap
  · exact iff_of_false (fun h => hfy (storedInside_iff.1 (hy ▸ h.ys ret s₁ hrun))) fun h => hfy h.2.1
  obtain ⟨ret', ts', -, hrun'⟩ := readYs_run hc₁ heof hsize₁ (by
    rw [hs₁, hys]
    exact hfy)
  obtain ⟨s₂, hs₂, hcall⟩ : ∃ s₂, readYs.run s₁ = .ok (ret', s₂) ∧
      s₂.service = s.service ∧ s₂.locals.call 4 = some (.emsReserve (toUInt r.operands.event_id.bytes)
        ⟨toSize r.operands.num_seats.bytes,
          toSizes MAX_RESERVATION_SIZE (r.operands.xs.overwrite r.xs).bytes,
          toSizes MAX_RESERVATION_SIZE (r.operands.ys.overwrite r.ys).bytes⟩) :=
    ⟨_, hrun', rfl, by simp only [hs₁, hop, hxs, hys, Locals.call]⟩
  obtain ⟨hservice, hcall⟩ := hcall
  have hreserves : ∀ id event, s₂.reserves σ id event ↔ s.reserves σ id event := fun id event => by
    rw [Session.reserves, hservice, Session.reserves]
  constructor
  · intro h
    refine ⟨hfx, hfy, fun event hevent => (reads_within_iff event hfx hfy).1 ?_⟩
    have := h.reads ret s₁ ret' s₂ _ _ event hrun hs₂ hcall ((hreserves _ _).2 hevent)
    rwa [hx, hy] at this
  · rintro ⟨-, -, hfit⟩
    refine ⟨hx ▸ storedInside_iff.2 hfx, fun _ s' hs' => ?_,
      fun _ s' _ s'' id args event hs' hs'' hc' hev => ?_⟩
    · rw [hrun] at hs'
      cases hs'
      exact hy ▸ storedInside_iff.2 hfy
    · rw [hrun] at hs'
      cases hs'
      rw [hs₂] at hs''
      cases hs''
      rw [hcall] at hc'
      cases hc'
      rw [hx, hy]
      exact (reads_within_iff event hfx hfy).2 (hfit event ((hreserves _ _).1 hev))

/-- The op code of the next request is the next byte. -/
theorem nextOpCode_reserve :
    wp nextOpCode (fun r s' =>
      (r = some 4 ↔ ∃ bs, s.request_pipe.bytes = 4 :: bs) ∧ ∃ ts, Calm ts ∧ s' = { s with
        request_pipe := { s.request_pipe with bytes := s.request_pipe.bytes.drop 1, turns := ts } })
      (fun _ => False) s := by
  obtain ⟨ts, hts, -, hread⟩ := myRead_calm hc 1
  have h1 : (ssize (1 : UInt64)).toNat = 1 := by decide
  simp only [nextOpCode, wp_bind, wp_get, hread, wp_set, h1, heof, or_true, if_true, wp_pure]
  refine ⟨?_, ts, hts, rfl⟩
  cases s.request_pipe.bytes with
  | nil => simp
  | cons op_code bs =>
    have hpos : ((min 1 (op_code :: bs).length : Nat) : Int) > 0 := by simp
    simp only [hpos, true_and, List.take_succ_cons, List.headD_cons, List.cons.injEq,
      exists_eq_right']
    split
    · rw [Option.some.injEq]
    · next h2 =>
      rw [not_not] at h2
      subst h2
      exact iff_of_false (by simp) (by decide)

/-- A reserve request is within bounds exactly when the bytes say so. -/
theorem within_iff_fits : s.Within σ ↔ s.Fits σ := by
  have hop := nextOpCode_reserve hc heof
  by_cases h4 : ∃ bs, s.request_pipe.bytes = 4 :: bs
  swap
  · refine iff_of_true (fun s₁ s₂ h₁ _ => ?_) fun bs hbs => absurd ⟨bs, hbs⟩ h4
    exact absurd ((wp_run_ok hop h₁).1.1 rfl) h4
  obtain ⟨bs, hbs⟩ := h4
  obtain ⟨r, s₁, hrun, hr, ts, hts, hs₁⟩ := run_of_wp hop
  obtain rfl : r = some 4 := hr.2 ⟨bs, hbs⟩
  have hbytes : s₁.request_pipe.bytes = bs := by rw [hs₁, hbs]; rfl
  have heof₁ : s₁.request_pipe.eof = true := by rw [hs₁]; exact heof
  obtain ⟨ts', hts', hrun'⟩ := readNumbers_run (s := s₁) (by rw [hs₁]; exact hts) heof₁
  rw [hbytes] at hrun'
  have hlocals : s₁.locals = s.locals := by rw [hs₁]
  have hservice : s₁.service = s.service := by rw [hs₁]
  rw [hlocals] at hrun'
  have hiff := arraysWithin_iff (σ := σ) (s := { s₁ with
      request_pipe := { s₁.request_pipe with bytes := bs.drop 16, turns := ts' }
      locals := (s.locals.reserveRequest bs).operands }) (r := s.locals.reserveRequest bs)
    hts' heof₁ rfl rfl rfl (by
      simp only [Locals.reserveRequest, List.drop_drop])
  constructor
  · intro h bs' hbs'
    obtain rfl : bs = bs' := by
      rw [hbs] at hbs'
      exact (List.cons.inj hbs').2
    obtain ⟨hx, hy, hfit⟩ := hiff.1 (h s₁ _ hrun hrun')
    refine ⟨hx, hy, fun event hevent => hfit event ?_⟩
    rw [Session.reserves, hservice]
    exact hevent
  · intro h s₁' s₂ h₁ h₂
    rw [hrun] at h₁
    cases h₁
    rw [hrun'] at h₂
    cases h₂
    obtain ⟨hx, hy, hfit⟩ := h bs hbs
    refine hiff.2 ⟨hx, hy, fun event hevent => hfit event ?_⟩
    rw [Session.reserves, hservice] at hevent
    exact hevent

/-- The case `ems_reserve` reads on from the same stream. -/
theorem wp_handleReserve_calm : wp (handleOp 4)
    (fun _ s' => Calm s'.request_pipe.turns ∧ s'.request_pipe.eof = true) (fun _ => True) s := by
  show wp (readOr _ readSessionId <| readOr _ readEventId <| readOr _ readNumSeats <|
    readOr _ readXs <| readOr _ readYs <| serve 4) _ _ s
  refine wp_readOr_any hc rfl (Or.inr heof) (fun _ => trivial) fun _ ts₁ hc₁ => ?_
  refine wp_readOr_any hc₁ rfl (Or.inr heof) (fun _ => trivial) fun _ ts₂ hc₂ => ?_
  refine wp_readOr_any hc₂ rfl (Or.inr heof) (fun _ => trivial) fun _ ts₃ hc₃ => ?_
  rw [wp_readOr_xs]
  refine wp_readOr_any hc₃ rfl (Or.inr heof) (fun _ => trivial) fun _ ts₄ hc₄ => ?_
  rw [wp_readOr_ys]
  refine wp_readOr_any hc₄ rfl (Or.inr heof) (fun _ => trivial) fun _ ts₅ hc₅ => ?_
  exact wp_serve.2 (wp_mono (wp_trivial _) (fun _ _ _ => ⟨hc₅, heof⟩) fun _ _ => trivial)

/-- So does every round that the loop goes on after. -/
theorem sessionRound_calm {s' : Session} (h : sessionRound s σ = some s') :
    Calm s'.request_pipe.turns ∧ s'.request_pipe.eof = true := by
  have hwp : wp handleNext (fun ending s' => ending = none →
      Calm s'.request_pipe.turns ∧ s'.request_pipe.eof = true) (fun _ => True) (s.onStore σ) := by
    have hc' : Calm (s.onStore σ).request_pipe.turns := hc
    cases hbytes : s.request_pipe.bytes with
    | nil => exact wp_handleNext_nil hc' hbytes heof fun _ h => nomatch h
    | cons op_code bs =>
      by_cases h2 : op_code = 2
      · subst h2
        exact wp_handleNext_quit hc' hbytes fun _ h => nomatch h
      by_cases h4 : op_code = 4
      · subst h4
        rw [handleNext, wp_bind]
        refine wp_mono (nextOpCode_reserve hc' heof) (fun r s₁ hr => ?_) fun _ _ => trivial
        obtain ⟨hr, ts, hts, hs₁⟩ := hr
        obtain rfl : r = some 4 := hr.2 ⟨bs, hbytes⟩
        have hreserve := wp_handleReserve_calm (s := s₁) (by rw [hs₁]; exact hts)
          (by rw [hs₁]; exact heof)
        simp only [(by decide : (4 : UInt8) ≠ 2), if_false, wp_bind, wp_pure]
        exact wp_mono hreserve (fun _ _ h _ => h) fun _ _ => trivial
      · exact wp_handleNext hc' hbytes h2 (fun h => absurd h h4) (Or.inr heof) fun ts hts =>
          wp_mono (wp_trivial _) (fun _ _ _ _ => ⟨hts, heof⟩) fun _ _ => trivial
  unfold sessionRound at h
  split at h
  · next s₁ hrun =>
    cases h
    exact wp_run_ok hwp hrun rfl
  · cases h

end Read

/-- **Reserve requests stay within the arrays and within themselves**, throughout a session on any
    bytes and whatever becomes of the store, if and only if for each of them the arrays have room
    for what it brings and it fits the event it is for. -/
theorem reserves_within_iff {s : Session} (hc : Calm s.request_pipe.turns)
    (heof : s.request_pipe.eof = true) (σs : List Stored) :
    Throughout sessionRound Session.Within s σs ↔ Throughout sessionRound Session.Fits s σs :=
  throughout_iff
    (I := fun s => Calm s.request_pipe.turns ∧ s.request_pipe.eof = true)
    (fun _ _ _ hI h => sessionRound_calm hI.1 hI.2 h) (fun _ _ hI => within_iff_fits hI.1 hI.2)
    ⟨hc, heof⟩

/-! ### Reserve requests for event 1 -/

/-- A client asks for the seats of the first row of event 1, columns 1 and 2. -/
def rowSession : Session where
  service := { world := { mem := freshMem } }
  request_pipe :=
    { bytes := [4] ++ intBytes 0 ++ uintBytes 1 ++ sizeBytes 2 ++ sizesBytes [1, 1] ++
        sizesBytes [1, 2] }
  locals := zeroLocals

/-- With an event of one row and two columns the request is within bounds: it brings what
    `ems_reserve` reads. -/
theorem reserves_within_iff_row : ∃ m, runOp (emsCreate {} 1 1 2) freshMem = some ((0, []), m) ∧
    ∃ hrep : Rep m 0 [newEntry freshMem 1 1 2],
      (Throughout sessionRound Session.Within rowSession [⟨m, 0, _, hrep⟩] ↔
        Throughout sessionRound Session.Fits rowSession [⟨m, 0, _, hrep⟩]) ∧
      rowSession.Within ⟨m, 0, _, hrep⟩ ∧
      rowSession.reserves ⟨m, 0, _, hrep⟩ 1 (newEntry freshMem 1 1 2).ev := by
  obtain ⟨m, hrun, hrep⟩ := runOp_emsCreate_first rep_freshMem 1 1 2
  refine ⟨m, hrun, hrep, reserves_within_iff calm_nil rfl _, ?_, ?_⟩
  · refine (within_iff_fits calm_nil rfl).2 fun bs hbs => ?_
    obtain rfl := (List.cons.inj hbs).2
    exact ⟨by decide +kernel, by decide +kernel, fun _ _ => Or.inl (by decide +kernel)⟩
  · have hfound : findId [newEntry freshMem 1 1 2] 1 = some (newEntry freshMem 1 1 2) := by decide
    exact ⟨rfl, _, hfound, rfl⟩

/-- A client asks for seats of event 1 and ends its stream behind the number of seats. -/
def numbersSession (num_seats : UInt64) : Session where
  service := { world := { mem := freshMem } }
  request_pipe := { bytes := [4] ++ intBytes 0 ++ uintBytes 1 ++ sizeBytes num_seats }
  locals := zeroLocals

/-- For `2^61` seats the size of the arrays wraps to 0: nothing is received, and `ems_reserve`
    reads what the arrays hold. -/
theorem not_reserves_within_huge :
    ∃ σ, ¬ Throughout sessionRound Session.Within (numbersSession 2305843009213693952) [σ] := by
  obtain ⟨m, -, hrep⟩ := runOp_emsCreate_first rep_freshMem 1 1 1
  refine ⟨⟨m, 0, _, hrep⟩, fun h => ?_⟩
  obtain ⟨-, -, hfit⟩ := (within_iff_fits calm_nil rfl).1 h.1 _ rfl
  have hfound : findId [newEntry freshMem 1 1 1] 1 = some (newEntry freshMem 1 1 1) := by decide
  rcases hfit (newEntry freshMem 1 1 1).ev ⟨rfl, _, hfound, rfl⟩ with ⟨hlen, -⟩ | hends
  · exact absurd hlen (by decide +kernel)
  · obtain ⟨j, -, -, -, x, hx, -⟩ := hends
    cases hx

end EventServer
