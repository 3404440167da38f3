import EventServer.Client.Grammar

/-
  The maximum of `parse_reserve`.

  The loop ends at the closing bracket or when the arrays are full, and the test behind it cannot
  tell the two apart: a list of exactly `max` coordinates is rejected like a longer one
  (`honoursMax_iff_ne`). Nothing is ever stored outside the arrays (`parseReserve_stores`).
-/

namespace EventServer.Client

open Lib

/-- The operands of a well-formed RESERVE command. -/
structure ReserveOperands where
  event_id : Bytes
  coords : List (Bytes × Bytes)
  number : Number event_id
  listed : coords ≠ []
  seats : ∀ c ∈ coords, Seat c

/-- Their text, with the newline behind it. -/
def ReserveOperands.text (o : ReserveOperands) : Bytes :=
  o.event_id ++ ascii " [" ++ coordsText o.coords ++ ascii "]\n"

/-- What the arrays hold when all coordinates have been stored. -/
def ReserveOperands.Stored (o : ReserveOperands) (r : Reservation) : Prop :=
  r.xs = o.coords.map (fun c => (numberValue c.1).toUInt64) ∧
    r.ys = o.coords.map fun c => (numberValue c.2).toUInt64

/-- With room for `max` coordinates the operands are read, and all coordinates returned, if and only
    if there are at most `max`; else the result is 0. -/
def HonoursMax (stack : Stack) (max : Nat) (o : ReserveOperands) (rest : Bytes) : Prop :=
  ∃ k r rest', ((parseReserve max).run stack).run (o.text ++ rest) = .ok ((k, r), rest') ∧
    (k = o.coords.length ∧ o.Stored r ↔ o.coords.length ≤ max) ∧ (max < o.coords.length → k = 0)

/-! ## What is returned -/

/-- The arrays are full before, or together with, the closing bracket. -/
theorem reserveLoop_full (stack : Stack) {coords : List (Bytes × Bytes)} {room : Nat}
    (hne : coords ≠ []) (hroom : room ≤ coords.length) (hseats : ∀ c ∈ coords, Seat c)
    (r : Reservation) (t : Bytes) :
    ∃ r' rest, ((reserveLoop room r).run stack).run (coordsText coords ++ (ascii "]" ++ t)) =
      .ok ((0, r'), rest) := by
  induction coords generalizing room r with
  | nil => exact absurd rfl hne
  | cons c coords ih =>
    rw [List.forall_mem_cons] at hseats
    rw [List.length_cons] at hroom
    cases room with
    | zero => exact ⟨r, _, rfl⟩
    | succ room =>
      by_cases hcoords : coords = []
      · subst hcoords
        have hread := reserveLoop_coord stack room r hseats.1
          (show ']'.toUInt8 ∈ ascii " ]" by decide) t
        have hfull : room = 0 := by simpa using hroom
        rw [if_pos rfl, if_pos hfull] at hread
        exact ⟨_, _, hread⟩
      · have hread := reserveLoop_coord stack room r hseats.1
          (show ' '.toUInt8 ∈ ascii " ]" by decide) (coordsText coords ++ (ascii "]" ++ t))
        rw [if_neg (by decide)] at hread
        rw [coordsText_cons c hcoords, hread]
        exact ih hcoords (by omega) hseats.2 (r.add c)

/-- With fewer coordinates than `max` all is read. -/
theorem parseReserve_fewer (stack : Stack) {max : Nat} (o : ReserveOperands)
    (h : o.coords.length < max) (rest : Bytes) :
    ∃ r, ((parseReserve max).run stack).run (o.text ++ rest) = .ok ((o.coords.length, r), rest) ∧
      o.Stored r := by
  have hread := parseReserve_spelled stack o.number o.listed h o.seats
    (show (10 : UInt8) ∈ lineEnds by decide) rest
  have htext : o.text ++ rest = o.event_id ++ ascii " [" ++ coordsText o.coords ++ ascii "]" ++
      10 :: rest := by
    simp only [ReserveOperands.text, List.append_assoc]
    rfl
  exact ⟨_, htext ▸ hread, rfl, rfl⟩

/-- With `max` coordinates or more the result is 0. -/
theorem parseReserve_full (stack : Stack) {max : Nat} (o : ReserveOperands)
    (h : max ≤ o.coords.length) (rest : Bytes) :
    ∃ r rest', ((parseReserve max).run stack).run (o.text ++ rest) = .ok ((0, r), rest') := by
  obtain ⟨r, rest', hloop⟩ := reserveLoop_full stack o.listed h o.seats
    { event_id := some (numberValue o.event_id) } (10 :: rest)
  refine ⟨r, rest', ?_⟩
  have htext : o.text ++ rest = o.event_id ++ ' '.toUInt8 :: '['.toUInt8 ::
      (coordsText o.coords ++ (ascii "]" ++ 10 :: rest)) := by
    simp only [ReserveOperands.text, List.append_assoc]
    rfl
  rw [htext, parseReserve]
  refine (run_number stack o.number (by decide) (by decide) _).trans ?_
  exact (run_expected stack (by decide) _).trans hloop

/-! ## What is stored -/

/-- `P` holds of what the format returns, wherever its input makes it end. -/
def Format.Always {α : Type} (P : α → Prop) : Format α → Prop
  | .done a => P a
  | .reject a => P a
  | .uint _ failed next => (∀ v, P (failed v)) ∧ ∀ v ch, (next v ch).Always P
  | .char _ failed next => P failed ∧ ∀ ch, (next ch).Always P

/-- Both arrays hold at most `max` coordinates. -/
def Reservation.Within (max : Nat) (r : Reservation) : Prop :=
  r.xs.length ≤ max ∧ r.ys.length ≤ max

theorem Format.Always.run {α : Type} {P : α → Prop} {f : Format α} (h : f.Always P) {stack : Stack}
    {bs rest : Bytes} {a : α} (hrun : (f.run stack).run bs = .ok (a, rest)) : P a := by
  induction f generalizing bs with
  | done a' =>
    cases hrun
    exact h
  | reject a' =>
    cases hrun
    exact h
  | uint ends failed next ih =>
    rw [run_uint] at hrun
    rcases hparse : (parseUint stack).run bs with e | ⟨⟨_ | v, ch⟩, rest'⟩ <;>
      rw [hparse] at hrun
    · cases hrun
    · cases hrun
      exact h.1 none
    · by_cases hin : ch ∈ ends
      · simp only [hin, if_true] at hrun
        exact ih v ch (h.2 v ch) hrun
      · simp only [hin, if_false] at hrun
        cases hrun
        exact h.1 (some v)
  | char ok failed next ih =>
    cases bs with
    | nil =>
      rw [run_char_nil] at hrun
      cases hrun
      exact h.1
    | cons ch bs =>
      rw [run_char_cons] at hrun
      by_cases hin : ch ∈ ok
      · simp only [hin, if_true] at hrun
        exact ih ch (h.2 ch) hrun
      · simp only [hin, if_false] at hrun
        cases hrun
        exact h.1

/-- A coordinate is stored only while there is room for one. -/
theorem reserveLoop_stores {max : Nat} : ∀ (room : Nat) {r : Reservation},
    r.xs.length + room ≤ max → r.ys.length + room ≤ max →
    (reserveLoop room r).Always fun a => a.2.Within max
  | 0, _, hx, hy => ⟨hx, hy⟩
  | room + 1, r, hx, hy => by
      have hr : r.Within max := ⟨by omega, by omega⟩
      refine ⟨hr, fun _ => ⟨fun _ => hr, fun x _ => ?_⟩⟩
      have hrx : Reservation.Within max { r with xs := r.xs ++ [x.toUInt64] } :=
        ⟨by simp only [List.length_append, List.length_singleton]; omega, hr.2⟩
      refine ⟨fun _ => hrx, fun y _ => ?_⟩
      have hxs : (r.xs ++ [x.toUInt64]).length + room ≤ max := by
        simp only [List.length_append, List.length_singleton]
        omega
      have hys : (r.ys ++ [y.toUInt64]).length + room ≤ max := by
        simp only [List.length_append, List.length_singleton]
        omega
      have hrxy : Reservation.Within max
          { r with xs := r.xs ++ [x.toUInt64], ys := r.ys ++ [y.toUInt64] } :=
        ⟨by simpa using Nat.le_of_add_right_le hxs, by simpa using Nat.le_of_add_right_le hys⟩
      refine ⟨hrxy, fun ch => ?_⟩
      dsimp only
      split
      · split
        · exact hrxy
        · exact ⟨hrxy, fun _ => hrxy⟩
      · exact reserveLoop_stores room hxs hys

/-- **Whatever the file holds**, coordinates are stored at indices below `max` only. -/
theorem parseReserve_stores (max : Nat) : (parseReserve max).Always fun a => a.2.Within max := by
  refine ⟨fun _ => ⟨Nat.zero_le _, Nat.zero_le _⟩, fun event_id _ =>
    ⟨⟨Nat.zero_le _, Nat.zero_le _⟩, fun _ => ?_⟩⟩
  exact reserveLoop_stores max (by simp) (by simp)

theorem honoursMax_iff_ne (stack : Stack) (max : Nat) (o : ReserveOperands) (rest : Bytes) :
    HonoursMax stack max o rest ↔ o.coords.length ≠ max := by
  have hpos : 0 < o.coords.length := List.length_pos_iff.2 o.listed
  constructor
  · rintro ⟨k, r, rest', hrun, hall, -⟩ heq
    obtain ⟨r₀, rest₀, hfull⟩ := parseReserve_full stack o (Nat.le_of_eq heq.symm) rest
    obtain ⟨⟨rfl, rfl⟩, rfl⟩ : (0 = k ∧ r₀ = r) ∧ rest₀ = rest' := by
      simpa using hfull.symm.trans hrun
    have := (hall.2 (Nat.le_of_eq heq)).1
    omega
  · intro hne
    rcases Nat.lt_or_gt_of_ne hne with hlt | hgt
    · obtain ⟨r, hrun, hstored⟩ := parseReserve_fewer stack o hlt rest
      exact ⟨_, r, rest, hrun, iff_of_true ⟨rfl, hstored⟩ (Nat.le_of_lt hlt), fun h => by omega⟩
    · obtain ⟨r, rest', hrun⟩ := parseReserve_full stack o (Nat.le_of_lt hgt) rest
      exact ⟨0, r, rest', hrun, iff_of_false (fun h => by omega) (by omega), fun _ => rfl⟩

/-- **`parse_reserve` honours its maximum except when the list is exactly as long**, and never
    stores a coordinate outside the arrays. -/
theorem parseReserve_max (stack : Stack) (max : Nat) :
    (∀ (o : ReserveOperands) (rest : Bytes), HonoursMax stack max o rest ↔ o.coords.length ≠ max) ∧
      (parseReserve max).Always (fun a => a.2.Within max) ∧
      ∀ (bs : Bytes) (k : Nat) (r : Reservation) (rest : Bytes),
        ((parseReserve max).run stack).run bs = .ok ((k, r), rest) → r.Within max :=
  ⟨honoursMax_iff_ne stack max, parseReserve_stores max,
    fun _ _ _ _ hrun => (parseReserve_stores max).run hrun⟩

theorem number_one : Number (ascii "1") :=
  ⟨fun d hd => by rw [List.mem_singleton.1 hd]; rfl, by decide, by decide⟩

/-- One coordinate. -/
def oneCoord : ReserveOperands where
  event_id := ascii "1"
  coords := [(ascii "1", ascii "1")]
  number := number_one
  listed := List.cons_ne_nil _ _
  seats := fun c hc => by
    rw [List.mem_singleton.1 hc]
    exact ⟨number_one, number_one⟩

/-- One coordinate, with room for one. -/
theorem not_honoursMax_one : oneCoord.text = ascii "1 [(1,1)]\n" ∧
    ¬ HonoursMax (fun _ => .zero 16) 1 oneCoord [] :=
  ⟨rfl, fun h => (honoursMax_iff_ne _ 1 oneCoord []).1 h rfl⟩

end EventServer.Client
