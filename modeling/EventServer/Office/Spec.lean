import Mathlib.Data.Finset.Prod
import Mathlib.Order.Interval.Finset.Nat
import EventServer.Lib.Allotment

/-
  What the server is for: a box office.

  A `Venue` is a hall with seats in rows and columns and the reservations so far, which are
  disjoint sets of its seats; an `Office` is a list of venues with different ids, in the order in
  which they were created. `Office.serve` answers a request and says what the office is after it. It
  knows nothing of memory, locks, machine integers or bytes. An office only grows
  (`serve_le`): venues are added at the end, reservations are added at the end, nothing is
  taken back.
-/

namespace EventServer

open Lib

/-- The seats of a hall: rows and columns count from 1. -/
def hall (rows cols : ℕ) : Finset (ℕ × ℕ) := Finset.Icc 1 rows ×ˢ Finset.Icc 1 cols

theorem mem_hall {rows cols : ℕ} {s : ℕ × ℕ} :
    s ∈ hall rows cols ↔ (1 ≤ s.1 ∧ s.1 ≤ rows) ∧ 1 ≤ s.2 ∧ s.2 ≤ cols := by
  rw [hall, Finset.mem_product, Finset.mem_Icc, Finset.mem_Icc]

theorem card_hall (rows cols : ℕ) : (hall rows cols).card = rows * cols := by
  rw [hall, Finset.card_product, Nat.card_Icc, Nat.card_Icc, Nat.add_sub_cancel, Nat.add_sub_cancel]

/-- A hall and its reservations. -/
structure Venue where
  rows : ℕ
  cols : ℕ
  booked : Allotment (hall rows cols)

namespace Venue

/-- A hall without reservations. -/
def new (rows cols : ℕ) : Venue := ⟨rows, cols, .empty _⟩

/-- The number of the reservation that has the seat; 0 if it is free. -/
def owner (v : Venue) (s : ℕ × ℕ) : ℕ := v.booked.owner s

def book (v : Venue) (seats : Finset (ℕ × ℕ)) (h : seats ⊆ v.booked.free) : Venue :=
  ⟨v.rows, v.cols, v.booked.grant seats h⟩

/-- The same hall, with all the reservations there were, and perhaps more. -/
instance : Preorder Venue where
  le v v' := v.rows = v'.rows ∧ v.cols = v'.cols ∧ v.booked.shares <+: v'.booked.shares
  le_refl v := ⟨rfl, rfl, List.prefix_refl _⟩
  le_trans _ _ _ h h' := ⟨h.1.trans h'.1, h.2.1.trans h'.2.1, h.2.2.trans h'.2.2⟩

theorem le_book {v : Venue} {seats : Finset (ℕ × ℕ)} (h : seats ⊆ v.booked.free) :
    v ≤ v.book seats h :=
  ⟨rfl, rfl, Allotment.le_grant h⟩

/-- A seat that is taken stays with its reservation. -/
theorem owner_mono {v v' : Venue} (h : v ≤ v') {s : ℕ × ℕ} (hs : v.owner s ≠ 0) :
    v'.owner s = v.owner s := by
  obtain ⟨rows, cols, booked⟩ := v
  obtain ⟨rows', cols', booked'⟩ := v'
  obtain ⟨rfl, rfl, hshares⟩ : rows = rows' ∧ cols = cols' ∧ booked.shares <+: booked'.shares := h
  exact Allotment.owner_mono hshares hs

end Venue

/-- The venues, by their ids, in the order of their creation. -/
structure Office where
  venues : List (ℕ × Venue)
  distinct : (venues.map Prod.fst).Nodup

inductive Ask where
  | create (id rows cols : ℕ)
  | reserve (id : ℕ) (seats : Finset (ℕ × ℕ))
  | display (id : ℕ)
  | list

inductive Reply where
  | done
  | refused
  | venue (v : Venue)
  | events (ids : List ℕ)

/-- The venue with the given id. -/
def findVenue (venues : List (ℕ × Venue)) (id : ℕ) : Option Venue :=
  (venues.find? fun x => x.1 = id).map Prod.snd

theorem findVenue_cons (x : ℕ × Venue) (venues : List (ℕ × Venue)) (id : ℕ) :
    findVenue (x :: venues) id = if x.1 = id then some x.2 else findVenue venues id := by
  by_cases hx : x.1 = id <;> simp [findVenue, hx]

theorem findVenue_eq_none {venues : List (ℕ × Venue)} {id : ℕ} :
    findVenue venues id = none ↔ id ∉ venues.map Prod.fst := by
  induction venues with
  | nil => simp [findVenue]
  | cons x venues ih =>
    rw [findVenue_cons, List.map_cons, List.mem_cons, not_or, ← ih]
    by_cases hx : x.1 = id
    · simp [hx]
    · simp [hx, Ne.symm hx]

theorem findVenue_snoc (venues : List (ℕ × Venue)) (x : ℕ × Venue) (id : ℕ) :
    findVenue (venues ++ [x]) id =
      (findVenue venues id).or (if x.1 = id then some x.2 else none) := by
  induction venues with
  | nil => exact findVenue_cons x [] id
  | cons y venues ih =>
    rw [List.cons_append, findVenue_cons, findVenue_cons, ih]
    by_cases hy : y.1 = id <;> simp [hy]

/-- The venues with another one in the place of the one with its id. -/
def putVenue (venues : List (ℕ × Venue)) (id : ℕ) (v : Venue) : List (ℕ × Venue) :=
  venues.map fun x => if x.1 = id then (id, v) else x

theorem putVenue_ids (venues : List (ℕ × Venue)) (id : ℕ) (v : Venue) :
    (putVenue venues id v).map Prod.fst = venues.map Prod.fst := by
  rw [putVenue, List.map_map]
  refine List.map_congr_left fun x _ => ?_
  by_cases hx : x.1 = id <;> simp [hx]

theorem findVenue_put (venues : List (ℕ × Venue)) (id id' : ℕ) (v : Venue) :
    findVenue (putVenue venues id v) id' =
      (findVenue venues id').map fun w => if id' = id then v else w := by
  induction venues with
  | nil => rfl
  | cons x venues ih =>
    rw [putVenue, List.map_cons, findVenue_cons, findVenue_cons]
    refine Eq.trans (if_congr Iff.rfl rfl ih) ?_
    by_cases hx : x.1 = id
    · by_cases hid : id = id'
      · simp [hx, hid]
      · simp [hx, hid]
    · by_cases hid : x.1 = id'
      · have hne : id' ≠ id := fun h => hx (hid.trans h)
        simp [hid, hne]
      · simp [hx, hid]

namespace Office

variable {o o' : Office}

def empty : Office := ⟨[], List.nodup_nil⟩

def ids (o : Office) : List ℕ := o.venues.map Prod.fst

def find (o : Office) (id : ℕ) : Option Venue := findVenue o.venues id

/-- The office with a new venue. -/
def add (o : Office) (id : ℕ) (v : Venue) (h : o.find id = none) : Office where
  venues := o.venues ++ [(id, v)]
  distinct := by
    rw [List.map_append]
    refine List.nodup_append.2 ⟨o.distinct, List.nodup_singleton _, fun a ha b hb heq => ?_⟩
    obtain rfl : b = id := List.mem_singleton.1 hb
    exact findVenue_eq_none.1 h (heq ▸ ha)

def put (o : Office) (id : ℕ) (v : Venue) : Office :=
  ⟨putVenue o.venues id v, by rw [putVenue_ids]; exact o.distinct⟩

theorem find_add {id : ℕ} (h : o.find id = none) (v : Venue) (id' : ℕ) :
    (o.add id v h).find id' = if id' = id then some v else o.find id' := by
  refine (findVenue_snoc o.venues (id, v) id').trans ?_
  by_cases hid : id' = id
  · subst hid
    have hnone : findVenue o.venues id' = none := h
    simp [hnone]
  · simp [hid, Ne.symm hid, find]

theorem find_put {id : ℕ} {w : Venue} (h : o.find id = some w) (v : Venue) (id' : ℕ) :
    (o.put id v).find id' = if id' = id then some v else o.find id' := by
  refine (findVenue_put o.venues id id' v).trans ?_
  by_cases hid : id' = id
  · subst hid
    have hsome : findVenue o.venues id' = some w := h
    simp [hsome]
  · simp [hid, find]

/-- The answer to a request, and the office after it. -/
def serve (o : Office) : Ask → Reply × Office
  | .create id rows cols =>
    if h : o.find id = none then (.done, o.add id (.new rows cols) h) else (.refused, o)
  | .reserve id seats =>
    match o.find id with
    | none => (.refused, o)
    | some v =>
      if h : seats ⊆ v.booked.free then (.done, o.put id (v.book seats h)) else (.refused, o)
  | .display id =>
    match o.find id with
    | none => (.refused, o)
    | some v => (.venue v, o)
  | .list => (.events o.ids, o)

theorem serve_create {id : ℕ} (rows cols : ℕ) (h : o.find id = none) :
    o.serve (.create id rows cols) = (.done, o.add id (.new rows cols) h) := dif_pos h

theorem serve_reserve {id : ℕ} {v : Venue} {seats : Finset (ℕ × ℕ)} (hv : o.find id = some v)
    (h : seats ⊆ v.booked.free) :
    o.serve (.reserve id seats) = (.done, o.put id (v.book seats h)) := by
  simp only [serve, hv]
  exact dif_pos h

/-- A reservation is accepted or refused. -/
theorem serve_reserve_reply (o : Office) (id : ℕ) (seats : Finset (ℕ × ℕ)) :
    (o.serve (.reserve id seats)).1 = .done ∨ (o.serve (.reserve id seats)).1 = .refused := by
  cases hv : o.find id with
  | none => exact Or.inr (by simp only [serve, hv])
  | some v =>
    by_cases h : seats ⊆ v.booked.free
    · exact Or.inl (by rw [serve_reserve hv h])
    · refine Or.inr ?_
      simp only [serve, hv]
      rw [dif_neg h]

/-- The seats that a request has booked in the venue with the given id. -/
def bookedIn (id : ℕ) : Ask → Reply → Option (Finset (ℕ × ℕ))
  | .reserve id' seats, .done => if id' = id then some seats else none
  | _, _ => none

/-- What a request can do: nothing, or add a venue, or book seats. -/
theorem serve_cases (o : Office) (ask : Ask) :
    (o.serve ask).2 = o ∧ (∀ id, bookedIn id ask (o.serve ask).1 = none) ∨
    (∃ id rows cols h, ask = .create id rows cols ∧
      o.serve ask = (.done, o.add id (.new rows cols) h)) ∨
    ∃ id seats v h, ask = .reserve id seats ∧ o.find id = some v ∧
      o.serve ask = (.done, o.put id (v.book seats h)) := by
  have hrefused : o.serve ask = (.refused, o) →
      (o.serve ask).2 = o ∧ ∀ id, bookedIn id ask (o.serve ask).1 = none := fun h => by
    rw [h]
    exact ⟨rfl, fun id => by cases ask <;> rfl⟩
  cases ask with
  | create id rows cols =>
    by_cases h : o.find id = none
    · exact Or.inr (Or.inl ⟨id, rows, cols, h, rfl, serve_create rows cols h⟩)
    · exact Or.inl (hrefused (dif_neg h))
  | reserve id seats =>
    cases hv : o.find id with
    | none => exact Or.inl (hrefused (by simp only [serve, hv]))
    | some v =>
      by_cases h : seats ⊆ v.booked.free
      · exact Or.inr (Or.inr ⟨id, seats, v, h, rfl, hv, serve_reserve hv h⟩)
      · refine Or.inl (hrefused ?_)
        simp only [serve, hv]
        exact dif_neg h
  | display id =>
    cases hv : o.find id with
    | none => exact Or.inl (hrefused (by simp only [serve, hv]))
    | some v =>
      have hserve : o.serve (.display id) = (.venue v, o) := by simp only [serve, hv]
      rw [hserve]
      exact Or.inl ⟨rfl, fun _ => rfl⟩
  | list => exact Or.inl ⟨rfl, fun _ => rfl⟩

/-! ## An office only grows -/

/-- The same ids, and each venue with the reservations there were. -/
abbrev Keeps : List (ℕ × Venue) → List (ℕ × Venue) → Prop :=
  List.Forall₂ fun x y => x.1 = y.1 ∧ x.2 ≤ y.2

theorem keeps_refl (venues : List (ℕ × Venue)) : Keeps venues venues :=
  List.forall₂_same.2 fun _ _ => ⟨rfl, le_refl _⟩

theorem Keeps.trans {vs₁ vs₂ vs₃ : List (ℕ × Venue)} (h : Keeps vs₁ vs₂) (h' : Keeps vs₂ vs₃) :
    Keeps vs₁ vs₃ := by
  induction h generalizing vs₃ with
  | nil =>
    cases h'
    exact .nil
  | cons hxy _ ih =>
    cases h' with
    | cons hyz hrest => exact .cons ⟨hxy.1.trans hyz.1, le_trans hxy.2 hyz.2⟩ (ih hrest)

theorem Keeps.ids {vs vs' : List (ℕ × Venue)} (h : Keeps vs vs') :
    vs.map Prod.fst = vs'.map Prod.fst := by
  induction h with
  | nil => rfl
  | cons hxy _ ih => rw [List.map_cons, List.map_cons, hxy.1, ih]

theorem Keeps.mem {vs vs' : List (ℕ × Venue)} (h : Keeps vs vs') {x : ℕ × Venue} (hx : x ∈ vs) :
    ∃ y ∈ vs', x.1 = y.1 ∧ x.2 ≤ y.2 := by
  induction h with
  | nil => simp at hx
  | cons hxy _ ih =>
    rcases List.mem_cons.1 hx with rfl | hx
    · exact ⟨_, List.mem_cons_self .., hxy⟩
    · obtain ⟨y, hy, hle⟩ := ih hx
      exact ⟨y, List.mem_cons_of_mem _ hy, hle⟩

instance : Preorder Office where
  le o o' := ∃ pre post, o'.venues = pre ++ post ∧ Keeps o.venues pre
  le_refl o := ⟨o.venues, [], by simp, keeps_refl _⟩
  le_trans o₁ o₂ o₃ h h' := by
    obtain ⟨pre, post, heq, hpre⟩ := h
    obtain ⟨pre', post', heq', hpre'⟩ := h'
    rw [heq] at hpre'
    have htake := List.forall₂_take pre.length hpre'
    rw [List.take_left] at htake
    refine ⟨pre'.take pre.length, pre'.drop pre.length ++ post', ?_, hpre.trans htake⟩
    rw [heq', ← List.append_assoc, List.take_append_drop]

theorem le_add {id : ℕ} {v : Venue} (h : o.find id = none) : o ≤ o.add id v h :=
  ⟨o.venues, [(id, v)], rfl, keeps_refl _⟩

theorem find_eq_some {id : ℕ} {v : Venue} (h : o.find id = some v) : (id, v) ∈ o.venues := by
  obtain ⟨x, hx, rfl⟩ := Option.map_eq_some_iff.1 h
  have hid : x.1 = id := by simpa using List.find?_some hx
  exact hid ▸ List.mem_of_find?_eq_some hx

/-- Different venues have different ids. -/
theorem find_of_mem {x : ℕ × Venue} (hx : x ∈ o.venues) : o.find x.1 = some x.2 := by
  cases hf : o.find x.1 with
  | none => exact absurd (List.mem_map_of_mem hx) (findVenue_eq_none.1 hf)
  | some v =>
    have heq := List.inj_on_of_nodup_map o.distinct (find_eq_some hf) hx rfl
    exact congrArg (fun y => some y.2) heq

theorem le_put {id : ℕ} {v v' : Venue} (h : o.find id = some v) (hv : v ≤ v') : o ≤ o.put id v' := by
  refine ⟨putVenue o.venues id v', [], by simp [put], ?_⟩
  rw [putVenue, Keeps, List.forall₂_map_right_iff, List.forall₂_same]
  intro x hx
  by_cases hid : x.1 = id
  · have hxv : x.2 = v := Option.some.inj ((find_of_mem hx).symm.trans (hid ▸ h))
    rw [if_pos hid]
    exact ⟨hid, hxv ▸ hv⟩
  · rw [if_neg hid]
    exact ⟨rfl, le_refl _⟩

/-- **Nothing is taken back.** -/
theorem serve_le (o : Office) (ask : Ask) : o ≤ (o.serve ask).2 := by
  obtain ⟨h, -⟩ | ⟨id, rows, cols, hnew, -, h⟩ | ⟨id, seats, v, hfree, -, hv, h⟩ := o.serve_cases ask
  · rw [h]
  · rw [h]
    exact le_add hnew
  · rw [h]
    exact le_put hv (Venue.le_book hfree)

theorem ids_mono (h : o ≤ o') : o.ids <+: o'.ids := by
  obtain ⟨pre, post, heq, hpre⟩ := h
  refine ⟨post.map Prod.fst, ?_⟩
  rw [ids, ids, heq, List.map_append, hpre.ids]

theorem find_mono (h : o ≤ o') {id : ℕ} {v : Venue} (hv : o.find id = some v) :
    ∃ v', o'.find id = some v' ∧ v ≤ v' := by
  obtain ⟨pre, post, heq, hpre⟩ := h
  obtain ⟨y, hy, hid, hle⟩ := hpre.mem (find_eq_some hv)
  have hmem : y ∈ o'.venues := by
    rw [heq]
    exact List.mem_append_left _ hy
  obtain rfl : id = y.1 := hid
  exact ⟨y.2, find_of_mem hmem, hle⟩

/-! ## The reservations of a venue -/

def shares (o : Office) (id : ℕ) : List (Finset (ℕ × ℕ)) :=
  (o.find id).elim [] fun v => v.booked.shares

/-- Only a reservation that goes through makes one more. -/
theorem shares_serve (o : Office) (ask : Ask) (id : ℕ) :
    (o.serve ask).2.shares id = o.shares id ++ (bookedIn id ask (o.serve ask).1).toList := by
  obtain ⟨h, hnone⟩ | ⟨id', rows, cols, hnew, rfl, h⟩ | ⟨id', seats, v, hfree, rfl, hv, h⟩ :=
    o.serve_cases ask
  · rw [h, hnone]
    exact (List.append_nil _).symm
  · rw [h]
    simp only [shares, find_add hnew, bookedIn]
    by_cases hid : id = id'
    · subst hid
      rw [if_pos rfl, hnew]
      rfl
    · rw [if_neg hid]
      exact (List.append_nil _).symm
  · rw [h]
    simp only [shares, find_put hv, bookedIn]
    by_cases hid : id = id'
    · subst hid
      rw [if_pos rfl, if_pos rfl, hv]
      rfl
    · rw [if_neg hid, if_neg (Ne.symm hid)]
      exact (List.append_nil _).symm

end Office

end EventServer
