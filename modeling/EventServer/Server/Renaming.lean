import EventServer.Lib.Runs
import EventServer.Server.Seats
import Mathlib.Algebra.Group.End

/-
  Reservations of one event in any order.

  Accepted reservations that share no seat are given different numbers in different orders, and
  that is all: `Renamed` says that two events differ by a renaming of the numbers given out since
  a third one. Two neighbouring reservations may be exchanged up to the transposition of their
  numbers, and every reservation keeps a renaming, so any order leaves the same seats taken
  (`renamed_of_perm`).
-/

namespace EventServer

open Lib

/-- `e'` is `e` with the numbers given out since `e₀` renamed by `ρ`. -/
structure RenamedBy (ρ : Equiv.Perm UInt32) (e₀ e e' : Entry) : Prop where
  ev : e'.ev = e.ev
  fixes : ∀ n, n ≤ e₀.ev.reservations ∨ e.ev.reservations < n → ρ n = n
  cells : ∀ i : Nat, e'.cells[i]? =
    (e.cells[i]?).map fun c => if e₀.cells[i]? = some 0 then ρ c else c

def Renamed (e₀ e e' : Entry) : Prop := ∃ ρ, RenamedBy ρ e₀ e e'

theorem renamed_refl (e₀ e : Entry) : Renamed e₀ e e :=
  ⟨1, rfl, fun _ _ => rfl, fun i => by simp⟩

theorem Renamed.trans {e₀ e e' e'' : Entry} (h : Renamed e₀ e e') (h' : Renamed e₀ e' e'') :
    Renamed e₀ e e'' := by
  obtain ⟨ρ, h⟩ := h
  obtain ⟨ρ', h'⟩ := h'
  refine ⟨ρ' * ρ, h'.ev.trans h.ev, fun n hn => ?_, fun i => ?_⟩
  · rw [Equiv.Perm.mul_apply, h.fixes n hn, h'.fixes n (h.ev ▸ hn)]
  · rw [h'.cells, h.cells, Option.map_map]
    refine congrArg (fun f => Option.map f _) (funext fun c => ?_)
    by_cases hfree : e₀.cells[i]? = some 0
    · simp [hfree]
    · simp [hfree]

/-- A renaming leaves the same cells free. -/
theorem Renamed.free_iff {e₀ e e' : Entry} (h : Renamed e₀ e e') (i : Nat) :
    e'.cells[i]? = some 0 ↔ e.cells[i]? = some 0 := by
  obtain ⟨ρ, h⟩ := h
  have hz : ρ 0 = 0 := h.fixes 0 (Or.inl (UInt32.le_iff_toNat_le.2 (Nat.zero_le _)))
  have hρ : ∀ c, ρ c = 0 ↔ c = 0 := fun c => by
    rw [← ρ.injective.eq_iff (a := c), hz]
  rw [h.cells, Option.map_eq_some_iff]
  constructor
  · rintro ⟨c, hc, hzero⟩
    split at hzero
    · rw [hc, (hρ c).1 hzero]
    · rw [hc, hzero]
  · intro hc
    exact ⟨0, hc, by rw [hz, ite_self]⟩

/-- Some listed seat has the cell `i`. -/
def Lists (event : Event) (seats : List Seat) (i : Nat) : Prop := ∃ s ∈ seats, seatAt event s = i

instance (event : Event) (seats : List Seat) (i : Nat) : Decidable (Lists event seats i) :=
  inferInstanceAs (Decidable (∃ s ∈ seats, _))

/-- The cells after a reservation, one by one. -/
theorem getElem?_reserved (e : Entry) (a : List Seat) (i : Nat) : (e.reserved a).cells[i]? =
    (e.cells[i]?).map fun c => if Lists e.ev a i then e.ev.reservations + 1 else c := by
  rw [Entry.reserved]
  rcases Nat.lt_or_ge i e.cells.length with hlt | hge
  · rw [getElem?_bookCells hlt, List.getElem?_eq_getElem hlt, Option.map_some]
    exact (apply_ite some _ _ _).symm
  · rw [List.getElem?_eq_none hge, List.getElem?_eq_none (by rwa [length_bookCells])]
    rfl

/-- The event, at most `n` reservations before its counter overflows, with only reservations
    since `e₀` in the cells that `e₀` has free. -/
structure Since (e₀ : Entry) (n : Nat) (e : Entry) : Prop where
  cols : e.ev.cols = e₀.ev.cols
  counter : e₀.ev.reservations ≤ e.ev.reservations
  room : e.ev.reservations.toNat + n < 2 ^ 32
  given : ∀ (i : Nat) c, e₀.cells[i]? = some 0 → e.cells[i]? = some c → c ≤ e.ev.reservations

section

variable {e₀ e e' : Entry} {n : Nat} {a b : List Seat}

theorem toNat_succ {n : UInt32} (h : n.toNat + 1 < 2 ^ 32) : (n + 1).toNat = n.toNat + 1 := by
  rw [UInt32.toNat_add, UInt32.toNat_one, Nat.mod_eq_of_lt h]

theorem Since.reserved (h : Since e₀ (n + 1) e) (a : List Seat) : Since e₀ n (e.reserved a) := by
  have hroom := h.room
  have hsucc := toNat_succ (n := e.ev.reservations) (by omega)
  have hle : e.ev.reservations ≤ e.ev.reservations + 1 :=
    UInt32.le_iff_toNat_le.2 (by rw [hsucc]; omega)
  refine ⟨h.cols, UInt32.le_trans h.counter hle, ?_, fun i c hi hc => ?_⟩
  · show (e.ev.reservations + 1).toNat + n < 2 ^ 32
    rw [hsucc]
    omega
  · rw [getElem?_reserved, Option.map_eq_some_iff] at hc
    obtain ⟨c', hc', rfl⟩ := hc
    show _ ≤ e.ev.reservations + 1
    split
    · exact UInt32.le_refl _
    · exact UInt32.le_trans (h.given i c' hi hc') hle

/-- A reservation keeps a renaming: its own number is new. -/
theorem Renamed.reserved (hs : Since e₀ (n + 1) e) (h : Renamed e₀ e e') (a : List Seat) :
    Renamed e₀ (e.reserved a) (e'.reserved a) := by
  obtain ⟨ρ, h⟩ := h
  have hroom := hs.room
  have hlt : e.ev.reservations < e.ev.reservations + 1 :=
    UInt32.lt_iff_toNat_lt.2 (by rw [toNat_succ (by omega)]; omega)
  refine ⟨ρ, ?_, fun n hn => h.fixes n (hn.imp_right fun hn => UInt32.lt_trans hlt hn),
    fun i => ?_⟩
  · rw [Entry.reserved, Entry.reserved, h.ev]
  · rw [getElem?_reserved, getElem?_reserved, h.ev, h.cells, Option.map_map, Option.map_map]
    refine congrArg (fun f => Option.map f _) (funext fun c => ?_)
    simp only [Function.comp]
    split
    · rw [h.fixes _ (Or.inr hlt), ite_self]
    · rfl

/-! ## Exchanging two reservations -/

variable (hfit : NoWrap e₀.ev.rows e₀.ev.cols)
  (hsize : e₀.cells.length = (e₀.ev.rows * e₀.ev.cols).toNat)

include hfit

theorem Lists.disjoint {i : Nat} (ha : Accepts e₀ a) (hb : Accepts e₀ b) (hd : a.Disjoint b)
    (h : Lists e₀.ev a i) : ¬ Lists e₀.ev b i := by
  obtain ⟨s, hs, hi⟩ := h
  rintro ⟨s', hs', hi'⟩
  obtain rfl := seatAt_inj hfit (ha.1 s hs) (hb.1 s' hs') (hi.trans hi'.symm)
  exact hd hs hs'

/-- A reservation takes no seat from one that shares none with it. -/
theorem accepts_reserved_iff (ha : Accepts e₀ a) (hd : a.Disjoint b) :
    Accepts (e₀.reserved a) b ↔ Accepts e₀ b := by
  refine and_congr_right fun hb => forall₂_congr fun s hs => ?_
  have hin : InBounds e₀.ev s := hb s hs
  have hcell : (e₀.reserved a).cells[seatAt e₀.ev s]? = e₀.cells[seatAt e₀.ev s]? := by
    rw [getElem?_reserved]
    refine (Option.map_congr fun c _ => if_neg ?_).trans Option.map_id_apply
    rintro ⟨s', hs', hi⟩
    obtain rfl := seatAt_inj hfit (ha.1 s' hs') hin hi
    exact hd hs' hs
  rw [Free, Free, ← hcell]
  rfl

include hsize

theorem Lists.free {i : Nat} (ha : Accepts e₀ a) (h : Lists e₀.ev a i) :
    e₀.cells[i]? = some 0 := by
  obtain ⟨s, hs, rfl⟩ := h
  have hlt : seatAt e₀.ev s < e₀.cells.length := hsize ▸ seatAt_lt hfit (ha.1 s hs)
  have hfree := ha.2 s hs
  rw [Free, List.getElem?_eq_getElem hlt, Option.getD_some] at hfree
  rw [List.getElem?_eq_getElem hlt, hfree]

/-- **Two reservations that share no seat**: exchanging them transposes their numbers. -/
theorem renamed_swap (hs : Since e₀ (n + 2) e) (ha : Accepts e₀ a) (hb : Accepts e₀ b)
    (hd : a.Disjoint b) :
    Renamed e₀ ((e.reserved a).reserved b) ((e.reserved b).reserved a) := by
  have hroom := hs.room
  have hcounter := UInt32.le_iff_toNat_le.1 hs.counter
  have h₁ := toNat_succ (n := e.ev.reservations) (by omega)
  have h₂ := toNat_succ (n := e.ev.reservations + 1) (by omega)
  refine ⟨Equiv.swap (e.ev.reservations + 1) (e.ev.reservations + 1 + 1), rfl, fun k hk => ?_,
    fun i => ?_⟩
  · -- numbers given out before or after these two
    have hk' : k.toNat ≤ e.ev.reservations.toNat ∨ e.ev.reservations.toNat + 2 < k.toNat := by
      rcases hk with hk | hk
      · exact Or.inl (Nat.le_trans (UInt32.le_iff_toNat_le.1 hk) hcounter)
      · have hlt : (e.ev.reservations + 1 + 1).toNat < k.toNat := UInt32.lt_iff_toNat_lt.1 hk
        exact Or.inr (by omega)
    refine Equiv.swap_apply_of_ne_of_ne (fun heq => ?_) (fun heq => ?_)
    · rw [heq, h₁] at hk'
      omega
    · rw [heq, h₂, h₁] at hk'
      omega
  · have hlists : ∀ x : Entry, x.ev.cols = e₀.ev.cols → ∀ seats,
        Lists x.ev seats i ↔ Lists e₀.ev seats i := fun x hcols seats => by
      simp only [Lists, seatAt, seatIndex, hcols]
    have hnum : ∀ seats, (e.reserved seats).ev.reservations = e.ev.reservations + 1 := fun _ => rfl
    rw [getElem?_reserved, getElem?_reserved, getElem?_reserved, getElem?_reserved, Option.map_map,
      Option.map_map, Option.map_map]
    refine Option.map_congr fun c hc => ?_
    simp only [Function.comp, hlists e hs.cols, hlists (e.reserved a) hs.cols,
      hlists (e.reserved b) hs.cols, hnum]
    by_cases hia : Lists e₀.ev a i
    · have hib : ¬ Lists e₀.ev b i := hia.disjoint hfit ha hb hd
      rw [if_pos hia, if_neg hib, if_pos (hia.free hfit hsize ha), if_pos hia,
        Equiv.swap_apply_left]
    · rw [if_neg hia, if_neg hia]
      by_cases hib : Lists e₀.ev b i
      · rw [if_pos hib, if_pos hib, if_pos (hib.free hfit hsize hb), Equiv.swap_apply_right]
      · rw [if_neg hib, if_neg hib]
        split
        · next hfree =>
          have hle := UInt32.le_iff_toNat_le.1 (hs.given i c hfree hc)
          refine (Equiv.swap_apply_of_ne_of_ne (fun heq => ?_) (fun heq => ?_)).symm
          · rw [heq, h₁] at hle
            omega
          · rw [heq, h₂, h₁] at hle
            omega
        · rfl

/-- **Any order of reservations** that share no seat leaves the same cells, up to a renaming of
    the numbers given out. -/
theorem renamed_of_perm {as bs : List (List Seat)} (hp : as.Perm bs) (hacc : ∀ a ∈ as, Accepts e₀ a)
    (hd : as.Pairwise List.Disjoint) (hroom : e₀.ev.reservations.toNat + as.length < 2 ^ 32) :
    Renamed e₀ (as.foldl Entry.reserved e₀) (bs.foldl Entry.reserved e₀) := by
  refine foldl_perm (I := Since e₀) (A := Accepts e₀) (D := List.Disjoint) (renamed_refl e₀)
    (fun _ _ _ => Renamed.trans) (fun _ _ => List.disjoint_symm) (fun _ _ a _ hs => hs.reserved a)
    (fun _ _ _ a _ hs h => h.reserved hs a)
    (fun _ _ _ _ ha hb hd hs => renamed_swap hfit hsize hs ha hb hd) hp hacc hd ?_
  refine ⟨rfl, UInt32.le_refl _, hroom, fun i c hi hc => ?_⟩
  obtain rfl := Option.some.inj (hi.symm.trans hc)
  exact UInt32.le_iff_toNat_le.2 (Nat.zero_le _)

end

end EventServer
