import EventServer.Client.Calls
import EventServer.Client.Commands

/-
  The calls that the client's parser gives.

  `Format.Yields P`: whatever is read, the result has `P`. With it every call of the command loop
  is one that both sides can handle (`nextDirective_issues`): its arrays hold the seats it announces,
  at most as many as the server has room for, and the size of a new event fits `size_t`.
-/

namespace EventServer.Client

open Lib

/-- Every result of the format has `P`. -/
def Format.Yields {α : Type} (P : α → Prop) : Format α → Prop
  | .done a => P a
  | .reject a => P a
  | .uint _ failed next => (∀ v, P (failed v)) ∧ ∀ v ch, (next v ch).Yields P
  | .char _ failed next => P failed ∧ ∀ ch, (next ch).Yields P

section Yields

variable {α β : Type} {P : α → Prop} {stack : Stack}

theorem Format.Yields.run {f : Format α} (hf : f.Yields P) {bs rest : Bytes} {a : α}
    (h : (f.run stack).run bs = .ok (a, rest)) : P a := by
  induction f generalizing bs with
  | done a' =>
    cases h
    exact hf
  | reject a' =>
    cases h
    exact hf
  | uint ends failed next ih =>
    rw [run_uint] at h
    rcases hparse : (parseUint stack).run bs with e | ⟨⟨_ | v, ch⟩, rest'⟩ <;> rw [hparse] at h
    · cases h
    · cases h
      exact hf.1 none
    · by_cases hin : ch ∈ ends
      · simp only [hin, if_true] at h
        exact ih v ch (hf.2 v ch) h
      · simp only [hin, if_false] at h
        cases h
        exact hf.1 (some v)
  | char ok failed next ih =>
    cases bs with
    | nil =>
      rw [run_char_nil] at h
      cases h
      exact hf.1
    | cons ch bs =>
      rw [run_char_cons] at h
      by_cases hin : ch ∈ ok
      · simp only [hin, if_true] at h
        exact ih ch (hf.2 ch) h
      · simp only [hin, if_false] at h
        cases h
        exact hf.1

theorem Format.Yields.map {g : α → β} {P : β → Prop} {f : Format α}
    (h : f.Yields fun a => P (g a)) : (f.map g).Yields P := by
  induction f with
  | done a => exact h
  | reject a => exact h
  | uint ends failed next ih => exact ⟨h.1, fun v ch => ih v ch (h.2 v ch)⟩
  | char ok failed next ih => exact ⟨h.1, fun ch => ih ch (h.2 ch)⟩

theorem Format.Yields.mono {Q : α → Prop} (h : ∀ a, P a → Q a) {f : Format α} (hf : f.Yields P) :
    f.Yields Q := by
  induction f with
  | done a => exact h a hf
  | reject a => exact h a hf
  | uint ends failed next ih => exact ⟨fun v => h _ (hf.1 v), fun v ch => ih v ch (hf.2 v ch)⟩
  | char ok failed next ih => exact ⟨h _ hf.1, fun ch => ih ch (hf.2 ch)⟩

theorem Format.yields_of_all (h : ∀ a, P a) (f : Format α) : f.Yields P := by
  induction f with
  | done a => exact h a
  | reject a => exact h a
  | uint ends failed next ih => exact ⟨fun v => h _, ih⟩
  | char ok failed next ih => exact ⟨h _, ih⟩

end Yields

/-! ## The parsers -/

/-- Both sides can handle the call. -/
structure Issuable (c : Call) : Prop where
  valid : c.Valid
  small : c.Small
  fits : c.Fits

/-- The calls of a directive can be handled. -/
def Directive.Issues (d : Directive) : Prop := ∀ c ∈ d.calls, Issuable c

theorem issues_of_none {d : Directive} (h : d.calls = []) : d.Issues :=
  fun _ hc => absurd (h ▸ hc) List.not_mem_nil

theorem issues_of_one {c : Call} (h : Issuable c) : (Directive.call c).Issues := by
  intro c' hc
  obtain rfl := List.mem_singleton.1 hc
  exact h

/-- Two 32-bit numbers have a 64-bit product. -/
theorem noWrap_of_uint (rows cols : UInt32) : NoWrap rows.toUInt64 cols.toUInt64 := by
  show rows.toUInt64.toNat * cols.toUInt64.toNat < 2 ^ 64
  rw [UInt32.toNat_toUInt64, UInt32.toNat_toUInt64]
  calc rows.toNat * cols.toNat < 2 ^ 32 * 2 ^ 32 := Nat.mul_lt_mul'' rows.toNat_lt cols.toNat_lt
    _ = 2 ^ 64 := by norm_num

/-- What `parse_reserve` has stored, and how many coordinates it returns. -/
def Stored (r : Nat × Reservation) : Prop :=
  r.1 = 0 ∨ r.1 = r.2.xs.length ∧ r.1 = r.2.ys.length ∧ r.1 ≤ MAX_RESERVATION_SIZE

theorem reserveLoop_yields : ∀ (room : Nat) (r : Reservation), r.xs.length = r.ys.length →
    r.xs.length + room ≤ MAX_RESERVATION_SIZE → (reserveLoop room r).Yields Stored
  | 0, r, _, _ => Or.inl rfl
  | room + 1, r, hlen, hroom => by
      refine ⟨Or.inl rfl, fun _ => ⟨fun _ => Or.inl rfl, fun x _ => ⟨fun _ => Or.inl rfl, fun y _ =>
        ⟨Or.inl rfl, fun ch => ?_⟩⟩⟩⟩
      dsimp only
      by_cases hch : ch = ']'.toUInt8
      · rw [if_pos hch]
        by_cases hlast : room = 0
        · rw [if_pos hlast]
          exact Or.inl rfl
        · rw [if_neg hlast]
          refine ⟨Or.inl rfl, fun _ => Or.inr ⟨rfl, ?_, ?_⟩⟩
          · simp [hlen]
          · simp only [List.length_append, List.length_singleton]
            omega
      · rw [if_neg hch]
        refine reserveLoop_yields room _ ?_ ?_
        · simp [hlen]
        · simp only [List.length_append, List.length_singleton]
          omega

theorem reserveDirective_issues (r : Nat × Reservation) (h : Stored r) :
    (reserveDirective r).Issues := by
  obtain ⟨num_coords, r⟩ := r
  unfold reserveDirective
  dsimp only
  by_cases hnum : num_coords = 0
  · rw [if_pos hnum]
    exact issues_of_none rfl
  · rw [if_neg hnum]
    obtain ⟨hxs, hys, hmax⟩ := h.resolve_left hnum
    have hsize : (UInt64.ofNat num_coords).toNat = num_coords := by
      have hlt : num_coords < 2 ^ 64 := Nat.lt_of_le_of_lt hmax (by decide)
      rw [UInt64.toNat_ofNat', Nat.mod_eq_of_lt hlt]
    exact issues_of_one ⟨⟨hsize.trans_le (Nat.le_of_eq hxs), hsize.trans_le (Nat.le_of_eq hys)⟩,
      hsize.trans_le hmax, trivial⟩

theorem operands_issues (cmd : Command) : (operands cmd).Yields Directive.Issues := by
  cases cmd with
  | cmdCreate =>
    apply Format.Yields.map
    refine ⟨fun _ => issues_of_none rfl, fun id _ => ⟨fun _ => issues_of_none rfl, fun rows _ =>
      ⟨fun _ => issues_of_none rfl, fun cols _ => ?_⟩⟩⟩
    exact issues_of_one ⟨trivial, trivial, noWrap_of_uint rows cols⟩
  | cmdReserve =>
    apply Format.Yields.map
    have hloop := fun id : UInt32 =>
      reserveLoop_yields MAX_RESERVATION_SIZE { event_id := some id } rfl (Nat.le_refl _)
    exact ⟨fun _ => issues_of_none rfl, fun id _ => ⟨issues_of_none rfl, fun _ =>
      (hloop id).mono reserveDirective_issues⟩⟩
  | cmdShow =>
    apply Format.Yields.map
    exact ⟨fun _ => issues_of_none rfl, fun id _ => issues_of_one ⟨trivial, trivial, trivial⟩⟩
  | cmdListEvents => exact issues_of_one ⟨trivial, trivial, trivial⟩
  | cmdWait =>
    apply Format.Yields.map
    refine Format.yields_of_all (fun r => issues_of_none ?_) _
    unfold waitDirective
    dsimp only
    split <;> rfl
  | cmdInvalid | cmdHelp | cmdEmpty | eoc => exact issues_of_none rfl

/-- **The parser gives calls that both sides can handle.** -/
theorem nextDirective_issues {stack : Stack} {bs rest : Bytes} {d : Directive}
    (h : (nextDirective stack).run bs = .ok (d, rest)) : d.Issues := by
  unfold nextDirective at h
  rw [StateT.run_bind] at h
  cases hnext : getNext.run bs with
  | error e =>
    rw [hnext] at h
    cases h
  | ok r =>
    rw [hnext] at h
    exact (operands_issues r.1).run h

end EventServer.Client
