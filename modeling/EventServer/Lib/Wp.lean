import Mathlib.Control.Basic

/-
  Weakest preconditions for programs that carry a state and may fault.

  A program is `StateT σ (Except ε) α`. `wp x Q E s` says what a run of `x` from `s` gives:
  `Q` of the result and the state after it, or `E` of the fault. `E := fun _ => False` is
  total correctness (no fault), `E := fun _ => True` is partial correctness. The rules are
  equations, so `simp` turns the `wp` of a straight-line program into a statement about its
  states; `wp_mono` is the rule a caller uses with the specification of a callee.
-/

namespace Lib

variable {σ ε α β : Type}

/-- `Q` holds of what `x` returns from `s`, or `E` of the fault it stops with. -/
def wp (x : StateT σ (Except ε) α) (Q : α → σ → Prop) (E : ε → Prop) (s : σ) : Prop :=
  match x.run s with
  | .ok (a, s') => Q a s'
  | .error e => E e

section Rules

variable {Q Q' : α → σ → Prop} {E E' : ε → Prop} {s : σ}

theorem wp_of_run_ok {x : StateT σ (Except ε) α} {a : α} {s' : σ} (h : x.run s = .ok (a, s')) :
    wp x Q E s ↔ Q a s' := by
  simp [wp, h]

theorem wp_of_run_error {x : StateT σ (Except ε) α} {e : ε} (h : x.run s = .error e) :
    wp x Q E s ↔ E e := by
  simp [wp, h]

/-- Only the run matters. -/
theorem wp_of_run_eq {x y : StateT σ (Except ε) α} {s' : σ} (h : x.run s = y.run s') :
    wp x Q E s ↔ wp y Q E s' := by
  rw [wp, wp, h]

theorem wp_mono {x : StateT σ (Except ε) α} (h : wp x Q E s) (hQ : ∀ a s', Q a s' → Q' a s')
    (hE : ∀ e, E e → E' e) : wp x Q' E' s := by
  unfold wp at h ⊢
  split at h
  · exact hQ _ _ h
  · exact hE _ h

theorem wp_trivial (x : StateT σ (Except ε) α) : wp x (fun _ _ => True) (fun _ => True) s := by
  unfold wp
  split <;> trivial

/-- Total correctness gives the run itself. -/
theorem run_of_wp {x : StateT σ (Except ε) α} (h : wp x Q (fun _ => False) s) :
    ∃ a s', x.run s = .ok (a, s') ∧ Q a s' := by
  unfold wp at h
  split at h
  · next a s' hx => exact ⟨a, s', hx, h⟩
  · exact h.elim

/-- A program that cannot return stops with a fault. -/
theorem run_error_of_wp {x : StateT σ (Except ε) α} (h : wp x (fun _ _ => False) E s) :
    ∃ e, x.run s = .error e ∧ E e := by
  unfold wp at h
  split at h
  · exact h.elim
  · next e hx => exact ⟨e, hx, h⟩

/-- Two programs with the same specifications run alike. -/
theorem run_eq_of_wp {x y : StateT σ (Except ε) α}
    (h : ∀ (Q : α → σ → Prop) (E : ε → Prop), wp x Q E s ↔ wp y Q E s) : x.run s = y.run s := by
  cases hx : x.run s with
  | ok r =>
    have hy := (h (fun a s' => r = (a, s')) fun _ => False).1 (by simp [wp, hx])
    obtain ⟨a, s', hrun, rfl⟩ := run_of_wp hy
    exact hrun.symm
  | error e =>
    have hy := (h (fun _ _ => False) fun e' => e = e').1 (by simp [wp, hx])
    obtain ⟨e', hrun, rfl⟩ := run_error_of_wp hy
    exact hrun.symm

/-- What `wp` says of a run that is known to end well. -/
theorem wp_run_ok {x : StateT σ (Except ε) α} {a : α} {s' : σ} (h : wp x Q E s)
    (hx : x.run s = .ok (a, s')) : Q a s' :=
  (wp_of_run_ok hx).1 h

@[simp] theorem wp_pure (a : α) : wp (pure a) Q E s ↔ Q a s := Iff.rfl

@[simp] theorem wp_bind (x : StateT σ (Except ε) β) (f : β → StateT σ (Except ε) α) :
    wp (x >>= f) Q E s ↔ wp x (fun b s' => wp (f b) Q E s') E s := by
  unfold wp
  rw [StateT.run_bind]
  cases x.run s <;> rfl

@[simp] theorem wp_map (x : StateT σ (Except ε) β) (f : β → α) :
    wp (f <$> x) Q E s ↔ wp x (fun b s' => Q (f b) s') E s := by
  rw [map_eq_pure_bind, wp_bind]
  simp only [wp_pure]

@[simp] theorem wp_throw (e : ε) : wp (throw e : StateT σ (Except ε) α) Q E s ↔ E e := Iff.rfl

@[simp] theorem wp_get {Q : σ → σ → Prop} : wp (get : StateT σ (Except ε) σ) Q E s ↔ Q s s :=
  Iff.rfl

@[simp] theorem wp_set {Q : PUnit → σ → Prop} (s' : σ) :
    wp (set s' : StateT σ (Except ε) PUnit) Q E s ↔ Q ⟨⟩ s' := Iff.rfl

@[simp] theorem wp_modify {Q : PUnit → σ → Prop} (f : σ → σ) :
    wp (modify f : StateT σ (Except ε) PUnit) Q E s ↔ Q ⟨⟩ (f s) := Iff.rfl

@[simp] theorem wp_ite (c : Prop) [Decidable c] (x y : StateT σ (Except ε) α) :
    wp (if c then x else y) Q E s ↔ (c → wp x Q E s) ∧ (¬ c → wp y Q E s) := by
  split <;> simp [*]

end Rules

end Lib
