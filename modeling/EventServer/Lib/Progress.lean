import EventServer.Lib.Runs

/-
  Threads that come to an end.

  Each label is a step of one thread, its owner. `Ranked` says that a step lowers the rank of its owner
  and leaves the ranks of all others; then a thread makes no more steps than its rank at the
  start (`Ranked.count_le`). If a thread that is not done can always step, it gets done by its own
  steps alone, wherever the others have stopped (`Ranked.finishes`).
-/

namespace Lib

universe u v w

variable {σ : Type u} {ℓ : Type v} {T : Type w}

/-- A step lowers the rank of its owner and no other rank. -/
structure Ranked (step : σ → ℓ → Option σ) (owner : ℓ → T) (rank : σ → T → ℕ) : Prop where
  own : ∀ {s l s'}, step s l = some s' → rank s' (owner l) < rank s (owner l)
  other : ∀ {s l s' t}, step s l = some s' → owner l ≠ t → rank s' t = rank s t

namespace Ranked

variable {step : σ → ℓ → Option σ} {owner : ℓ → T} {rank : σ → T → ℕ} {s s' : σ} {ls : List ℓ}

/-- **The steps of a thread are bounded**, whatever the others do. -/
theorem count_le [DecidableEq T] (h : Ranked step owner rank) (t : T)
    (hrun : exec step s ls = some s') :
    ls.countP (fun l => owner l = t) + rank s' t ≤ rank s t := by
  induction ls generalizing s with
  | nil =>
    obtain rfl := Option.some.inj hrun
    exact Nat.le_of_eq (Nat.zero_add _)
  | cons l ls ih =>
    obtain ⟨s₁, hl, hrest⟩ := exec_cons_eq_some.1 hrun
    have hle := ih hrest
    by_cases ht : owner l = t
    · have hlt := h.own hl
      rw [List.countP_cons_of_pos (by simpa using ht)]
      rw [ht] at hlt
      omega
    · rw [List.countP_cons_of_neg (by simpa using ht), ← h.other hl ht]
      exact hle

/-- **A thread gets done on its own**, if it can step whenever it is not done. -/
theorem finishes (h : Ranked step owner rank) {I D : σ → Prop} {t : T}
    (hlive : ∀ s, I s → D s ∨ ∃ l s', owner l = t ∧ step s l = some s' ∧ I s') (hs : I s) :
    ∃ ls s', (∀ l ∈ ls, owner l = t) ∧ exec step s ls = some s' ∧ I s' ∧ D s' := by
  -- by the rank of the thread
  induction hn : rank s t using Nat.strongRecOn generalizing s with
  | ind n ih =>
    obtain hdone | ⟨l, s₁, ht, hl, hs₁⟩ := hlive s hs
    · exact ⟨[], s, fun l hl => absurd hl List.not_mem_nil, rfl, hs, hdone⟩
    · have hlt : rank s₁ t < n := hn ▸ ht ▸ h.own hl
      obtain ⟨ls, s', howner, hrun, hs', hdone⟩ := ih _ hlt hs₁ rfl
      refine ⟨l :: ls, s', fun m hm => ?_, exec_cons_eq_some.2 ⟨s₁, hl, hrun⟩, hs', hdone⟩
      obtain rfl | hm := List.mem_cons.1 hm
      · exact ht
      · exact howner m hm

end Ranked

end Lib
