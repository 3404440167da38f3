import EventServer.Lib.Locks
import EventServer.Lib.Progress
import Mathlib.Algebra.GroupWithZero.Nat
import Mathlib.Algebra.Order.BigOperators.Group.Finset

/-
  Races, and why locks exclude them.

  A lock that is given away only while nobody holds it never has two holders (`holds_unique`), so
  disciplined threads never use at the same time what it protects (`uses_apart`). Between a use
  by one thread and a later use by another, the first thread gives the lock back and then the
  second takes it (`handed_over`), so the second one comes after everything that the first one
  did. And as disciplined threads never all come to wait, finitely many of them can always be
  brought to their ends (`finishes`).
-/

namespace Lib

namespace Crew

section Steps

variable {ι L : Type} [DecidableEq ι] {grants : Policy ι L} {s s' : Crew ι L} {i : ι}

/-- The next action of the thread. -/
def Next (s : Crew ι L) (i : ι) (a : LockAction L) : Prop := (s.todo i).head? = some a

theorem step_cases (h : step grants s i = some s') :
    ∃ a as, s.todo i = a :: as ∧ s' = s.advance i a as ∧ ∀ l, a = .acquire l → grants s i l = true := by
  unfold step at h
  split at h
  · cases h
  · next l as htodo =>
    split at h
    · next hgrants =>
      obtain rfl := Option.some.inj h
      refine ⟨_, as, htodo, rfl, fun l' heq => ?_⟩
      cases heq
      exact hgrants
    · cases h
  · next a as hother htodo =>
    obtain rfl := Option.some.inj h
    refine ⟨a, as, htodo, rfl, fun l heq => ?_⟩
    exact absurd heq (hother l)

/-! ### What is behind and ahead of a thread that has gone on -/

variable {j : ι} (a : LockAction L) (as : List (LockAction L))

theorem done_advance (s : Crew ι L) (i : ι) : (s.advance i a as).done i = s.done i ++ [a] :=
  Function.update_self ..

theorem done_other (s : Crew ι L) (hj : j ≠ i) : (s.advance i a as).done j = s.done j :=
  Function.update_of_ne hj ..

theorem todo_advance (s : Crew ι L) (i : ι) : (s.advance i a as).todo i = as :=
  Function.update_self ..

theorem todo_other (s : Crew ι L) (hj : j ≠ i) : (s.advance i a as).todo j = s.todo j :=
  Function.update_of_ne hj ..

end Steps

variable {ι L : Type} [DecidableEq ι] [DecidableEq L]

/-- What a thread does is behind those actions. -/
theorem heldFrom_append (ls : List L) (as bs : List (LockAction L)) :
    heldFrom ls (as ++ bs) = heldFrom (heldFrom ls as) bs := by
  induction as generalizing ls with
  | nil => rfl
  | cons a as ih => cases a <;> exact ih _

section Holding

variable {grants : Policy ι L} {work : ι → List (LockAction L)} {s s' : Crew ι L} {i j : ι} {l : L}

/-- The lock is given away only while nobody holds it. -/
def Policy.Excludes (grants : Policy ι L) (l : L) : Prop :=
  ∀ s i, grants s i l = true → ∀ j, ¬ s.Holds j l

omit [DecidableEq ι] in
theorem Policy.exclusive_excludes [Fintype ι] (l : L) :
    (Policy.exclusive : Policy ι L).Excludes l := by
  intro s i h
  exact of_decide_eq_true (p := ∀ j, l ∉ held (s.done j)) h

theorem held_advance (s : Crew ι L) (i : ι) (a : LockAction L) (as : List (LockAction L)) :
    held ((s.advance i a as).done i) = heldFrom (held (s.done i)) [a] := by
  rw [done_advance, held, heldFrom_append]
  rfl

theorem holds_other {a : LockAction L} {as : List (LockAction L)} (hj : j ≠ i) :
    (s.advance i a as).Holds j l ↔ s.Holds j l := by
  unfold Holds
  rw [done_other a as s hj]

/-- Whoever holds a lock after a step held it before, or has just been given it. -/
theorem holds_step (h : step grants s i = some s') (hj : s'.Holds j l) :
    s.Holds j l ∨ j = i ∧ s.Next i (.acquire l) ∧ grants s i l = true := by
  obtain ⟨a, as, htodo, rfl, hgrants⟩ := step_cases h
  by_cases hne : j = i
  · subst hne
    unfold Holds at hj
    rw [held_advance] at hj
    cases a with
    | acquire l' =>
      obtain rfl | hmem := List.mem_cons.1 hj
      · exact Or.inr ⟨rfl, by rw [Next, htodo]; rfl, hgrants l rfl⟩
      · exact Or.inl hmem
    | release l' => exact Or.inl (List.mem_of_mem_erase hj)
    | use l' => exact Or.inl hj
  · exact Or.inl ((holds_other hne).1 hj)

/-- Whoever does not hold a lock any more has just given it back. -/
theorem lost_step (h : step grants s i = some s') (hj : s.Holds j l) (hno : ¬ s'.Holds j l) :
    j = i ∧ s.Next i (.release l) := by
  obtain ⟨a, as, htodo, rfl, -⟩ := step_cases h
  by_cases hne : j = i
  · subst hne
    unfold Holds at hno
    rw [held_advance] at hno
    cases a with
    | acquire l' => exact absurd (List.mem_cons_of_mem l' hj) hno
    | release l' =>
      by_cases hl : l = l'
      · subst hl
        exact ⟨rfl, by rw [Next, htodo]; rfl⟩
      · exact absurd ((List.mem_erase_of_ne hl).2 hj) hno
    | use l' => exact absurd hj hno
  · exact absurd ((holds_other hne).2 hj) hno

/-- A lock has at most one holder. -/
def Single (s : Crew ι L) (l : L) : Prop := ∀ i j, s.Holds i l → s.Holds j l → i = j

theorem Single.keep (hex : grants.Excludes l) (hs : s.Single l) (h : step grants s i = some s') :
    s'.Single l := by
  intro j k hj hk
  obtain hj | ⟨rfl, -, hgrants⟩ := holds_step h hj
  · obtain hk | ⟨rfl, -, hgrants⟩ := holds_step h hk
    · exact hs j k hj hk
    · exact absurd hj (hex s _ hgrants j)
  · obtain hk | ⟨rfl, -, -⟩ := holds_step h hk
    · exact absurd hk (hex s _ hgrants k)
    · rfl

/-- **A lock never has two holders.** -/
theorem holds_unique (hex : grants.Excludes l) {is : List ι}
    (h : exec (step grants) (start work) is = some s) : s.Single l := by
  refine exec_invariant (I := fun s => s.Single l) (fun _ _ _ hs hstep => hs.keep hex hstep) ?_ h
  intro i j hi _
  exact absurd hi List.not_mem_nil

theorem holds_of_use (hwork : ∀ i, Disciplined (work i)) {is : List ι}
    (h : exec (step grants) (start work) is = some s) (hi : s.Next i (.use l)) : s.Holds i l := by
  obtain ⟨as, htodo⟩ := List.head?_eq_some_iff.1 hi
  refine (hwork i).covered (s.done i) l as ?_
  rw [← exec_work h i, htodo]

/-- **No two threads use at the same time what a lock protects.** -/
theorem uses_apart (hex : grants.Excludes l) (hwork : ∀ i, Disciplined (work i)) {is : List ι}
    (h : exec (step grants) (start work) is = some s) (hi : s.Next i (.use l))
    (hj : s.Next j (.use l)) : i = j :=
  holds_unique hex h i j (holds_of_use hwork h hi) (holds_of_use hwork h hj)

/-! ### From one holder to the next -/

/-- On the way the one thread gives the lock back, and after that the other takes it. -/
def HandsOver (grants : Policy ι L) (s : Crew ι L) (is : List ι) (i j : ι) (l : L) : Prop :=
  ∃ is₁ is₂ is₃ u u', is = is₁ ++ i :: (is₂ ++ j :: is₃) ∧
    exec (step grants) s is₁ = some u ∧ u.Next i (.release l) ∧
    exec (step grants) u (i :: is₂) = some u' ∧ u'.Next j (.acquire l)

/-- Whoever comes to hold a lock takes it on the way. -/
theorem taken {is : List ι} (h : exec (step grants) s is = some s') (hno : ¬ s.Holds j l)
    (hj : s'.Holds j l) : ∃ is₁ is₂ u, is = is₁ ++ j :: is₂ ∧
      exec (step grants) s is₁ = some u ∧ u.Next j (.acquire l) := by
  induction is generalizing s with
  | nil =>
    obtain rfl := Option.some.inj h
    exact absurd hj hno
  | cons k is ih =>
    obtain ⟨s₁, hk, hrest⟩ := exec_cons_eq_some.1 h
    by_cases hj₁ : s₁.Holds j l
    · obtain hold | ⟨rfl, hnext, -⟩ := holds_step hk hj₁
      · exact absurd hold hno
      · exact ⟨[], is, s, rfl, rfl, hnext⟩
    · obtain ⟨is₁, is₂, u, rfl, hu, hnext⟩ := ih hrest hj₁
      exact ⟨k :: is₁, is₂, u, rfl, exec_cons_eq_some.2 ⟨s₁, hk, hu⟩, hnext⟩

/-- **A lock goes from one holder to the next** by being given back and taken. -/
theorem handed_over (hex : grants.Excludes l) {is : List ι}
    (h : exec (step grants) s is = some s') (hs : s.Single l) (hi : s.Holds i l) (hj : s'.Holds j l)
    (hij : i ≠ j) : HandsOver grants s is i j l := by
  induction is generalizing s with
  | nil =>
    obtain rfl := Option.some.inj h
    exact absurd (hs i j hi hj) hij
  | cons k is ih =>
    obtain ⟨s₁, hk, hrest⟩ := exec_cons_eq_some.1 h
    by_cases hi₁ : s₁.Holds i l
    · obtain ⟨is₁, is₂, is₃, u, u', rfl, hu, hrelease, hu', hacquire⟩ :=
        ih hrest (hs.keep hex hk) hi₁
      exact ⟨k :: is₁, is₂, is₃, u, u', rfl, exec_cons_eq_some.2 ⟨s₁, hk, hu⟩, hrelease, hu',
        hacquire⟩
    · -- this step gives the lock back
      obtain ⟨rfl, hrelease⟩ := lost_step hk hi hi₁
      have hj₁ : ¬ s₁.Holds j l := by
        intro hj₁
        obtain hold | ⟨rfl, -, -⟩ := holds_step hk hj₁
        · exact hij (hs i j hi hold)
        · exact hij rfl
      obtain ⟨is₂, is₃, u', rfl, hu', hacquire⟩ := taken hrest hj₁ hj
      exact ⟨[], is₂, is₃, s, u', rfl, rfl, hrelease, exec_cons_eq_some.2 ⟨s₁, hk, hu'⟩, hacquire⟩

end Holding

/-! ### To the end -/

section Ends

variable [Fintype ι] {grants : Policy ι L} {work : ι → List (LockAction L)} {s s' : Crew ι L} {i : ι}

/-- The number of actions ahead of the threads. -/
def ahead (s : Crew ι L) : ℕ := Finset.univ.sum fun i => (s.todo i).length

omit [DecidableEq L] in
theorem ahead_step (h : step grants s i = some s') : s'.ahead < s.ahead := by
  obtain ⟨a, as, htodo, rfl, -⟩ := step_cases h
  have hself : ((s.advance i a as).todo i).length < (s.todo i).length := by
    rw [todo_advance, htodo]
    exact Nat.lt_succ_self _
  refine Finset.sum_lt_sum (fun j _ => ?_) ⟨i, Finset.mem_univ i, hself⟩
  by_cases hj : j = i
  · rw [hj]
    exact Nat.le_of_lt hself
  · rw [todo_other a as s hj]

omit [DecidableEq L] in
theorem ahead_ranked : Ranked (step grants) (fun _ => ()) fun (s : Crew ι L) _ => s.ahead where
  own h := ahead_step h
  other _ hne := absurd rfl hne

/-- **Disciplined threads can always be brought to their ends.** -/
theorem finishes (hgrants : grants.Gives) (hwork : ∀ i, Disciplined (work i)) {is : List ι}
    (h : exec (step grants) (start work) is = some s) :
    ∃ is' s', exec (step grants) s is' = some s' ∧ ∀ i, s'.todo i = [] := by
  have hlive : ∀ s : Crew ι L, (∃ is, exec (step grants) (start work) is = some s) →
      (∀ i, s.todo i = []) ∨ ∃ i s', () = () ∧ step grants s i = some s' ∧
        ∃ is, exec (step grants) (start work) is = some s' := by
    rintro s ⟨is, hrun⟩
    by_cases hdone : ∀ i, s.todo i = []
    · exact Or.inl hdone
    · obtain ⟨i, hi⟩ := not_forall.1 hdone
      obtain ⟨k, hk⟩ : ∃ k, (step grants s k).isSome := by
        obtain hstep | ⟨-, j, -, -, hstep⟩ := never_stuck hgrants hwork hrun hi
        · exact ⟨i, hstep⟩
        · exact ⟨j, hstep⟩
      obtain ⟨s', hs'⟩ := Option.isSome_iff_exists.1 hk
      refine Or.inr ⟨k, s', rfl, hs', is ++ [k], ?_⟩
      exact exec_append_of_eq hrun (exec_cons_eq_some.2 ⟨s', hs', rfl⟩)
  obtain ⟨is', s', -, hrun, -, hdone⟩ := ahead_ranked.finishes hlive ⟨is, h⟩
  exact ⟨is', s', hrun, hdone⟩

end Ends

end Crew

end Lib
