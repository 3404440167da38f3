import EventServer.Lib.Runs
import Mathlib.Data.Fintype.Defs
import Mathlib.Data.List.Count

/-
  Lock discipline, and why it excludes deadlock.

  A thread is the list of its actions: it takes a lock, gives one back, or uses what a lock
  protects. `Disciplined` says that it gives back every lock it takes, uses only what is
  protected by a lock it holds and waits for a lock only while it holds none. `LockAction.next` is
  the automaton that follows the one lock a disciplined thread holds; its accepting runs are
  disciplined (`disciplined_of_exec`) and compose (`exec_flatten`). Threads that take turns in
  any order, with any policy that leaves no lock lying that a thread waits for, never all come
  to wait (`Crew.never_stuck`).
-/

namespace Lib

variable {L : Type}

inductive LockAction (L : Type) where
  | acquire (l : L)
  | release (l : L)
  | use (l : L)
  deriving DecidableEq, Repr

section Discipline

variable [DecidableEq L]

/-- The locks held after some actions, when `ls` were held before. -/
def heldFrom : List L → List (LockAction L) → List L
  | ls, [] => ls
  | ls, .acquire l :: as => heldFrom (l :: ls) as
  | ls, .release l :: as => heldFrom (ls.erase l) as
  | ls, .use _ :: as => heldFrom ls as

/-- The locks that have been taken and not been given back. -/
def held (as : List (LockAction L)) : List L := heldFrom [] as

/-- The actions of a thread that never waits for a lock while it holds one. -/
structure Disciplined (as : List (LockAction L)) : Prop where
  alone : ∀ pre l post, as = pre ++ .acquire l :: post → held pre = []
  own : ∀ pre l post, as = pre ++ .release l :: post → l ∈ held pre
  covered : ∀ pre l post, as = pre ++ .use l :: post → l ∈ held pre
  once : ∀ l, as.count (.acquire l) = as.count (.release l)
  free : held as = []

/-! ## The automaton -/

/-- The lock held after one action of a thread that holds the given one. -/
def LockAction.next : Option L → LockAction L → Option (Option L)
  | none, .acquire l => some (some l)
  | some l, .release l' => if l = l' then some none else none
  | some l, .use l' => if l = l' then some (some l) else none
  | _, _ => none

theorem next_heldFrom {o o' : Option L} {a : LockAction L} (h : LockAction.next o a = some o')
    (as : List (LockAction L)) : heldFrom o.toList (a :: as) = heldFrom o'.toList as := by
  cases o with
  | none =>
    cases a with
    | acquire l => cases h; rfl
    | release l => cases h
    | use l => cases h
  | some l =>
    cases a with
    | acquire l' => cases h
    | release l' =>
      rw [LockAction.next] at h
      split at h
      · next heq => subst heq; cases h; simp [heldFrom]
      · cases h
    | use l' =>
      rw [LockAction.next] at h
      split at h
      · cases h; rfl
      · cases h

/-- The automaton follows what is held. -/
theorem heldFrom_of_exec {o o' : Option L} {as : List (LockAction L)}
    (h : exec LockAction.next o as = some o') : heldFrom o.toList as = o'.toList := by
  induction as generalizing o with
  | nil => cases h; rfl
  | cons a as ih =>
    obtain ⟨o₁, h₁, h'⟩ := exec_cons_eq_some.1 h
    rw [next_heldFrom h₁, ih h']

/-- What the automaton has been through before one of the actions. -/
theorem exec_split {o o' : Option L} {pre post : List (LockAction L)} {a : LockAction L}
    (h : exec LockAction.next o (pre ++ a :: post) = some o') :
    ∃ o₁ o₂, exec LockAction.next o pre = some o₁ ∧ LockAction.next o₁ a = some o₂ := by
  rw [exec_append] at h
  obtain ⟨o₁, h₁, h'⟩ := Option.bind_eq_some_iff.1 h
  obtain ⟨o₂, h₂, -⟩ := exec_cons_eq_some.1 h'
  exact ⟨o₁, o₂, h₁, h₂⟩

/-- Between two states of the automaton a lock is taken as often as it is given back, but for what
    is held at the ends. -/
theorem count_of_exec {o o' : Option L} {as : List (LockAction L)} (l : L)
    (h : exec LockAction.next o as = some o') :
    as.count (.acquire l) + o.toList.count l = as.count (.release l) + o'.toList.count l := by
  induction as generalizing o with
  | nil => cases h; simp
  | cons a as ih =>
    obtain ⟨o₁, h₁, h'⟩ := exec_cons_eq_some.1 h
    have ih := ih h'
    cases o with
    | none =>
      cases a with
      | acquire l' =>
        cases h₁
        by_cases hl : l' = l <;> simp_all
      | release l' => cases h₁
      | use l' => cases h₁
    | some l₀ =>
      cases a with
      | acquire l' => cases h₁
      | release l' =>
        rw [LockAction.next] at h₁
        split at h₁
        · next heq =>
          subst heq
          cases h₁
          by_cases hl : l₀ = l <;> simp_all
          omega
        · cases h₁
      | use l' =>
        rw [LockAction.next] at h₁
        split at h₁
        · cases h₁
          simpa [List.count_cons] using ih
        · cases h₁

/-- **What the automaton accepts is disciplined.** -/
theorem disciplined_of_exec {as : List (LockAction L)}
    (h : exec LockAction.next none as = some none) :
    Disciplined as where
  alone pre l post hsplit := by
    obtain ⟨o₁, o₂, h₁, h₂⟩ := exec_split (hsplit ▸ h)
    rw [held, ← Option.toList_none, heldFrom_of_exec h₁]
    cases o₁ with
    | none => rfl
    | some l' => cases h₂
  own pre l post hsplit := by
    obtain ⟨o₁, o₂, h₁, h₂⟩ := exec_split (hsplit ▸ h)
    rw [held, ← Option.toList_none, heldFrom_of_exec h₁]
    cases o₁ with
    | none => cases h₂
    | some l' =>
      rw [LockAction.next] at h₂
      split at h₂
      · next heq => simp [heq]
      · cases h₂
  covered pre l post hsplit := by
    obtain ⟨o₁, o₂, h₁, h₂⟩ := exec_split (hsplit ▸ h)
    rw [held, ← Option.toList_none, heldFrom_of_exec h₁]
    cases o₁ with
    | none => cases h₂
    | some l' =>
      rw [LockAction.next] at h₂
      split at h₂
      · next heq => simp [heq]
      · cases h₂
  once l := by simpa using count_of_exec l h
  free := heldFrom_of_exec h

/-- Pieces of work that each begin and end without a lock, one after the other. -/
theorem exec_flatten {ass : List (List (LockAction L))}
    (h : ∀ as ∈ ass, exec LockAction.next none as = some none) :
    exec LockAction.next none ass.flatten = some none := by
  induction ass with
  | nil => rfl
  | cons as ass ih =>
    rw [List.flatten_cons]
    exact exec_append_of_eq (h as (by simp)) (ih fun as' h' => h as' (List.mem_cons_of_mem _ h'))

end Discipline

/-! ## Threads -/

/-- Threads, each with the actions behind it and those ahead of it. -/
structure Crew (ι L : Type) where
  done : ι → List (LockAction L)
  todo : ι → List (LockAction L)

namespace Crew

variable {ι : Type} [DecidableEq ι]

/-- Threads before their first actions. -/
def start (work : ι → List (LockAction L)) : Crew ι L := ⟨fun _ => [], work⟩

/-- The thread has just performed its next action. -/
def advance (s : Crew ι L) (i : ι) (a : LockAction L) (as : List (LockAction L)) : Crew ι L :=
  ⟨Function.update s.done i (s.done i ++ [a]), Function.update s.todo i as⟩

/-- Who is given a lock that it asks for. -/
abbrev Policy (ι L : Type) := Crew ι L → ι → L → Bool

/-- One action of one thread. Only a thread that asks for a lock can be made to wait. -/
def step (grants : Policy ι L) (s : Crew ι L) (i : ι) : Option (Crew ι L) :=
  match s.todo i with
  | [] => none
  | .acquire l :: as => if grants s i l then some (s.advance i (.acquire l) as) else none
  | a :: as => some (s.advance i a as)

def Waits (s : Crew ι L) (i : ι) (l : L) : Prop := (s.todo i).head? = some (.acquire l)

variable {grants : Policy ι L} {s s' : Crew ι L} {work : ι → List (LockAction L)}

/-- A thread always has the same actions behind and ahead of it, together. -/
theorem step_work {i : ι} (h : step grants s i = some s') (j : ι) :
    s'.done j ++ s'.todo j = s.done j ++ s.todo j := by
  have hadvance : ∀ a as, s.todo i = a :: as →
      (s.advance i a as).done j ++ (s.advance i a as).todo j = s.done j ++ s.todo j := by
    intro a as htodo
    by_cases hj : j = i
    · subst hj
      simp [advance, htodo]
    · simp [advance, Function.update_of_ne hj]
  unfold step at h
  split at h
  · cases h
  · next l as htodo =>
    split at h
    · cases h
      exact hadvance _ _ htodo
    · cases h
  · next a as _ htodo =>
    cases h
    exact hadvance _ _ htodo

theorem exec_work {is : List ι} (h : exec (step grants) (start work) is = some s) (j : ι) :
    s.done j ++ s.todo j = work j := by
  refine exec_invariant (I := fun s => s.done j ++ s.todo j = work j)
    (fun s₁ i s₂ hi hs => ?_) rfl h
  rw [step_work hs, hi]

/-- A thread that is not at its end can go on, or waits for a lock. -/
theorem isSome_step_or_waits {i : ι} (h : s.todo i ≠ []) :
    (step grants s i).isSome ∨ ∃ l, s.Waits i l := by
  unfold step Waits
  split
  · next htodo => exact absurd htodo h
  · next l as htodo => exact Or.inr ⟨l, by rw [htodo]; rfl⟩
  · exact Or.inl rfl

theorem isSome_step_of_grants {i : ι} {l : L} (hw : s.Waits i l) (hg : grants s i l = true) :
    (step grants s i).isSome := by
  obtain ⟨as, htodo⟩ := List.head?_eq_some_iff.1 hw
  simp [step, htodo, hg]

/-! ### Holding -/

variable [DecidableEq L]

def Holds (s : Crew ι L) (i : ι) (l : L) : Prop := l ∈ held (s.done i)

/-- A lock that nobody holds goes to one of the threads that wait for it. -/
def Policy.Gives (grants : Policy ι L) : Prop :=
  ∀ s l i, (∀ j, ¬ s.Holds j l) → s.Waits i l → ∃ j, s.Waits j l ∧ grants s j l = true

/-- The policy of a mutex: a lock is given away only if nobody holds it. -/
def Policy.exclusive [Fintype ι] : Policy ι L := fun s _ l =>
  decide (∀ j, l ∉ held (s.done j))

omit [DecidableEq ι] in
theorem Policy.exclusive_gives [Fintype ι] : (Policy.exclusive : Policy ι L).Gives :=
  fun _ _ i hfree hw => ⟨i, hw, decide_eq_true hfree⟩

/-- A disciplined thread that holds a lock is not waiting. -/
theorem isSome_step_of_holds {i : ι} {l : L} (hwork : Disciplined (s.done i ++ s.todo i))
    (hl : s.Holds i l) : (step grants s i).isSome := by
  unfold step
  split
  · next htodo =>
    have := hwork.free
    rw [htodo, List.append_nil] at this
    rw [Holds, this] at hl
    cases hl
  · next l' as htodo =>
    have := hwork.alone (s.done i) l' as (by rw [htodo])
    rw [Holds, this] at hl
    cases hl
  · rfl

/-- **Disciplined threads never deadlock**: a thread that is not at its end can go on, or the lock
    it waits for is held by, or goes to, a thread that can. -/
theorem never_stuck (hgrants : grants.Gives) (hwork : ∀ i, Disciplined (work i)) {is : List ι}
    (h : exec (step grants) (start work) is = some s) {i : ι} (hi : s.todo i ≠ []) :
    (step grants s i).isSome ∨
      ∃ l j, s.Waits i l ∧ (s.Holds j l ∨ s.Waits j l) ∧ (step grants s j).isSome := by
  obtain hstep | ⟨l, hw⟩ : (step grants s i).isSome ∨ ∃ l, s.Waits i l := isSome_step_or_waits hi
  · exact Or.inl hstep
  refine Or.inr ⟨l, ?_⟩
  by_cases hfree : ∀ j, ¬ s.Holds j l
  · obtain ⟨j, hj, hg⟩ := hgrants s l i hfree hw
    exact ⟨j, hw, Or.inr hj, isSome_step_of_grants hj hg⟩
  · obtain ⟨j, hj⟩ := not_forall.1 hfree
    have hl : s.Holds j l := not_not.1 hj
    exact ⟨j, hw, Or.inl hl, isSome_step_of_holds (exec_work h j ▸ hwork j) hl⟩

end Crew

end Lib
