import Mathlib.Data.List.Nodup
import Mathlib.Logic.Function.Basic
import EventServer.Lib.Runs

/-
  Linearizability of objects whose operations take one or two atomic steps.

  `TwoStep` describes such an object: the first step either finishes the operation or only
  looks and remembers a location, the second step finishes it there. Any number of threads run
  operations, each thread one at a time; `TwoStep.move` is one move of one thread (begin a
  call, take its next atomic step, return). `history` records the begins and the returns, `log`
  the operations in the order of their last atomic step.

  `Stable` is the one assumption: what a first step found, it finds again after any step of
  another operation. Under it the order of the last steps is a linearization of every run
  (`linearization_of_run`): the operations run whole in that order give the same results and
  the same final state, and the order respects real time.
-/

namespace Lib

variable {σ T Op Loc Ret : Type}

/-- Operations in at most two atomic steps; `none` is a step without a defined result. -/
structure TwoStep (σ Op Loc Ret : Type) where
  first : Op → σ → Option (Ret × σ ⊕ Loc)
  second : Op → Loc → σ → Option (Ret × σ)

namespace TwoStep

/-- The operation run without interruption. -/
def whole (M : TwoStep σ Op Loc Ret) (op : Op) (s : σ) : Option (Ret × σ) :=
  (M.first op s).bind fun
    | .inl r => some r
    | .inr l => M.second op l s

/-- Whole operations one after the other: their results and the final state. -/
def sequential (M : TwoStep σ Op Loc Ret) : σ → List Op → Option (List Ret × σ)
  | s, [] => some ([], s)
  | s, op :: ops => (M.whole op s).bind fun r =>
      (M.sequential r.2 ops).map fun q => (r.1 :: q.1, q.2)

theorem sequential_append (M : TwoStep σ Op Loc Ret) (s : σ) (ops ops' : List Op) :
    M.sequential s (ops ++ ops') = (M.sequential s ops).bind fun q =>
      (M.sequential q.2 ops').map fun q' => (q.1 ++ q'.1, q'.2) := by
  induction ops generalizing s with
  | nil => simp [sequential]
  | cons op ops ih =>
    simp only [List.cons_append, sequential]
    cases M.whole op s with
    | none => rfl
    | some r =>
      simp only [Option.bind_some, ih]
      cases M.sequential r.2 ops with
      | none => rfl
      | some q =>
        simp only [Option.bind_some, Option.map_some]
        cases M.sequential q.2 ops' <;> rfl

theorem sequential_snoc {M : TwoStep σ Op Loc Ret} {s t u : σ} {ops : List Op} {rs : List Ret}
    {op : Op} {r : Ret} (h : M.sequential s ops = some (rs, t)) (hop : M.whole op t = some (r, u)) :
    M.sequential s (ops ++ [op]) = some (rs ++ [r], u) := by
  simp [sequential_append, h, sequential, hop]

theorem whole_of_first {M : TwoStep σ Op Loc Ret} {op : Op} {s : σ} {r : Ret × σ}
    (h : M.first op s = some (.inl r)) : M.whole op s = some r := by
  simp [whole, h]

theorem whole_of_second {M : TwoStep σ Op Loc Ret} {op : Op} {s : σ} {l : Loc}
    (h : M.first op s = some (.inr l)) : M.whole op s = M.second op l s := by
  simp [whole, h]

/-- What a first step found stays found, whatever step another operation takes; `I` is an
    invariant of the steps. -/
structure Stable (M : TwoStep σ Op Loc Ret) (I : σ → Prop) : Prop where
  first_inv : ∀ {s op r s'}, I s → M.first op s = some (.inl (r, s')) → I s'
  second_inv : ∀ {s op l r s'}, I s → M.first op s = some (.inr l) →
    M.second op l s = some (r, s') → I s'
  first_found : ∀ {s op l op' r s'}, I s → M.first op s = some (.inr l) →
    M.first op' s = some (.inl (r, s')) → M.first op s' = some (.inr l)
  second_found : ∀ {s op l op' l' r s'}, I s → M.first op s = some (.inr l) →
    M.first op' s = some (.inr l') → M.second op' l' s = some (r, s') →
    M.first op s' = some (.inr l)

theorem Stable.whole_inv {M : TwoStep σ Op Loc Ret} {I : σ → Prop} (hM : M.Stable I) {s : σ}
    {op : Op} {r : Ret × σ} (hs : I s) (h : M.whole op s = some r) : I r.2 := by
  obtain ⟨x, hx, hr⟩ := Option.bind_eq_some_iff.1 h
  cases x with
  | inl q =>
    obtain rfl := Option.some.inj hr
    exact hM.first_inv hs hx
  | inr l => exact hM.second_inv hs hx hr

end TwoStep

/-! ## Threads -/

/-- Where a thread is in its current call; calls are numbered in the order they begin. -/
inductive Phase (Op Loc Ret : Type) where
  | idle
  | called (k : Nat) (op : Op)
  | found (k : Nat) (op : Op) (l : Loc)
  | finished (k : Nat) (op : Op) (r : Ret)

/-- What an observer of the threads sees. -/
inductive Event (Op Ret : Type) where
  | call (k : Nat) (op : Op)
  | ret (k : Nat) (r : Ret)

/-- One move of one thread. -/
inductive Move (T Op : Type) where
  | call (t : T) (op : Op)
  | step (t : T)
  | ret (t : T)

/-- A call whose last atomic step is done: its number, operation and result. -/
structure Done (Op Ret : Type) where
  id : Nat
  op : Op
  ret : Ret

/-- The shared state, the threads, and what has happened so far (oldest first). -/
structure Conc (σ T Op Loc Ret : Type) where
  shared : σ
  phase : T → Phase Op Loc Ret
  calls : Nat
  history : List (Event Op Ret)
  log : List (Done Op Ret)

namespace Conc

/-- Every thread idle, nothing has happened. -/
def init (s : σ) : Conc σ T Op Loc Ret := ⟨s, fun _ => .idle, 0, [], []⟩

variable [DecidableEq T]

def setPhase (c : Conc σ T Op Loc Ret) (t : T) (p : Phase Op Loc Ret) : Conc σ T Op Loc Ret :=
  { c with phase := Function.update c.phase t p }

/-- Thread `t` has taken the last atomic step of its call `k`. -/
def finish (c : Conc σ T Op Loc Ret) (t : T) (k : Nat) (op : Op) (r : Ret × σ) :
    Conc σ T Op Loc Ret :=
  { c.setPhase t (.finished k op r.1) with shared := r.2, log := c.log ++ [⟨k, op, r.1⟩] }

end Conc

variable [DecidableEq T]

/-- One move of one thread; `none` when the thread cannot make it. -/
def TwoStep.move (M : TwoStep σ Op Loc Ret) (c : Conc σ T Op Loc Ret) :
    Move T Op → Option (Conc σ T Op Loc Ret)
  | .call t op =>
    match c.phase t with
    | .idle => some { c.setPhase t (.called c.calls op) with
        calls := c.calls + 1, history := c.history ++ [.call c.calls op] }
    | _ => none
  | .step t =>
    match c.phase t with
    | .called k op => (M.first op c.shared).map fun
        | .inl r => c.finish t k op r
        | .inr l => c.setPhase t (.found k op l)
    | .found k op l => (M.second op l c.shared).map (c.finish t k op)
    | _ => none
  | .ret t =>
    match c.phase t with
    | .finished k _ r => some { c.setPhase t .idle with history := c.history ++ [.ret k r] }
    | _ => none

/-- What one move does. -/
theorem TwoStep.move_cases {M : TwoStep σ Op Loc Ret} {c c' : Conc σ T Op Loc Ret}
    {m : Move T Op} (h : M.move c m = some c') :
    (∃ t op, m = .call t op ∧ c.phase t = .idle ∧
      c' = { c.setPhase t (.called c.calls op) with
        calls := c.calls + 1, history := c.history ++ [.call c.calls op] }) ∨
    (∃ t k op l, m = .step t ∧ c.phase t = .called k op ∧
      M.first op c.shared = some (.inr l) ∧ c' = c.setPhase t (.found k op l)) ∨
    (∃ t k op r, m = .step t ∧ c.phase t = .called k op ∧
      M.first op c.shared = some (.inl r) ∧ c' = c.finish t k op r) ∨
    (∃ t k op l r, m = .step t ∧ c.phase t = .found k op l ∧
      M.second op l c.shared = some r ∧ c' = c.finish t k op r) ∨
    (∃ t k op r, m = .ret t ∧ c.phase t = .finished k op r ∧
      c' = { c.setPhase t .idle with history := c.history ++ [.ret k r] }) := by
  cases m with
  | call t op =>
    simp only [TwoStep.move] at h
    split at h
    · next hp => exact Or.inl ⟨t, op, rfl, hp, (Option.some.inj h).symm⟩
    · cases h
  | step t =>
    simp only [TwoStep.move] at h
    split at h
    · next k op hp =>
      obtain ⟨x, hx, rfl⟩ := Option.map_eq_some_iff.1 h
      cases x with
      | inl r => exact Or.inr (Or.inr (Or.inl ⟨t, k, op, r, rfl, hp, hx, rfl⟩))
      | inr l => exact Or.inr (Or.inl ⟨t, k, op, l, rfl, hp, hx, rfl⟩)
    · next k op l hp =>
      obtain ⟨r, hr, rfl⟩ := Option.map_eq_some_iff.1 h
      exact Or.inr (Or.inr (Or.inr (Or.inl ⟨t, k, op, l, r, rfl, hp, hr, rfl⟩)))
    · cases h
  | ret t =>
    simp only [TwoStep.move] at h
    split at h
    · next k op r hp =>
      exact Or.inr (Or.inr (Or.inr (Or.inr ⟨t, k, op, r, rfl, hp, (Option.some.inj h).symm⟩)))
    · cases h

/-- A thread that makes a call in one step, with no other thread in between. -/
theorem TwoStep.exec_one_step {M : TwoStep σ Op Loc Ret} {c : Conc σ T Op Loc Ret} {t : T} {op : Op}
    {r : Ret × σ} (hidle : c.phase t = .idle) (hfirst : M.first op c.shared = some (.inl r)) :
    ∃ c', exec M.move c [.call t op, .step t, .ret t] = some c' ∧ c'.phase t = .idle ∧
      c'.shared = r.2 ∧ c'.log = c.log ++ [⟨c.calls, op, r.1⟩] := by
  refine ⟨?c, ?_, ?_, ?_, ?_⟩
  case refine_1 =>
    simp only [exec_cons, exec_nil, TwoStep.move, hidle, Option.bind_some, Conc.setPhase,
      Function.update_self, hfirst, Option.map_some, Conc.finish]
    rfl
  all_goals simp

/-- The same for a call of two steps. -/
theorem TwoStep.exec_two_steps {M : TwoStep σ Op Loc Ret} {c : Conc σ T Op Loc Ret} {t : T} {op : Op}
    {l : Loc} {r : Ret × σ} (hidle : c.phase t = .idle)
    (hfirst : M.first op c.shared = some (.inr l)) (hsecond : M.second op l c.shared = some r) :
    ∃ c', exec M.move c [.call t op, .step t, .step t, .ret t] = some c' ∧ c'.phase t = .idle ∧
      c'.shared = r.2 ∧ c'.log = c.log ++ [⟨c.calls, op, r.1⟩] := by
  refine ⟨?c, ?_, ?_, ?_, ?_⟩
  case refine_1 =>
    simp only [exec_cons, exec_nil, TwoStep.move, hidle, Option.bind_some, Conc.setPhase,
      Function.update_self, hfirst, hsecond, Option.map_some, Conc.finish]
    rfl
  all_goals simp

/-! ## Linearizations -/

/-- `order` explains what the threads did from `s₀` to `c`: the operations of `order`, run
    whole one after the other, give the results the calls got and the shared state of `c`;
    every call that returned is in it, with the result it returned, none twice; and a call that
    returned before another began comes before it. -/
structure Linearization (M : TwoStep σ Op Loc Ret) (s₀ : σ) (c : Conc σ T Op Loc Ret)
    (order : List (Done Op Ret)) : Prop where
  sequential : M.sequential s₀ (order.map Done.op) = some (order.map Done.ret, c.shared)
  once : (order.map Done.id).Nodup
  called : ∀ d ∈ order, Event.call d.id d.op ∈ c.history
  returned : ∀ k r, Event.ret k r ∈ c.history → ∃ d ∈ order, d.id = k ∧ d.ret = r
  realTime : ∀ k r k' op', [Event.ret k r, Event.call k' op'].Sublist c.history →
    k' ∈ order.map Done.id → [k, k'].Sublist (order.map Done.id)

omit [DecidableEq T] in
theorem pair_sublist_snoc {α : Type} {a b x : α} {l : List α} :
    [a, b].Sublist (l ++ [x]) ↔ [a, b].Sublist l ∨ (a ∈ l ∧ b = x) := by
  constructor
  · intro h
    obtain ⟨l₁, l₂, he, h₁, h₂⟩ := List.sublist_append_iff.1 h
    match l₁, l₂ with
    | [], [_, _] => simpa using h₂.length_le
    | [_], [_] =>
      simp only [List.cons_append, List.nil_append, List.cons.injEq] at he
      obtain ⟨rfl, rfl, _⟩ := he
      exact Or.inr ⟨List.singleton_sublist.1 h₁, by simpa using h₂⟩
    | [_, _], [] => exact Or.inl (by simpa [he] using h₁)
  · rintro (h | ⟨ha, rfl⟩)
    · exact h.trans (List.sublist_append_left _ _)
    · exact (List.singleton_sublist.2 ha).append (List.Sublist.refl [b])

/-- The number of the call a thread is in. -/
def Phase.id : Phase Op Loc Ret → Option Nat
  | .idle => none
  | .called k _ => some k
  | .found k _ _ => some k
  | .finished k _ _ => some k

/-- The invariant behind linearizability: the log is a linearization so far, and each thread's
    phase agrees with the history, the log and the shared state. -/
structure Conc.Ok (M : TwoStep σ Op Loc Ret) (I : σ → Prop) (s₀ : σ)
    (c : Conc σ T Op Loc Ret) : Prop where
  inv : I c.shared
  lin : Linearization M s₀ c c.log
  called : ∀ t k op, c.phase t = .called k op → .call k op ∈ c.history ∧ k ∉ c.log.map Done.id
  found : ∀ t k op l, c.phase t = .found k op l →
    .call k op ∈ c.history ∧ k ∉ c.log.map Done.id ∧ M.first op c.shared = some (.inr l)
  finished : ∀ t k op r, c.phase t = .finished k op r → ⟨k, op, r⟩ ∈ c.log
  one : ∀ t t' k, (c.phase t).id = some k → (c.phase t').id = some k → t = t'
  begun : ∀ k op, .call k op ∈ c.history → k < c.calls
  phase_lt : ∀ t k, (c.phase t).id = some k → k < c.calls
  before : ∀ k r k' op', [Event.ret k r, Event.call k' op'].Sublist c.history →
    k ∈ c.log.map Done.id

namespace Conc

omit [DecidableEq T] in
theorem ok_init (M : TwoStep σ Op Loc Ret) {I : σ → Prop} {s₀ : σ} (h : I s₀) :
    (Conc.init s₀ : Conc σ T Op Loc Ret).Ok M I s₀ where
  inv := h
  lin := ⟨rfl, List.nodup_nil, by simp [init], by simp [init], by simp [init]⟩
  called := by simp [init]
  found := by simp [init]
  finished := by simp [init]
  one := by simp [init, Phase.id]
  begun := by simp [init]
  phase_lt := by simp [init, Phase.id]
  before := by simp [init]

variable {M : TwoStep σ Op Loc Ret} {I : σ → Prop} {s₀ : σ} {c c' : Conc σ T Op Loc Ret}

/-- What the invariant asks of the phase of one thread. -/
def Agrees (M : TwoStep σ Op Loc Ret) (c : Conc σ T Op Loc Ret) : Phase Op Loc Ret → Prop
  | .idle => True
  | .called k op => .call k op ∈ c.history ∧ k ∉ c.log.map Done.id
  | .found k op l =>
    .call k op ∈ c.history ∧ k ∉ c.log.map Done.id ∧ M.first op c.shared = some (.inr l)
  | .finished k op r => ⟨k, op, r⟩ ∈ c.log

omit [DecidableEq T] in
theorem Ok.agrees (h : c.Ok M I s₀) (t : T) : c.Agrees M (c.phase t) := by
  cases hp : c.phase t with
  | idle => trivial
  | called k op => exact h.called t k op hp
  | found k op l => exact h.found t k op l hp
  | finished k op r => exact h.finished t k op r hp

omit [DecidableEq T] in
/-- A phase goes on agreeing while history and log grow, unless the log gets its own call, and
    while what was found stays found. -/
theorem Agrees.mono {p : Phase Op Loc Ret} (h : c.Agrees M p) (hhistory : c.history ⊆ c'.history)
    (hlog : c.log ⊆ c'.log)
    (hnew : ∀ k, p.id = some k → k ∉ c.log.map Done.id → k ∉ c'.log.map Done.id)
    (hkeep : ∀ op l, M.first op c.shared = some (.inr l) → M.first op c'.shared = some (.inr l)) :
    c'.Agrees M p := by
  cases p with
  | idle => trivial
  | called k op => exact ⟨hhistory h.1, hnew k rfl h.2⟩
  | found k op l => exact ⟨hhistory h.1, hnew k rfl h.2.1, hkeep op l h.2.2⟩
  | finished k op r => exact hlog h

/-- The invariant after thread `t` has gone on to phase `p`: everything about the other threads
    follows from what they agreed with before. -/
theorem Ok.moved (h : c.Ok M I s₀) {t : T} {p : Phase Op Loc Ret}
    (hphase : c'.phase = Function.update c.phase t p) (hinv : I c'.shared)
    (hlin : Linearization M s₀ c' c'.log) (hp : c'.Agrees M p)
    (hid : ∀ k, p.id = some k → k < c'.calls ∧ ∀ t' ≠ t, (c.phase t').id ≠ some k)
    (hothers : ∀ t' ≠ t, c'.Agrees M (c.phase t')) (hcalls : c.calls ≤ c'.calls)
    (hbegun : ∀ k op, .call k op ∈ c'.history → k < c'.calls)
    (hbefore : ∀ k r k' op', [Event.ret k r, Event.call k' op'].Sublist c'.history →
      k ∈ c'.log.map Done.id) : c'.Ok M I s₀ := by
  have hself : c'.phase t = p := by rw [hphase, Function.update_self]
  have hother : ∀ t' ≠ t, c'.phase t' = c.phase t' := fun t' ht => by
    rw [hphase, Function.update_of_ne ht]
  have hagrees : ∀ t', c'.Agrees M (c'.phase t') := by
    intro t'
    by_cases ht : t' = t
    · rwa [ht, hself]
    · rw [hother t' ht]
      exact hothers t' ht
  refine ⟨hinv, hlin, ?_, ?_, ?_, ?_, hbegun, ?_, hbefore⟩
  · intro t' k op hp'
    have ha := hagrees t'
    rwa [hp'] at ha
  · intro t' k op l hp'
    have ha := hagrees t'
    rwa [hp'] at ha
  · intro t' k op r hp'
    have ha := hagrees t'
    rwa [hp'] at ha
  · intro t₁ t₂ k h₁ h₂
    by_cases ht₁ : t₁ = t <;> by_cases ht₂ : t₂ = t
    · rw [ht₁, ht₂]
    · rw [ht₁, hself] at h₁
      rw [hother t₂ ht₂] at h₂
      exact absurd h₂ ((hid k h₁).2 t₂ ht₂)
    · rw [hother t₁ ht₁] at h₁
      rw [ht₂, hself] at h₂
      exact absurd h₁ ((hid k h₂).2 t₁ ht₁)
    · rw [hother t₁ ht₁] at h₁
      rw [hother t₂ ht₂] at h₂
      exact h.one t₁ t₂ k h₁ h₂
  · intro t' k hk
    by_cases ht : t' = t
    · rw [ht, hself] at hk
      exact (hid k hk).1
    · rw [hother t' ht] at hk
      exact Nat.lt_of_lt_of_le (h.phase_lt t' k hk) hcalls

omit [DecidableEq T] in
/-- No other thread is in the same call. -/
theorem Ok.alone (h : c.Ok M I s₀) {t : T} {k : Nat} (hid : (c.phase t).id = some k) :
    ∀ t' ≠ t, (c.phase t').id ≠ some k :=
  fun t' ht hk => ht (h.one t' t k hk hid)

/-- Beginning a call keeps the invariant: its number is new. -/
theorem Ok.begin (h : c.Ok M I s₀) {t : T} (op : Op) :
    ({ c.setPhase t (.called c.calls op) with
        calls := c.calls + 1, history := c.history ++ [.call c.calls op] } :
      Conc σ T Op Loc Ret).Ok M I s₀ := by
  have hnew : c.calls ∉ c.log.map Done.id := fun hm => by
    obtain ⟨d, hd, hk⟩ := List.mem_map.1 hm
    exact absurd (h.begun _ _ (h.lin.called d hd)) (by omega)
  refine h.moved rfl h.inv ⟨h.lin.sequential, h.lin.once, ?_, ?_, ?_⟩ ⟨by simp, hnew⟩ ?_
    (fun t' _ => (h.agrees t').mono (List.subset_append_left _ _) (List.Subset.refl _)
      (fun _ _ hk => hk) fun _ _ hl => hl) (Nat.le_succ _) ?_ ?_
  · exact fun d hd => List.mem_append_left _ (h.lin.called d hd)
  · intro k r hr
    simp only [List.mem_append, List.mem_singleton, reduceCtorEq, or_false] at hr
    exact h.lin.returned k r hr
  · intro k r k' op' hs hk'
    rcases pair_sublist_snoc.1 hs with hs | ⟨_, he⟩
    · exact h.lin.realTime k r k' op' hs hk'
    · cases he
      exact absurd hk' hnew
  · rintro k hk
    obtain rfl : c.calls = k := Option.some.inj hk
    exact ⟨Nat.lt_succ_self _, fun t' _ hk' => absurd (h.phase_lt t' _ hk') (Nat.lt_irrefl _)⟩
  · intro k op' hk
    simp only [List.mem_append, List.mem_singleton, Event.call.injEq] at hk
    rcases hk with hk | ⟨rfl, _⟩
    · exact Nat.lt_succ_of_lt (h.begun k op' hk)
    · exact Nat.lt_succ_self _
  · intro k r k' op' hs
    rcases pair_sublist_snoc.1 hs with hs | ⟨hr, _⟩
    · exact h.before k r k' op' hs
    · obtain ⟨d, hd, rfl, _⟩ := h.lin.returned k r hr
      exact List.mem_map_of_mem hd

/-- Looking changes only the phase of the thread that looks. -/
theorem Ok.look (h : c.Ok M I s₀) {t : T} {k : Nat} {op : Op} {l : Loc}
    (hp : c.phase t = .called k op) (hl : M.first op c.shared = some (.inr l)) :
    (c.setPhase t (.found k op l)).Ok M I s₀ := by
  have hid : (c.phase t).id = some k := by rw [hp]; rfl
  obtain ⟨hcall, hnew⟩ := h.called t k op hp
  refine h.moved rfl h.inv
    ⟨h.lin.sequential, h.lin.once, h.lin.called, h.lin.returned, h.lin.realTime⟩
    ⟨hcall, hnew, hl⟩ ?_ (fun t' _ => (h.agrees t').mono (List.Subset.refl _) (List.Subset.refl _)
      (fun _ _ hk => hk) fun _ _ hl => hl) (Nat.le_refl _) h.begun h.before
  rintro k' hk
  obtain rfl : k = k' := Option.some.inj hk
  exact ⟨h.phase_lt t k hid, h.alone hid⟩

/-- The last atomic step of a call extends the linearization by that call. -/
theorem Ok.finish (h : c.Ok M I s₀) {t : T} {k : Nat} {op : Op} {r : Ret × σ}
    (hid : (c.phase t).id = some k) (hcall : .call k op ∈ c.history)
    (hnew : k ∉ c.log.map Done.id) (hwhole : M.whole op c.shared = some r) (hinv : I r.2)
    (hkeep : ∀ op' l', M.first op' c.shared = some (.inr l') → M.first op' r.2 = some (.inr l')) :
    (c.finish t k op r).Ok M I s₀ := by
  have hmap : (c.finish t k op r).log.map Done.id = c.log.map Done.id ++ [k] := by
    simp [Conc.finish]
  refine h.moved rfl hinv ⟨?_, ?_, ?_, ?_, ?_⟩ (List.mem_append_right _ (List.mem_singleton_self _))
    ?_ (fun t' ht => (h.agrees t').mono (List.Subset.refl _) (List.subset_append_left _ _) ?_ hkeep)
    (Nat.le_refl _) h.begun ?_
  · simp only [Conc.finish, List.map_append, List.map_cons, List.map_nil]
    exact TwoStep.sequential_snoc h.lin.sequential hwhole
  · rw [hmap]
    exact List.nodup_append.2 ⟨h.lin.once, List.nodup_singleton k, by
      intro a ha b hb he
      rw [List.mem_singleton] at hb
      exact hnew (hb ▸ he ▸ ha)⟩
  · intro d hd
    simp only [Conc.finish, List.mem_append, List.mem_singleton] at hd
    rcases hd with hd | rfl
    · exact h.lin.called d hd
    · exact hcall
  · intro k' r' hr
    obtain ⟨d, hd, he⟩ := h.lin.returned k' r' hr
    exact ⟨d, List.mem_append_left _ hd, he⟩
  · intro k₁ r₁ k₂ op₂ hs hk₂
    rw [hmap] at hk₂ ⊢
    rcases List.mem_append.1 hk₂ with hk₂ | hk₂
    · exact (h.lin.realTime k₁ r₁ k₂ op₂ hs hk₂).trans (List.sublist_append_left _ _)
    · exact pair_sublist_snoc.2 (Or.inr ⟨h.before k₁ r₁ k₂ op₂ hs, List.mem_singleton.1 hk₂⟩)
  · rintro k' hk
    obtain rfl : k = k' := Option.some.inj hk
    exact ⟨h.phase_lt t k hid, h.alone hid⟩
  · intro k' hk' hk
    rw [hmap, List.mem_append, List.mem_singleton, not_or]
    exact ⟨hk, fun he => h.alone hid t' ht (he ▸ hk')⟩
  · intro k₁ r₁ k₂ op₂ hs
    rw [hmap]
    exact List.mem_append_left _ (h.before k₁ r₁ k₂ op₂ hs)

/-- Returning a result that is already in the log. -/
theorem Ok.ret (h : c.Ok M I s₀) {t : T} {k : Nat} {op : Op} {r : Ret}
    (hp : c.phase t = .finished k op r) :
    ({ c.setPhase t .idle with history := c.history ++ [.ret k r] } :
      Conc σ T Op Loc Ret).Ok M I s₀ := by
  have hpair : ∀ {k₁ : Nat} {r₁ : Ret} {k₂ : Nat} {op₂ : Op},
      [Event.ret k₁ r₁, Event.call k₂ op₂].Sublist (c.history ++ [.ret k r]) →
      [Event.ret k₁ r₁, Event.call k₂ op₂].Sublist c.history := by
    intro k₁ r₁ k₂ op₂ hs
    rcases pair_sublist_snoc.1 hs with hs | ⟨_, he⟩
    · exact hs
    · cases he
  refine h.moved rfl h.inv ⟨h.lin.sequential, h.lin.once, ?_, ?_, ?_⟩ trivial ?_
    (fun t' _ => (h.agrees t').mono (List.subset_append_left _ _) (List.Subset.refl _)
      (fun _ _ hk => hk) fun _ _ hl => hl) (Nat.le_refl _) ?_ ?_
  · exact fun d hd => List.mem_append_left _ (h.lin.called d hd)
  · intro k' r' hr
    simp only [List.mem_append, List.mem_singleton, Event.ret.injEq] at hr
    rcases hr with hr | ⟨rfl, rfl⟩
    · exact h.lin.returned k' r' hr
    · exact ⟨_, h.finished t _ op _ hp, rfl, rfl⟩
  · exact fun k₁ r₁ k₂ op₂ hs => h.lin.realTime k₁ r₁ k₂ op₂ (hpair hs)
  · intro k' hk
    cases hk
  · intro k' op' hk
    simp only [List.mem_append, List.mem_singleton, reduceCtorEq, or_false] at hk
    exact h.begun k' op' hk
  · exact fun k₁ r₁ k₂ op₂ hs => h.before k₁ r₁ k₂ op₂ (hpair hs)

/-- Every move keeps the invariant. -/
theorem Ok.move (hM : M.Stable I) (h : c.Ok M I s₀) {m : Move T Op}
    (hm : M.move c m = some c') : c'.Ok M I s₀ := by
  obtain ⟨t, op, rfl, hp, rfl⟩ | ⟨t, k, op, l, rfl, hp, hl, rfl⟩ | ⟨t, k, op, r, rfl, hp, hr, rfl⟩ |
    ⟨t, k, op, l, r, rfl, hp, hr, rfl⟩ | ⟨t, k, op, r, rfl, hp, rfl⟩ := TwoStep.move_cases hm
  · exact h.begin op
  · exact h.look hp hl
  · obtain ⟨hc, hn⟩ := h.called t k op hp
    exact h.finish (by rw [hp]; rfl) hc hn (TwoStep.whole_of_first hr)
      (hM.first_inv h.inv hr) fun op' l' hl' => hM.first_found h.inv hl' hr
  · obtain ⟨hc, hn, hl⟩ := h.found t k op l hp
    exact h.finish (by rw [hp]; rfl) hc hn ((TwoStep.whole_of_second hl).trans hr)
      (hM.second_inv h.inv hl hr) fun op' l' hl' => hM.second_found h.inv hl' hl hr
  · exact h.ret hp

/-- **Every run is linearizable**, by the order of the last atomic steps. -/
theorem linearization_of_run (hM : M.Stable I) (hs : I s₀) {ms : List (Move T Op)}
    {c : Conc σ T Op Loc Ret} (h : exec M.move (Conc.init s₀) ms = some c) : c.Ok M I s₀ :=
  exec_invariant (fun _ _ _ hok hm => Ok.move hM hok hm) (ok_init M hs) h

end Conc

end Lib
