import EventServer.Lib.Races
import EventServer.Server.Locking

/-
  No races on the seats.

  A thread makes calls, one after the other, and other threads go on at every lock, so what a call
  does depends on what they have done (`CallsInTurn`). As every call follows the lock discipline,
  the threads touch the seats and the counter of an event one at a time and in the order in
  which its mutex goes round, and all calls can come to their ends (`race_free`). It takes only
  that a mutex has one holder; the lock of the list may have several readers, in any order.
-/

namespace EventServer

open Lib

/-- From `s` on, where `is` leads to `s'`. -/
structure RaceFree {ι : Type} [DecidableEq ι] (grants : Crew.Policy ι Lock) (s : Crew ι Lock)
    (is : List ι) (s' : Crew ι Lock) : Prop where
  /-- No two threads are about to touch the same event. -/
  apart : ∀ p i j, s.Next i (.use (.event p)) → s.Next j (.use (.event p)) → i = j
  /-- The mutex goes from the one that touches an event to the next one that does. -/
  ordered : ∀ p i j, i ≠ j → s.Next i (.use (.event p)) → s'.Next j (.use (.event p)) →
    Crew.HandsOver grants s is i j (.event p)
  ends : ∃ js s'', exec (Crew.step grants) s js = some s'' ∧ ∀ i, s''.todo i = []

section Races

variable {ι : Type} [DecidableEq ι] [Fintype ι] {grants : Crew.Policy ι Lock}
  {work : ι → List Access} {s s' : Crew ι Lock} {is is' : List ι}

/-- **No two threads touch the seats of an event at the same time**, whatever calls they make, on
    whatever store, and whichever of them fail. -/
theorem race_free (hgives : grants.Gives) (hmutex : ∀ p, grants.Excludes (.event p))
    (hwork : ∀ i, CallsInTurn (work i))
    (hrun : exec (Crew.step grants) (Crew.start fun i => (work i).map Access.action) is = some s)
    (hrun' : exec (Crew.step grants) s is' = some s') : RaceFree grants s is' s' where
  apart p i j hi hj := Crew.uses_apart (hmutex p) (fun i => (hwork i).disciplined) hrun hi hj
  ordered p i j hij hi hj := by
    have hdisciplined := fun i => (hwork i).disciplined
    have hwhole := exec_append_of_eq hrun hrun'
    exact Crew.handed_over (hmutex p) hrun' (Crew.holds_unique (hmutex p) hrun)
      (Crew.holds_of_use hdisciplined hrun hi) (Crew.holds_of_use hdisciplined hwhole hj) hij
  ends := Crew.finishes hgives (fun i => (hwork i).disciplined) hrun

end Races

/-! ### A reservation and a SHOW -/

/-- What a call does that nothing comes between. -/
theorem callsInTurn_of_run {op : StoreOp} {env : Env} (henv : env.Unlocks) {m : Mem} {code : Int32}
    {w : World} (h : (op.op env).run { mem := m } = .ok (code, w)) : CallsInTurn w.trace := by
  obtain ⟨t, ht, htraced⟩ := wp_run_ok (op.traced_of_run henv { mem := m }) h
  obtain rfl : w.trace = t := ht.trans (List.nil_append t)
  exact ⟨[w.trace], List.flatten_singleton.symm,
    List.forall_mem_singleton.2 ⟨op, env, henv, htraced⟩⟩

/-- A reservation of the only seat of an event, and a SHOW of the event. -/
def bookAndShow : Bool → List Access
  | true => [.acquire .list, .release .list, .acquire (.event 0), .touch 0, .touch 0, .touch 0,
      .release (.event 0)]
  | false => [.acquire .list, .release .list, .acquire (.event 0), .touch 0, .release (.event 0)]

theorem callsInTurn_bookAndShow (i : Bool) : CallsInTurn (bookAndShow i) := by
  have hcreate : ∃ m, runOp (emsCreate {} 7 1 1) freshMem = some ((0, []), m) ∧
      (∃ w, (emsReserve {} 7 1 [1] [1]).run { mem := m } = .ok (0, w) ∧ w.trace = bookAndShow true) ∧
      ∃ w, (emsShow {} 7).run { mem := m } = .ok (0, w) ∧ w.trace = bookAndShow false :=
    ⟨_, rfl, ⟨_, rfl, rfl⟩, ⟨_, rfl, rfl⟩⟩
  obtain ⟨m, -, ⟨w, hreserve, htrace⟩, ⟨w', hshow, htrace'⟩⟩ := hcreate
  cases i with
  | true =>
    have hrun : ((StoreOp.call (.emsReserve 7 ⟨1, [1], [1]⟩)).op {}).run { mem := m } = .ok (0, w) :=
      hreserve
    rw [← htrace]
    exact callsInTurn_of_run ⟨rfl, rfl⟩ hrun
  | false =>
    have hrun : ((StoreOp.call (.emsShow 7)).op {}).run { mem := m } = .ok (0, w') := hshow
    rw [← htrace']
    exact callsInTurn_of_run ⟨rfl, rfl⟩ hrun

/-- The SHOW asks for the mutex while the reservation has it. -/
theorem race_free_two : ∃ s s', exec (Crew.step .exclusive)
      (Crew.start fun i => (bookAndShow i).map Access.action) [true, true, true] = some s ∧
    exec (Crew.step .exclusive) s [false, false, true, true, true, true, false] = some s' ∧
    s.Next true (.use (.event 0)) ∧ s'.Next false (.use (.event 0)) ∧
    RaceFree .exclusive s [false, false, true, true, true, true, false] s' := by
  have hruns : ∃ s s', exec (Crew.step .exclusive)
        (Crew.start fun i => (bookAndShow i).map Access.action) [true, true, true] = some s ∧
      exec (Crew.step .exclusive) s [false, false, true, true, true, true, false] = some s' ∧
      s.Next true (.use (.event 0)) ∧ s'.Next false (.use (.event 0)) :=
    ⟨_, _, rfl, rfl, rfl, rfl⟩
  obtain ⟨s, s', hrun, hrun', htrue, hfalse⟩ := hruns
  exact ⟨s, s', hrun, hrun', htrue, hfalse, race_free Crew.Policy.exclusive_gives
    (fun p => Crew.Policy.exclusive_excludes _) callsInTurn_bookAndShow hrun hrun'⟩

end EventServer
