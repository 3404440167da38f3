import EventServer.Server.Threads

/-
  `ems_create` against its purpose: all or nothing.

  `emsCreate_exact`: whatever the store and whichever of its calls fail, the call gives 0 exactly
  when the id is new and none of them fails, and then the list is the old one with one new event
  behind it (`IsNew`); else it gives 1 and the memory has the blocks it had before
  (`Mem.Restored`). A block that is given back twice stops the program, so a call that ends with
  the blocks of before has given back everything it allocated, each block once.
-/

namespace EventServer

open Lib Op

/-- `e` is an event of the given dimensions that nobody has reserved a seat of. -/
structure IsNew (e : Entry) (id : UInt32) (rows cols : UInt64) : Prop where
  id : e.ev.id = id
  rows : e.ev.rows = rows
  cols : e.ev.cols = cols
  reservations : e.ev.reservations = 0
  cells : ∀ c ∈ e.cells, c = 0

theorem isNew_newEntry (m : Mem) (id : UInt32) (rows cols : UInt64) :
    IsNew (newEntry m id rows cols) id rows cols :=
  ⟨rfl, rfl, rfl, rfl, fun _ hc => List.eq_of_mem_replicate hc⟩

variable {m : Mem} {l : Ptr} {es : List Entry}

/-- **`ems_create` is all or nothing.** -/
theorem emsCreate_exact (h : Rep m l es) (env : Env) (id : UInt32) (rows cols : UInt64) :
    ∃ code m', runOp (emsCreate env id rows cols) m = some ((code, []), m') ∧
      (code = 0 ∨ code = 1) ∧
      (code = 0 ↔ (∀ e ∈ es, e.ev.id ≠ id) ∧ env.lockList = true ∧ env.mallocEvent = true ∧
        env.mutexInit = true ∧ env.callocCells = true ∧ env.mallocNode = true) ∧
      (code = 0 → ∃ e, IsNew e id rows cols ∧ Rep m' l (es ++ [e])) ∧
      (code = 1 → m.Restored m' ∧ Rep m' l es) := by
  obtain ⟨code, w, hrun, hf, hcase⟩ := runOp_of_wp (x := emsCreate env id rows cols)
    (wp_emsCreate_restores (w := { mem := m }) h rows cols)
  have hcond : (findId es id = none ∧ env.lockList = true ∧ env.allocates = true) ↔
      (∀ e ∈ es, e.ev.id ≠ id) ∧ env.lockList = true ∧ env.mallocEvent = true ∧
        env.mutexInit = true ∧ env.callocCells = true ∧ env.mallocNode = true := by
    simp only [findId_eq_none, Env.allocates, Bool.and_eq_true, and_assoc]
  refine ⟨code, w.mem, by rw [hrun, hf], ?_⟩
  rw [← hcond]
  obtain ⟨rfl, hm, hwhy⟩ | ⟨rfl, hnew, hlock, halloc, hrep⟩ := hcase
  · refine ⟨Or.inr rfl, iff_of_false (by decide) ?_, fun h0 => absurd h0 (by decide),
      fun _ => ⟨hm, h.restored hm⟩⟩
    rintro ⟨hnew, hlock, halloc⟩
    simp [hnew, hlock, halloc] at hwhy
  · exact ⟨Or.inl rfl, iff_of_true rfl ⟨hnew, hlock, halloc⟩,
      fun _ => ⟨_, isNew_newEntry m id rows cols, hrep⟩, fun h1 => absurd h1 (by decide)⟩

/-- A call whose last allocation fails, on the store that `ems_init` leaves. -/
theorem emsCreate_exact_sample : ∃ code m',
    runOp (emsCreate { mallocNode := false } 7 2 3) freshMem = some ((code, []), m') ∧
      (code = 0 ∨ code = 1) ∧
      (code = 0 ↔ (∀ e ∈ ([] : List Entry), e.ev.id ≠ 7) ∧ true = true ∧ true = true ∧
        true = true ∧ true = true ∧ false = true) ∧
      (code = 0 → ∃ e, IsNew e 7 2 3 ∧ Rep m' 0 ([] ++ [e])) ∧
      (code = 1 → freshMem.Restored m' ∧ Rep m' 0 []) :=
  emsCreate_exact rep_freshMem { mallocNode := false } 7 2 3

end EventServer
