import EventServer.Office.Refinement

/-
  Requests that do not meet.

  Let `S` be a set of events. Requests within `S` are answered from what the office has of `S`, and
  requests that spare `S` leave that alone; so among requests that are all of one or the other kind,
  those within `S` get the replies that they would get without the others.
-/

namespace EventServer

/-! ## One request -/

/-- The request looks at events of `S` only; a list looks at all events. -/
def Ask.Within (S : Set ℕ) : Ask → Prop
  | .create id _ _ => id ∈ S
  | .reserve id _ => id ∈ S
  | .display id => id ∈ S
  | .list => S = Set.univ

/-- The two offices have the same of `S`. -/
structure Office.Agree (S : Set ℕ) (o o' : Office) : Prop where
  find : ∀ id ∈ S, o.find id = o'.find id
  all : S = Set.univ → o = o'

namespace Office

variable {S : Set ℕ} {o o' : Office} {ask : Ask}

/-- Both offices get the venue. -/
theorem Agree.add (h : o.Agree S o') {id : ℕ} {v : Venue} (hv : o.find id = none)
    (hv' : o'.find id = none) : (o.add id v hv).Agree S (o'.add id v hv') := by
  refine ⟨fun id' hid' => ?_, fun hS => ?_⟩
  · rw [find_add, find_add, h.find id' hid']
  · obtain rfl := h.all hS
    rfl

theorem Agree.put (h : o.Agree S o') {id : ℕ} {v w : Venue} (hw : o.find id = some w)
    (hw' : o'.find id = some w) : (o.put id v).Agree S (o'.put id v) := by
  refine ⟨fun id' hid' => ?_, fun hS => ?_⟩
  · rw [find_put hw, find_put hw', h.find id' hid']
  · obtain rfl := h.all hS
    rfl

/-- **A request within `S`** is answered alike, and leaves the offices alike. -/
theorem Agree.serve (h : o.Agree S o') (hask : ask.Within S) :
    (o.serve ask).1 = (o'.serve ask).1 ∧ (o.serve ask).2.Agree S (o'.serve ask).2 := by
  cases ask with
  | create id rows cols =>
    have hfind := h.find id hask
    by_cases hnone : o.find id = none
    · rw [serve_create rows cols hnone, serve_create rows cols (hfind ▸ hnone)]
      exact ⟨rfl, h.add hnone (hfind ▸ hnone)⟩
    · have hrefused : o.serve (.create id rows cols) = (.refused, o) := dif_neg hnone
      have hrefused' : o'.serve (.create id rows cols) = (.refused, o') := dif_neg (hfind ▸ hnone)
      rw [hrefused, hrefused']
      exact ⟨rfl, h⟩
  | reserve id seats =>
    have hfind := h.find id hask
    cases hv : o.find id with
    | none =>
      have hv' : o'.find id = none := hfind ▸ hv
      simp only [Office.serve, hv, hv']
      exact ⟨trivial, h⟩
    | some v =>
      have hv' : o'.find id = some v := hfind ▸ hv
      by_cases hfree : seats ⊆ v.booked.free
      · rw [serve_reserve hv hfree, serve_reserve hv' hfree]
        exact ⟨rfl, h.put hv hv'⟩
      · simp only [Office.serve, hv, hv']
        rw [dif_neg hfree, dif_neg hfree]
        exact ⟨rfl, h⟩
  | display id =>
    have hfind := h.find id hask
    cases hv : o.find id with
    | none =>
      have hv' : o'.find id = none := hfind ▸ hv
      simp only [Office.serve, hv, hv']
      exact ⟨trivial, h⟩
    | some v =>
      have hv' : o'.find id = some v := hfind ▸ hv
      simp only [Office.serve, hv, hv']
      exact ⟨trivial, h⟩
  | list =>
    obtain rfl := h.all hask
    exact ⟨rfl, h⟩

end Office

/-! ## One call -/

variable {S : Set ℕ} {o o' : Office} {task : Task}

theorem Office.Agree.call (h : o.Agree S o') (htask : task.call.ask.Within S) :
    (task.serve o).1 = (task.serve o').1 ∧ (task.serve o).2.Agree S (task.serve o').2 := by
  cases hh : task.call.hindered task.env with
  | true =>
    rw [serve_hindered hh, serve_hindered hh]
    exact ⟨rfl, h⟩
  | false =>
    rw [serve_free hh, serve_free hh]
    exact h.serve htask

end EventServer
