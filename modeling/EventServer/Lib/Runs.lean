import Mathlib.Data.List.Basic
import Mathlib.Data.List.Perm.Basic

/-
  Runs of a labelled transition system.

  A system is a partial step function `σ → ℓ → Option σ`; a label resolves every choice of the
  step (which thread moves, what the environment answers). `exec` runs a list of labels.
  `exec_invariant` is the induction every safety result uses. `along_iff_guarded` is the form
  used when a property can be lost: if guarded steps keep it and unguarded steps lose it, then
  it holds in every state of a run exactly when every step of the run is guarded. `Throughout`
  is for what the single steps do: there a step may also end the run. `foldl_perm` reorders total
  steps: if two neighbouring steps may be exchanged up to a relation, so may all of them.
-/

namespace Lib

universe u v

variable {σ : Type u} {ℓ : Type v} (step : σ → ℓ → Option σ)

/-- The state after the labels `ls`, when every step is defined. -/
def exec : σ → List ℓ → Option σ
  | s, [] => some s
  | s, l :: ls => (step s l).bind fun s' => exec s' ls

/-- `P` holds in `s` and in every state that running `ls` from `s` passes through. -/
def Along (P : σ → Prop) : σ → List ℓ → Prop
  | s, [] => P s
  | s, l :: ls => P s ∧ ∀ s', step s l = some s' → Along P s' ls

/-- Every step that running `ls` from `s` takes meets the condition `G` on the state before
    the step and the label. -/
def Guarded (G : σ → ℓ → Prop) : σ → List ℓ → Prop
  | _, [] => True
  | s, l :: ls => ∀ s', step s l = some s' → G s l ∧ Guarded G s' ls

/-- `Q` holds of every state and label that running `ls` from `s` comes to, whether or not the step
    is defined there. -/
def Throughout (Q : σ → ℓ → Prop) : σ → List ℓ → Prop
  | _, [] => True
  | s, l :: ls => Q s l ∧ ∀ s', step s l = some s' → Throughout Q s' ls

instance (G : σ → ℓ → Prop) [∀ s l, Decidable (G s l)] :
    ∀ (s : σ) (ls : List ℓ), Decidable (Guarded step G s ls)
  | _, [] => isTrue trivial
  | s, l :: ls =>
    match hl : step s l with
    | none => isTrue fun _ hs' => nomatch hl.symm.trans hs'
    | some s' =>
      have : Decidable (Guarded step G s' ls) := instDecidableGuarded G s' ls
      decidable_of_iff (G s l ∧ Guarded step G s' ls)
        ⟨fun h _ hs'' => Option.some.inj (hl.symm.trans hs'') ▸ h, fun h => h s' hl⟩

variable {step}

@[simp] theorem exec_nil (s : σ) : exec step s [] = some s := rfl

theorem exec_cons (s : σ) (l : ℓ) (ls : List ℓ) :
    exec step s (l :: ls) = (step s l).bind fun s' => exec step s' ls := rfl

theorem exec_cons_eq_some {s t : σ} {l : ℓ} {ls : List ℓ} :
    exec step s (l :: ls) = some t ↔ ∃ s', step s l = some s' ∧ exec step s' ls = some t := by
  rw [exec_cons, Option.bind_eq_some_iff]

theorem exec_append (s : σ) (ls ms : List ℓ) :
    exec step s (ls ++ ms) = (exec step s ls).bind fun s' => exec step s' ms := by
  induction ls generalizing s with
  | nil => rfl
  | cons l ls ih =>
    rw [List.cons_append, exec_cons, exec_cons, Option.bind_assoc]
    exact congrArg _ (funext fun s' => ih s')

theorem exec_append_of_eq {s t u : σ} {ls ms : List ℓ} (h : exec step s ls = some t)
    (h' : exec step t ms = some u) : exec step s (ls ++ ms) = some u := by
  rw [exec_append, h]
  exact h'

/-- An invariant of the steps holds after every run. -/
theorem exec_invariant {I : σ → Prop} (hstep : ∀ s l s', I s → step s l = some s' → I s')
    {s t : σ} {ls : List ℓ} (hs : I s) (h : exec step s ls = some t) : I t := by
  induction ls generalizing s with
  | nil => exact Option.some.inj h ▸ hs
  | cons l ls ih =>
    obtain ⟨s', hl, h'⟩ := exec_cons_eq_some.1 h
    exact ih (hstep s l s' hs hl) h'

/-- The same, when the steps keep `I` only for labels that satisfy `A`. -/
theorem exec_invariant_of {I : σ → Prop} {A : ℓ → Prop}
    (hstep : ∀ s l s', A l → I s → step s l = some s' → I s')
    {s t : σ} {ls : List ℓ} (hA : ∀ l ∈ ls, A l) (hs : I s) (h : exec step s ls = some t) :
    I t := by
  induction ls generalizing s with
  | nil => exact Option.some.inj h ▸ hs
  | cons l ls ih =>
    obtain ⟨s', hl, h'⟩ := exec_cons_eq_some.1 h
    exact ih (fun m hm => hA m (List.mem_cons_of_mem _ hm))
      (hstep s l s' (hA l (by simp)) hs hl) h'

/-- What guarded steps keep holds after a run of them. -/
theorem exec_guarded {J : σ → Prop} {G : σ → ℓ → Prop} {A : ℓ → Prop}
    (hkeep : ∀ s l s', A l → J s → step s l = some s' → G s l → J s')
    {s t : σ} {ls : List ℓ} (hA : ∀ l ∈ ls, A l) (hs : J s) (hg : Guarded step G s ls)
    (h : exec step s ls = some t) : J t := by
  induction ls generalizing s with
  | nil => exact Option.some.inj h ▸ hs
  | cons l ls ih =>
    obtain ⟨s', hl, h'⟩ := exec_cons_eq_some.1 h
    obtain ⟨hgl, hgs⟩ := hg s' hl
    exact ih (fun m hm => hA m (List.mem_cons_of_mem _ hm))
      (hkeep s l s' (hA l (List.mem_cons_self ..)) hs hl hgl) hgs h'

theorem Along.head {P : σ → Prop} {s : σ} {ls : List ℓ} (h : Along step P s ls) : P s := by
  cases ls with
  | nil => exact h
  | cons l ls => exact h.1

/-- **A property that exactly the guarded steps keep.** `J` is what guarded steps preserve; it
    gives `P`. A step outside the guard, taken from a state with `J`, ends in a state without
    `P`. Then `P` holds all along a run iff all its steps are guarded. The labels are those that
    satisfy `A`. -/
theorem along_iff_guarded_of {P J : σ → Prop} {G : σ → ℓ → Prop} {A : ℓ → Prop}
    (hP : ∀ s, J s → P s)
    (hkeep : ∀ s l s', A l → J s → step s l = some s' → G s l → J s')
    (hlose : ∀ s l s', A l → J s → step s l = some s' → ¬ G s l → ¬ P s')
    {s : σ} {ls : List ℓ} (hA : ∀ l ∈ ls, A l) (hs : J s) :
    Along step P s ls ↔ Guarded step G s ls := by
  induction ls generalizing s with
  | nil => exact ⟨fun _ => trivial, fun _ => hP s hs⟩
  | cons l ls ih =>
    have hAl := hA l (List.mem_cons_self ..)
    have hAls : ∀ l ∈ ls, A l := fun m hm => hA m (List.mem_cons_of_mem _ hm)
    constructor
    · rintro ⟨_, hls⟩ s' hl
      have hg : G s l := by
        by_contra hng
        exact hlose s l s' hAl hs hl hng (hls s' hl).head
      exact ⟨hg, (ih hAls (hkeep s l s' hAl hs hl hg)).1 (hls s' hl)⟩
    · intro hg
      refine ⟨hP s hs, fun s' hl => ?_⟩
      exact (ih hAls (hkeep s l s' hAl hs hl (hg s' hl).1)).2 (hg s' hl).2

/-- The same for all labels. -/
theorem along_iff_guarded {P J : σ → Prop} {G : σ → ℓ → Prop}
    (hP : ∀ s, J s → P s)
    (hkeep : ∀ s l s', J s → step s l = some s' → G s l → J s')
    (hlose : ∀ s l s', J s → step s l = some s' → ¬ G s l → ¬ P s')
    {s : σ} {ls : List ℓ} (hs : J s) : Along step P s ls ↔ Guarded step G s ls :=
  along_iff_guarded_of (A := fun _ => True) hP (fun s l s' _ => hkeep s l s')
    (fun s l s' _ => hlose s l s') (fun _ _ => trivial) hs

/-- **A property that is lost for good.** Guarded steps keep `J`; the first step outside the guard
    leads to `L`, which no step leaves. Then a run ends in `J` or in `L` according to whether all
    its steps are guarded. -/
theorem exec_guarded_or {J L : σ → Prop} {G : σ → ℓ → Prop} {A : ℓ → Prop}
    (hkeep : ∀ s l s', A l → J s → step s l = some s' → G s l → J s')
    (hlose : ∀ s l s', A l → J s → step s l = some s' → ¬ G s l → L s')
    (hlost : ∀ s l s', A l → L s → step s l = some s' → L s')
    {s t : σ} {ls : List ℓ} (hA : ∀ l ∈ ls, A l) (hs : J s) (h : exec step s ls = some t) :
    Guarded step G s ls ∧ J t ∨ ¬ Guarded step G s ls ∧ L t := by
  induction ls generalizing s with
  | nil => exact Or.inl ⟨trivial, Option.some.inj h ▸ hs⟩
  | cons l ls ih =>
    obtain ⟨s', hl, h'⟩ := exec_cons_eq_some.1 h
    have hAl := hA l (List.mem_cons_self ..)
    have hAls : ∀ l ∈ ls, A l := fun m hm => hA m (List.mem_cons_of_mem _ hm)
    by_cases hg : G s l
    · obtain ⟨hgs, ht⟩ | ⟨hgs, ht⟩ := ih hAls (hkeep s l s' hAl hs hl hg) h'
      · refine Or.inl ⟨fun s'' hs'' => ?_, ht⟩
        obtain rfl : s' = s'' := Option.some.inj (hl.symm.trans hs'')
        exact ⟨hg, hgs⟩
      · exact Or.inr ⟨fun hall => hgs (hall s' hl).2, ht⟩
    · exact Or.inr ⟨fun hall => hg (hall s' hl).1,
        exec_invariant_of hlost hAls (hlose s l s' hAl hs hl hg) h'⟩

/-- What holds of every step on its own holds throughout a run. -/
theorem throughout_iff {I : σ → Prop} {Q G : σ → ℓ → Prop}
    (hkeep : ∀ s l s', I s → step s l = some s' → I s') (h : ∀ s l, I s → (Q s l ↔ G s l))
    {s : σ} {ls : List ℓ} (hs : I s) : Throughout step Q s ls ↔ Throughout step G s ls := by
  induction ls generalizing s with
  | nil => exact Iff.rfl
  | cons l ls ih =>
    refine and_congr (h s l hs) (forall_congr' fun s' => ?_)
    exact imp_congr_right fun hl => ih (hkeep s l s' hs hl)

/-! ## Reordering -/

section Reordering

variable {next : σ → ℓ → σ} {A : ℓ → Prop} {I : Nat → σ → Prop} {R : σ → σ → Prop} {D : ℓ → ℓ → Prop}

/-- Steps that keep a relation keep it over a whole run. `I n` is what the run needs of a state
    with `n` steps to go. -/
theorem foldl_related (hkeep : ∀ n s a, A a → I (n + 1) s → I n (next s a))
    (hcong : ∀ n s t a, A a → I (n + 1) s → R s t → R (next s a) (next t a)) :
    ∀ {as : List ℓ} {s t : σ}, (∀ a ∈ as, A a) → I as.length s → R s t →
      R (as.foldl next s) (as.foldl next t)
  | [], _, _, _, _, hR => hR
  | a :: as, _, _, hA, hI, hR => by
      have ha := hA a (List.mem_cons_self ..)
      rw [List.foldl_cons, List.foldl_cons]
      exact foldl_related hkeep hcong (fun b hb => hA b (List.mem_cons_of_mem _ hb))
        (hkeep _ _ a ha hI) (hcong _ _ _ a ha hI hR)

/-- **Independent steps can be reordered.** If two steps that are independent (`D`) end in related
    states in either order, then so does every order of pairwise independent steps. -/
theorem foldl_perm (hrefl : ∀ s, R s s) (htrans : ∀ s t u, R s t → R t u → R s u)
    (hsymm : ∀ a b, D a b → D b a)
    (hkeep : ∀ n s a, A a → I (n + 1) s → I n (next s a))
    (hcong : ∀ n s t a, A a → I (n + 1) s → R s t → R (next s a) (next t a))
    (hswap : ∀ n s a b, A a → A b → D a b → I (n + 2) s → R (next (next s a) b) (next (next s b) a))
    {as bs : List ℓ} (hp : as.Perm bs) :
    ∀ {s : σ}, (∀ a ∈ as, A a) → as.Pairwise D → I as.length s →
      R (as.foldl next s) (bs.foldl next s) := by
  induction hp with
  | nil => exact fun _ _ _ => hrefl _
  | cons a _ ih =>
    intro s hA hD hI
    exact ih (fun b hb => hA b (List.mem_cons_of_mem _ hb)) (List.pairwise_cons.1 hD).2
      (hkeep _ s a (hA a (List.mem_cons_self ..)) hI)
  | swap a b as =>
    intro s hA hD hI
    have hb := hA b (List.mem_cons_self ..)
    have ha := hA a (List.mem_cons_of_mem _ (List.mem_cons_self ..))
    have hba : D b a := (List.pairwise_cons.1 hD).1 a (List.mem_cons_self ..)
    exact foldl_related hkeep hcong
      (fun c hc => hA c (List.mem_cons_of_mem _ (List.mem_cons_of_mem _ hc)))
      (hkeep _ _ a ha (hkeep _ s b hb hI)) (hswap _ s b a hb ha hba hI)
  | trans hp₁ hp₂ ih₁ ih₂ =>
    intro s hA hD hI
    refine htrans _ _ _ (ih₁ hA hD hI) (ih₂ (fun a ha => hA a (hp₁.mem_iff.2 ha)) ?_ ?_)
    · exact (hp₁.pairwise_iff fun {a b} => hsymm a b).1 hD
    · exact hp₁.length_eq ▸ hI

end Reordering

end Lib
