import Mathlib.Data.List.Basic
import Mathlib.Data.List.GetD

/-
  Lines of a text.

  A text is a list over any alphabet with a newline `nl`. `lines` cuts it behind every newline; what
  is left behind the last one is a line without an end. `lines_induction` is the induction over the
  lines of a text. `pieces` cuts behind every letter with a property.
-/

namespace Lib

variable {α : Type*}

/-- Put a letter in front of the first line. -/
def consLine (a : α) : List (List α) → List (List α)
  | [] => [[a]]
  | l :: ls => (a :: l) :: ls

theorem flatten_consLine (a : α) (ls : List (List α)) :
    (consLine a ls).flatten = a :: ls.flatten := by
  cases ls <;> rfl

variable [DecidableEq α] {nl : α}

/-- The lines of a text, each with the newline that ends it. -/
def lines (nl : α) : List α → List (List α)
  | [] => []
  | a :: text => if a = nl then [a] :: lines nl text else consLine a (lines nl text)

@[simp] theorem lines_nil : lines nl [] = [] := rfl

theorem flatten_lines (nl : α) (text : List α) : (lines nl text).flatten = text := by
  induction text with
  | nil => rfl
  | cons a text ih =>
    rw [lines]
    split
    · rw [List.flatten_cons, ih, List.singleton_append]
    · rw [flatten_consLine, ih]

theorem lines_append_newline {content : List α} (h : nl ∉ content) (rest : List α) :
    lines nl (content ++ nl :: rest) = (content ++ [nl]) :: lines nl rest := by
  induction content with
  | nil => rw [List.nil_append, lines, if_pos rfl, List.nil_append]
  | cons a content ih =>
    rw [List.mem_cons, not_or] at h
    rw [List.cons_append, lines, if_neg fun ha => h.1 ha.symm, ih h.2, consLine, List.cons_append]

theorem lines_of_not_mem {text : List α} (h : nl ∉ text) (hne : text ≠ []) :
    lines nl text = [text] := by
  induction text with
  | nil => exact absurd rfl hne
  | cons a text ih =>
    rw [List.mem_cons, not_or] at h
    rw [lines, if_neg fun ha => h.1 ha.symm]
    cases text with
    | nil => rfl
    | cons b text => rw [ih h.2 (List.cons_ne_nil b text), consLine]

theorem lines_eq_nil {text : List α} : lines nl text = [] ↔ text = [] := by
  constructor
  · intro h
    rw [← flatten_lines nl text, h, List.flatten_nil]
  · rintro rfl
    rfl

/-- A text is empty, or a last line without an end, or a line and a text. -/
theorem lines_induction (nl : α) {P : List α → Prop} (hnil : P [])
    (hlast : ∀ text, nl ∉ text → text ≠ [] → P text)
    (hline : ∀ content rest, nl ∉ content → P rest → P (content ++ nl :: rest))
    (text : List α) : P text := by
  induction hn : text.length using Nat.strongRecOn generalizing text with
  | ind n ih =>
    by_cases hmem : nl ∈ text
    · obtain ⟨content, rest, rfl, hcontent⟩ := List.eq_append_cons_of_mem hmem
      refine hline content rest hcontent (ih rest.length ?_ rest rfl)
      rw [← hn, List.length_append, List.length_cons]
      omega
    · by_cases hne : text = []
      · exact hne ▸ hnil
      · exact hlast text hmem hne

/-! ## Pieces -/

section Pieces

omit [DecidableEq α]

variable (p : α → Prop) [DecidablePred p]

/-- The text cut behind every letter with `p`. -/
def pieces : List α → List (List α)
  | [] => []
  | a :: text => if p a then [a] :: pieces text else consLine a (pieces text)

theorem length_consLine (a : α) (ls : List (List α)) :
    ls.length ≤ (consLine a ls).length ∧ (consLine a ls).length ≤ max 1 ls.length ∧
      0 < (consLine a ls).length := by
  cases ls <;> simp [consLine]

variable {p}

/-- What is read up to a letter with `p` is a piece at least. -/
theorem length_pieces_append {pre : List α} {a : α} (ha : p a) (rest : List α) :
    (pieces p rest).length + 1 ≤ (pieces p (pre ++ a :: rest)).length := by
  induction pre with
  | nil => simp [pieces, ha]
  | cons b pre ih =>
    rw [List.cons_append, pieces]
    split
    · exact Nat.le_succ_of_le ih
    · exact Nat.le_trans ih (length_consLine b _).1

theorem length_pieces_pos {text : List α} (h : text ≠ []) : 0 < (pieces p text).length := by
  cases text with
  | nil => exact absurd rfl h
  | cons a text =>
    rw [pieces]
    split
    · exact Nat.succ_pos _
    · exact (length_consLine a _).2.2

/-- A piece for each letter with `p`, and one more at most. -/
theorem length_pieces_le (text : List α) : (pieces p text).length ≤ text.countP p + 1 := by
  induction text with
  | nil => exact Nat.zero_le _
  | cons a text ih =>
    rw [pieces, List.countP_cons]
    by_cases ha : p a
    · simp only [ha, if_true, List.length_cons, decide_true]
      omega
    · have := (length_consLine a (pieces p text)).2.1
      simp only [ha, if_false, decide_false, Bool.false_eq_true]
      omega

end Pieces

/-! ## Columns -/

section Columns

variable (nl) (p : α → Bool)

/-- What stands in front of, between and behind the separators `nl` of a text, of which only the
    letters with `p` count. -/
def columns : List α → List (List α)
  | [] => [[]]
  | a :: text =>
    if a = nl then [] :: columns text else if p a then consLine a (columns text) else columns text

omit [DecidableEq α] in
/-- Every list is the start of the one at its place. -/
def Starts (xs ys : List (List α)) : Prop := ∀ i, xs.getD i [] <+: ys.getD i []

variable {nl p}

omit [DecidableEq α] in
theorem starts_cons {x y : List α} {xs ys : List (List α)} :
    Starts (x :: xs) (y :: ys) ↔ x <+: y ∧ Starts xs ys := by
  constructor
  · intro h
    exact ⟨h 0, fun i => h (i + 1)⟩
  · rintro ⟨hx, hxs⟩ (_ | i)
    · exact hx
    · exact hxs i

omit [DecidableEq α] in
/-- Nothing, in every place. -/
theorem starts_of_nil {xs : List (List α)} (h : ∀ x ∈ xs, x = []) (ys : List (List α)) :
    Starts xs ys := fun i => by
  have hnil : xs.getD i [] = [] := by
    rw [List.getD_eq_getElem?_getD]
    cases hx : xs[i]? with
    | none => rfl
    | some x => exact h x (List.mem_of_getElem? hx)
  rw [hnil]
  exact List.nil_prefix

omit [DecidableEq α] in
theorem starts_append_nil (ys : List (List α)) : Starts (ys ++ [[]]) ys := by
  induction ys with
  | nil => exact starts_of_nil (by simp) []
  | cons y ys ih => exact starts_cons.2 ⟨List.prefix_refl y, ih⟩

omit [DecidableEq α] in
theorem Starts.trans {xs ys zs : List (List α)} (h : Starts xs ys) (h' : Starts ys zs) :
    Starts xs zs := fun i => (h i).trans (h' i)

omit [DecidableEq α] in
/-- Something that starts nothing has no place. -/
theorem Starts.length_le {xs zs ys : List (List α)} (h : Starts (xs ++ zs) ys)
    (hne : ∀ x ∈ xs, x ≠ []) : xs.length ≤ ys.length := by
  by_contra hlt
  have hi : ys.length < xs.length := Nat.lt_of_not_le hlt
  have hstart := h ys.length
  rw [List.getD_append _ _ _ _ hi, List.getD_eq_getElem _ _ hi,
    List.getD_eq_default _ _ (Nat.le_refl _), List.prefix_nil] at hstart
  exact hne _ (List.getElem_mem hi) hstart

theorem columns_ne_nil (text : List α) : columns nl p text ≠ [] := by
  induction text with
  | nil => exact List.cons_ne_nil _ _
  | cons a text ih =>
    rw [columns]
    split_ifs
    · exact List.cons_ne_nil _ _
    · cases hcols : columns nl p text with
      | nil => exact absurd hcols ih
      | cons c cs => exact List.cons_ne_nil _ _
    · exact ih

theorem starts_columns {text full : List α} (h : text <+: full) :
    Starts (columns nl p text) (columns nl p full) := by
  obtain ⟨rest, rfl⟩ := h
  induction text with
  | nil => exact starts_of_nil (by simp [columns]) _
  | cons a text ih =>
    rw [List.cons_append, columns, columns]
    split_ifs
    · exact starts_cons.2 ⟨List.prefix_refl _, ih⟩
    · cases hcols : columns nl p text with
      | nil => exact absurd hcols (columns_ne_nil text)
      | cons c cs =>
        cases hcols' : columns nl p (text ++ rest) with
        | nil => exact absurd hcols' (columns_ne_nil _)
        | cons c' cs' =>
          rw [hcols, hcols', starts_cons] at ih
          exact starts_cons.2 ⟨List.cons_prefix_cons.2 ⟨rfl, ih.1⟩, ih.2⟩
    · exact ih

/-- Letters that do not count. -/
theorem columns_append_skipped {skipped : List α} (hnl : nl ∉ skipped)
    (hp : ∀ a ∈ skipped, p a = false) (text : List α) :
    columns nl p (skipped ++ text) = columns nl p text := by
  induction skipped with
  | nil => rfl
  | cons a skipped ih =>
    rw [List.mem_cons, not_or] at hnl
    rw [List.forall_mem_cons] at hp
    rw [List.cons_append, columns, if_neg fun ha => hnl.1 ha.symm, hp.1,
      if_neg Bool.false_ne_true, ih hnl.2 hp.2]

/-- Letters that count, up to a separator or the end. -/
theorem columns_append_kept {kept : List α} (hnl : nl ∉ kept) (hp : ∀ a ∈ kept, p a = true)
    (text : List α) : columns nl p (kept ++ nl :: text) = kept :: columns nl p text := by
  induction kept with
  | nil => rw [List.nil_append, columns, if_pos rfl]
  | cons a kept ih =>
    rw [List.mem_cons, not_or] at hnl
    rw [List.forall_mem_cons] at hp
    rw [List.cons_append, columns, if_neg fun ha => hnl.1 ha.symm, if_pos hp.1, ih hnl.2 hp.2,
      consLine]

theorem columns_kept {kept : List α} (hnl : nl ∉ kept) (hp : ∀ a ∈ kept, p a = true) :
    columns nl p kept = [kept] := by
  induction kept with
  | nil => rfl
  | cons a kept ih =>
    rw [List.mem_cons, not_or] at hnl
    rw [List.forall_mem_cons] at hp
    rw [columns, if_neg fun ha => hnl.1 ha.symm, if_pos hp.1, ih hnl.2 hp.2, consLine]

end Columns

end Lib
