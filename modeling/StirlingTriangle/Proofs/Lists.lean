import Mathlib.Data.List.Forall2

/-!
# Lists

What is used of lists in several places and says nothing about the triangle.

* A list is cut where a condition stops holding (`takeWhile_append_stop`,
  `dropWhile_append_stop`), or at a separator (`splitOn_flatMap`);
* a list that is put together from parts has nothing but what the parts have
  (`notMem_intercalate`);
* `zipIdx_map_range'` and `Forall₂.exists_of_mem` are about elements with their
  numbers and about elements with their partners.
-/

namespace List

variable {α β : Type}

/-! ## Cutting -/

section Stop

variable {p : α → Bool} {front rest : List α}

theorem takeWhile_append_stop (hfront : ∀ x ∈ front, p x) (hrest : ∀ x ∈ rest.head?, p x = false) :
    (front ++ rest).takeWhile p = front := by
  rw [takeWhile_append_of_pos hfront]
  cases rest with
  | nil => exact append_nil front
  | cons x rest => rw [takeWhile_cons_of_neg (by simp [hrest x rfl]), append_nil]

theorem dropWhile_append_stop (hfront : ∀ x ∈ front, p x) (hrest : ∀ x ∈ rest.head?, p x = false) :
    (front ++ rest).dropWhile p = rest := by
  rw [dropWhile_append_of_pos hfront]
  cases rest with
  | nil => rfl
  | cons x rest => rw [dropWhile_cons_of_neg (by simp [hrest x rfl])]

end Stop

/-- Parts that each end in a separator, and do not contain it, are found again. -/
theorem splitOn_flatMap [BEq α] [LawfulBEq α] {x : α} {parts : List (List α)}
    (h : ∀ l ∈ parts, x ∉ l) :
    (parts.flatMap fun l => l ++ [x]).splitOn x = parts ++ [[]] := by
  induction parts with
  | nil => rfl
  | cons l parts ih =>
      have hl : x ∉ l := h l mem_cons_self
      rw [flatMap_cons, append_assoc, singleton_append, splitOn_append_cons_self_of_not_mem hl,
        ih fun l' hl' => h l' (mem_cons_of_mem l hl')]
      rfl

/-! ## Elements -/

/-- What is neither in the parts nor between them is not in the whole. -/
theorem notMem_intercalate {x : α} {between : List α} {parts : List (List α)}
    (hbetween : x ∉ between) (h : ∀ l ∈ parts, x ∉ l) : x ∉ between.intercalate parts := by
  induction parts with
  | nil => simp
  | cons l parts ih =>
      have hl := h l mem_cons_self
      have hrest := ih fun l' hl' => h l' (mem_cons_of_mem l hl')
      cases parts with
      | nil =>
          rw [intercalate_singleton]
          exact hl
      | cons l' parts =>
          rw [intercalate_cons_cons, mem_append, mem_append, not_or, not_or]
          exact ⟨⟨hl, hbetween⟩, hrest⟩

/-- What is counted from `k` on is listed with its number. -/
theorem zipIdx_map_range' (f : Nat → α) (k n : Nat) :
    ((range' k n).map f).zipIdx k = (range' k n).map fun i => (f i, i) := by
  rw [zipIdx_eq_zip_range', length_map, length_range']
  have h := zip_map' (f := f) (g := id) (l := range' k n)
  rw [map_id] at h
  exact h

theorem Forall₂.exists_of_mem {R : α → β → Prop} {xs : List α} {ys : List β}
    (h : Forall₂ R xs ys) {x : α} (hx : x ∈ xs) : ∃ y, R x y := by
  obtain ⟨i, hi, rfl⟩ := mem_iff_getElem.1 hx
  obtain ⟨hlength, hall⟩ := forall₂_iff_get.1 h
  exact ⟨_, hall i hi (hlength ▸ hi)⟩

end List
