/-!
# Stable sorting

`stableSort le xs` sorts by insertion, so it goes by recursion on the list. An element is put in
front of the first one that is not smaller: elements that count as equal keep their order.
-/
namespace BurstEnergy
variable {β : Type}

/-- Put an element in front of the first one that is not smaller. -/
def insertSorted (le : β → β → Bool) (x : β) : List β → List β
  | [] => [x]
  | y :: rest => if le x y then x :: y :: rest else y :: insertSorted le x rest

/-- Sort a list; elements that count as equal keep their order. -/
def stableSort (le : β → β → Bool) : List β → List β
  | [] => []
  | x :: rest => insertSorted le x (stableSort le rest)

@[simp] theorem stableSort_nil (le : β → β → Bool) : stableSort le [] = [] := rfl

theorem perm_insertSorted (le : β → β → Bool) (x : β) (xs : List β) :
    (insertSorted le x xs).Perm (x :: xs) := by
  induction xs with
  | nil => exact .refl _
  | cons y rest ih =>
    unfold insertSorted
    split
    · exact .refl _
    · exact (ih.cons y).trans (.swap x y rest)

theorem perm_stableSort (le : β → β → Bool) (xs : List β) : (stableSort le xs).Perm xs := by
  induction xs with
  | nil => exact .refl _
  | cons x rest ih => exact (perm_insertSorted le x _).trans (ih.cons x)

@[simp] theorem mem_stableSort {le : β → β → Bool} {x : β} {xs : List β} :
    x ∈ stableSort le xs ↔ x ∈ xs :=
  (perm_stableSort le xs).mem_iff

theorem pairwise_insertSorted {le : β → β → Bool} (total : ∀ a b, le a b = false → le b a = true)
    (trans : ∀ a b c, le a b = true → le b c = true → le a c = true) (x : β) {xs : List β}
    (h : xs.Pairwise fun a b => le a b = true) :
    (insertSorted le x xs).Pairwise fun a b => le a b = true := by
  induction xs with
  | nil => simp [insertSorted]
  | cons y rest ih =>
    have hrest := List.pairwise_cons.mp h
    unfold insertSorted
    split
    · next hxy =>
      refine List.pairwise_cons.mpr ⟨fun a ha => ?_, h⟩
      rcases List.mem_cons.mp ha with rfl | ha
      · exact hxy
      · exact trans _ _ _ hxy (hrest.1 a ha)
    · next hxy =>
      refine List.pairwise_cons.mpr ⟨fun a ha => ?_, ih hrest.2⟩
      rcases List.mem_cons.mp ((perm_insertSorted le x rest).mem_iff.mp ha) with rfl | ha
      · exact total _ _ (by simpa using hxy)
      · exact hrest.1 a ha

/-- The result is in order, for an order that is total and transitive. -/
theorem pairwise_stableSort {le : β → β → Bool} (total : ∀ a b, le a b = false → le b a = true)
    (trans : ∀ a b c, le a b = true → le b c = true → le a c = true) (xs : List β) :
    (stableSort le xs).Pairwise fun a b => le a b = true := by
  induction xs with
  | nil => exact .nil
  | cons x rest ih => exact pairwise_insertSorted total trans x ih

theorem stableSort_eq_self {le : β → β → Bool} {xs : List β}
    (h : xs.Pairwise fun a b => le a b = true) : stableSort le xs = xs := by
  induction xs with
  | nil => rfl
  | cons x rest ih =>
    have hrest := List.pairwise_cons.mp h
    rw [stableSort, ih hrest.2]
    cases rest with
    | nil => rfl
    | cons y rest => simp [insertSorted, hrest.1 y (by simp)]

/-- An order that tells elements apart sorts every arrangement of a list alike. -/
theorem stableSort_eq_of_perm {le : β → β → Bool}
    (total : ∀ a b, le a b = false → le b a = true)
    (trans : ∀ a b c, le a b = true → le b c = true → le a c = true)
    (antisymm : ∀ a b, le a b = true → le b a = true → a = b) {xs ys : List β}
    (h : xs.Perm ys) : stableSort le xs = stableSort le ys := by
  refine List.Perm.eq_of_pairwise (fun a b _ _ => antisymm a b)
    (pairwise_stableSort total trans xs) (pairwise_stableSort total trans ys) ?_
  exact (perm_stableSort le xs).trans (h.trans (perm_stableSort le ys).symm)

/-- What is not greater than any element of a list goes to its front. -/
theorem insertSorted_of_forall_le {le : β → β → Bool} {x : β} {xs : List β}
    (h : ∀ y ∈ xs, le x y = true) : insertSorted le x xs = x :: xs := by
  cases xs with
  | nil => rfl
  | cons y rest => simp [insertSorted, h]

theorem filter_insertSorted {le : β → β → Bool}
    (trans : ∀ a b c, le a b = true → le b c = true → le a c = true) (p : β → Bool) (x : β)
    {xs : List β} (h : xs.Pairwise fun a b => le a b = true) :
    (insertSorted le x xs).filter p =
      if p x then insertSorted le x (xs.filter p) else xs.filter p := by
  induction xs with
  | nil => simp [insertSorted, List.filter_cons]
  | cons y rest ih =>
    have hrest := List.pairwise_cons.mp h
    by_cases hxy : le x y = true
    · -- The element goes in front of all that are selected of the list.
      have hfront : ∀ z ∈ (y :: rest).filter p, le x z = true := by
        intro z hz
        rcases List.mem_cons.mp (List.mem_filter.mp hz).1 with rfl | hz
        · exact hxy
        · exact trans _ _ _ hxy (hrest.1 z hz)
      rw [insertSorted_of_forall_le hfront, insertSorted, if_pos hxy, List.filter_cons]
    · rw [insertSorted, if_neg hxy, List.filter_cons, ih hrest.2]
      by_cases hx : p x = true <;> by_cases hy : p y = true <;> simp [hx, hy, hxy, insertSorted]

/-- Elements may be selected before they are sorted or after. -/
theorem filter_stableSort {le : β → β → Bool} (total : ∀ a b, le a b = false → le b a = true)
    (trans : ∀ a b c, le a b = true → le b c = true → le a c = true) (p : β → Bool)
    (xs : List β) : (stableSort le xs).filter p = stableSort le (xs.filter p) := by
  induction xs with
  | nil => rfl
  | cons x rest ih =>
    rw [stableSort, filter_insertSorted trans p x (pairwise_stableSort total trans rest), ih,
      List.filter_cons]
    split <;> rfl

end BurstEnergy
