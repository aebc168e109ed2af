import BurstEnergy.CutPoint
import Mathlib.Data.List.TakeWhile
import Mathlib.Tactic

/-!
# Cuts by a property that stops to hold

Where a property holds of every element before one it holds of, the cut by halving is the cut by
scanning from the front. Cuts by a stronger property come earlier.
-/
namespace BurstEnergy
variable {β : Type} {p q : β → Bool} {xs : List β}

theorem not_of_mem_dropWhile (h : xs.Pairwise fun x y => p y = true → p x = true) {x : β}
    (hx : x ∈ xs.dropWhile p) : p x = false := by
  induction xs with
  | nil => exact absurd hx List.not_mem_nil
  | cons y rest ih =>
    obtain ⟨hy, hrest⟩ := List.pairwise_cons.mp h
    by_cases hp : p y = true
    · rw [List.dropWhile_cons_of_pos hp] at hx
      exact ih hrest hx
    · rw [List.dropWhile_cons_of_neg hp] at hx
      rcases List.mem_cons.mp hx with rfl | hx
      · simpa using hp
      · by_contra hpx
        exact hp (hy x hx (by simpa using hpx))

theorem cutLength_eq_length_takeWhile (h : xs.Pairwise fun x y => p y = true → p x = true) :
    cutLength p xs = (xs.takeWhile p).length := by
  have hfront : ∀ x ∈ xs.takeWhile p, p x = true := fun x hx => List.mem_takeWhile_imp hx
  have hback : ∀ x ∈ xs.dropWhile p, p x = false := fun x hx => not_of_mem_dropWhile h hx
  have hcut := cutLength_append hfront hback
  rwa [List.takeWhile_append_dropWhile] at hcut

theorem drop_cutLength (h : xs.Pairwise fun x y => p y = true → p x = true) :
    xs.drop (cutLength p xs) = xs.dropWhile p := by
  have hsplit := List.takeWhile_append_dropWhile (p := p) (l := xs)
  calc xs.drop (cutLength p xs)
      = (xs.takeWhile p ++ xs.dropWhile p).drop (xs.takeWhile p).length := by
        rw [hsplit, cutLength_eq_length_takeWhile h]
    _ = xs.dropWhile p := List.drop_left

theorem getElem?_cutLength (h : xs.Pairwise fun x y => p y = true → p x = true) :
    xs[cutLength p xs]? = (xs.dropWhile p).head? := by
  rw [← drop_cutLength h, List.head?_drop]

theorem mem_takeWhile_iff (h : xs.Pairwise fun x y => p y = true → p x = true) {x : β} :
    x ∈ xs.takeWhile p ↔ x ∈ xs ∧ p x = true := by
  constructor
  · intro hx
    exact ⟨(List.takeWhile_prefix p).subset hx, List.mem_takeWhile_imp hx⟩
  · rintro ⟨hx, hpx⟩
    have hsplit : x ∈ xs.takeWhile p ++ xs.dropWhile p := by
      rwa [List.takeWhile_append_dropWhile]
    refine (List.mem_append.mp hsplit).resolve_right fun hback => ?_
    exact absurd hpx (by simp [not_of_mem_dropWhile h hback])

theorem cutLength_eq_countP (h : xs.Pairwise fun x y => p y = true → p x = true) :
    cutLength p xs = xs.countP p := by
  have hfront : (xs.takeWhile p).countP p = (xs.takeWhile p).length :=
    List.countP_eq_length.mpr fun x hx => List.mem_takeWhile_imp hx
  have hback : (xs.dropWhile p).countP p = 0 :=
    List.countP_eq_zero.mpr fun x hx => by simp [not_of_mem_dropWhile h hx]
  rw [cutLength_eq_length_takeWhile h, ← hfront, ← Nat.add_zero ((xs.takeWhile p).countP p),
    ← hback, ← List.countP_append, List.takeWhile_append_dropWhile]

theorem lt_countP_iff (h : xs.Pairwise fun x y => p y = true → p x = true) {i : ℕ} {x : β}
    (hi : xs[i]? = some x) : i < xs.countP p ↔ p x = true := by
  rw [← cutLength_eq_countP h, cutLength_eq_length_takeWhile h]
  have hsplit := List.takeWhile_append_dropWhile (p := p) (l := xs)
  rw [← hsplit] at hi
  constructor
  · intro hlt
    rw [List.getElem?_append_left hlt] at hi
    exact List.mem_takeWhile_imp (List.mem_of_getElem? hi)
  · intro hx
    by_contra hge
    rw [List.getElem?_append_right (not_lt.mp hge)] at hi
    have hfalse := not_of_mem_dropWhile h (List.mem_of_getElem? hi)
    exact absurd hx (by simp [hfalse])

/-- What lies between two cuts has the one property and not the other. -/
theorem take_drop_cutLength (hp : xs.Pairwise fun x y => p y = true → p x = true)
    (hq : xs.Pairwise fun x y => q y = true → q x = true) :
    (xs.drop (cutLength p xs)).take (cutLength q xs - cutLength p xs) =
      xs.filter fun x => q x && !p x := by
  rw [cutLength_eq_countP hp, cutLength_eq_countP hq]
  induction xs with
  | nil => rfl
  | cons x rest ih =>
    obtain ⟨hpx, hp⟩ := List.pairwise_cons.mp hp
    obtain ⟨hqx, hq⟩ := List.pairwise_cons.mp hq
    have hih := ih hp hq
    have hnone {r : β → Bool} (hr : ∀ y ∈ rest, r y = true → r x = true) (hx : ¬ r x = true) :
        ∀ y ∈ rest, r y = false :=
      fun y hy => Bool.eq_false_of_not_eq_true fun hry => hx (hr y hy hry)
    by_cases hqx' : q x = true
    · by_cases hpx' : p x = true
      · simp [List.countP_cons_of_pos, hpx', hqx', hih]
      · have hrest : rest.countP p = 0 :=
          List.countP_eq_zero.mpr fun y hy => by simp [hnone hpx hpx' y hy]
        rw [hrest] at hih
        simp [List.countP_cons_of_pos, hpx', hqx', hrest, ← hih]
    · have hrest := hnone hqx hqx'
      have hcount : rest.countP q = 0 :=
        List.countP_eq_zero.mpr fun y hy => by simp [hrest y hy]
      have hfilter : rest.filter (fun y => q y && !p y) = [] :=
        List.filter_eq_nil_iff.mpr fun y hy => by simp [hrest y hy]
      simp [hqx', hcount, hfilter]

/-- A stronger property is cut no later. -/
theorem cutLength_mono (hp : xs.Pairwise fun x y => p y = true → p x = true)
    (hq : xs.Pairwise fun x y => q y = true → q x = true) (h : ∀ x, p x = true → q x = true) :
    cutLength p xs ≤ cutLength q xs := by
  rw [cutLength_eq_countP hp, cutLength_eq_countP hq]
  exact List.countP_mono_left fun x _ => h x

end BurstEnergy
