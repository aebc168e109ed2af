/-!
# The cut point of a list

`cutPoint n p` searches the positions `0 … n - 1` by halving for the place where `p` stops to
hold. When `p` holds on a first stretch and fails after it, the answer is the length of that
stretch. For any other `p` the probed positions still fix the answer, so they are part of the
definition; it never exceeds `n`.
-/
namespace BurstEnergy

/-- One halving: probe the middle of the `size` positions from `base` on, keep the part that
still holds the cut, and decide the last remaining position by its own probe. -/
def cutPointFrom (p : Nat → Bool) (base size : Nat) : Nat :=
  if _h : 1 < size then
    if p (base + size / 2) then cutPointFrom p (base + size / 2) (size - size / 2)
    else cutPointFrom p base (size - size / 2)
  else if p base then base + 1 else base
termination_by size
decreasing_by all_goals omega

/-- The cut point of `p` among the first `n` positions. -/
def cutPoint (n : Nat) (p : Nat → Bool) : Nat :=
  if n = 0 then 0 else cutPointFrom p 0 n

theorem cutPointFrom_le (p : Nat → Bool) {base size : Nat} (h : 0 < size) :
    cutPointFrom p base size ≤ base + size := by
  fun_induction cutPointFrom p base size with
  | case1 base size hs hp ih =>
    have := ih (by omega)
    omega
  | case2 base size hs hp ih =>
    have := ih (by omega)
    omega
  | case3 base size hs hp => omega
  | case4 base size hs hp => omega

theorem cutPoint_le (n : Nat) (p : Nat → Bool) : cutPoint n p ≤ n := by
  unfold cutPoint
  split
  · omega
  · have : cutPointFrom p 0 n ≤ 0 + n := cutPointFrom_le p (by omega)
    omega

theorem cutPointFrom_eq {p : Nat → Bool} {base size k : Nat} (h : 0 < size) (hb : base ≤ k)
    (hk : k ≤ base + size) (below : ∀ i, base ≤ i → i < k → p i = true)
    (above : ∀ i, k ≤ i → i < base + size → p i = false) : cutPointFrom p base size = k := by
  fun_induction cutPointFrom p base size with
  | case1 base size hs hp ih =>
    have hlt : base + size / 2 < k := by
      apply Nat.lt_of_not_le
      intro hle
      have := above _ hle (by omega)
      simp_all
    exact ih (by omega) (by omega) (by omega) (fun i hi => below i (by omega))
      (fun i hi hn => above i hi (by omega))
  | case2 base size hs hp ih =>
    have hle : k ≤ base + size / 2 := by
      apply Nat.le_of_not_lt
      intro hlt
      exact hp (below _ (by omega) hlt)
    exact ih (by omega) hb (by omega) below (fun i hi hn => above i hi (by omega))
  | case3 base size hs hp =>
    have hlt : base < k := by
      apply Nat.lt_of_not_le
      intro hle
      have := above base hle (by omega)
      simp_all
    omega
  | case4 base size hs hp =>
    have hle : k ≤ base := by
      apply Nat.le_of_not_lt
      intro hlt
      exact hp (below base (Nat.le_refl _) hlt)
    omega

/-- Where `p` holds on the first `k` positions and on no later one, the cut point is `k`. -/
theorem cutPoint_eq {n k : Nat} {p : Nat → Bool} (hk : k ≤ n) (below : ∀ i, i < k → p i = true)
    (above : ∀ i, k ≤ i → i < n → p i = false) : cutPoint n p = k := by
  unfold cutPoint
  split
  · omega
  · exact cutPointFrom_eq (by omega) (Nat.zero_le k) (by omega) (fun i _ => below i)
      (fun i hi hn => above i hi (by omega))

/-- The number of elements before the cut of a list by a property of its elements. -/
def cutLength {β : Type} (p : β → Bool) (xs : List β) : Nat :=
  cutPoint xs.length fun i => xs[i]?.any p

theorem cutLength_le {β : Type} (p : β → Bool) (xs : List β) : cutLength p xs ≤ xs.length :=
  cutPoint_le _ _

theorem cutLength_append {β : Type} {p : β → Bool} {front back : List β}
    (hfront : ∀ x ∈ front, p x = true) (hback : ∀ x ∈ back, p x = false) :
    cutLength p (front ++ back) = front.length := by
  refine cutPoint_eq (by simp) (fun i hi => ?_) (fun i hi hn => ?_)
  · rw [List.getElem?_append_left hi, List.getElem?_eq_getElem hi]
    exact hfront _ (List.getElem_mem hi)
  · have hb : i - front.length < back.length := by
      simp only [List.length_append] at hn
      omega
    rw [List.getElem?_append_right hi, List.getElem?_eq_getElem hb]
    exact hback _ (List.getElem_mem hb)

end BurstEnergy
