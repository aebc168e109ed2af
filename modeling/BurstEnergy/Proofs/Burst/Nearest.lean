import BurstEnergy.Proofs.Burst.Recurrence
import BurstEnergy.Proofs.CutPoint
import BurstEnergy.Proofs.Scalar.Binary64Monotone

/-!
# The nearest of some times

A search for the time nearest to a target cuts the ascending times where the target belongs and
looks at the two neighbours of the cut. That is the nearest of all of them: away from the cut the
distances only grow, and rounding does not change that. Equally near times are told apart by their
places, so there is one answer. In exact arithmetic that is all a caller need know of the search.
-/
namespace BurstEnergy.Periodicity
open Scalar (Antitone Lawful Monotone distance)
variable {α : Type} [Scalar α] {times : List α} {target tolerance x y : α}
  {position other bound i j split : ℕ}

/-- Begin times as they are searched: finite, and none before an earlier one. -/
structure Ascending (times : List α) : Prop where
  finite : ∀ t ∈ times, Scalar.isFinite t = true
  ordered : times.Pairwise (· ≤ ·)

namespace Ascending

theorem take (h : Ascending times) (bound : ℕ) : Ascending (times.take bound) where
  finite t ht := h.finite t (List.mem_of_mem_take ht)
  ordered := h.ordered.sublist (List.take_sublist bound times)

theorem isFinite (h : Ascending times) (hi : times[i]? = some x) : Scalar.isFinite x = true :=
  h.finite x (List.mem_of_getElem? hi)

variable [Lawful α]

theorem of_pairwise_lt (hfin : ∀ t ∈ times, Scalar.isFinite t = true)
    (hgrow : times.Pairwise (· < ·)) : Ascending times :=
  ⟨hfin, hgrow.imp Scalar.le_of_lt⟩

theorem le_self (h : Ascending times) (hi : times[i]? = some x) : x ≤ x :=
  Lawful.le_self_of_isFinite (h.isFinite hi)

theorem le (h : Ascending times) (hij : i ≤ j) (hi : times[i]? = some x)
    (hj : times[j]? = some y) : x ≤ y := by
  rcases hij.eq_or_lt with rfl | hlt
  · obtain rfl := Option.some.inj (hi.symm.trans hj)
    exact h.le_self hi
  · obtain ⟨hilt, rfl⟩ := List.getElem?_eq_some_iff.mp hi
    obtain ⟨hjlt, rfl⟩ := List.getElem?_eq_some_iff.mp hj
    exact List.pairwise_iff_getElem.mp h.ordered i j hilt hjlt hlt

end Ascending

/-- The time at a position is the nearest to a target. Of equally near times those before the target
come first, the last of them before the others, and then those from the target on in their order. -/
structure Nearest (times : List α) (target : α) (position : ℕ) (x : α) : Prop where
  time : times[position]? = some x
  least : ∀ y ∈ times, distance target x ≤ distance target y
  lastBefore : x < target → ∀ other y, times[other]? = some y →
    distance target y ≤ distance target x → y < target → other ≤ position
  firstAfter : ¬ x < target → ∀ other y, times[other]? = some y →
    distance target y ≤ distance target x → ¬ y < target ∧ position ≤ other

theorem Nearest.unique (h : Nearest times target position x)
    (h' : Nearest times target other y) : position = other := by
  have hle : distance target y ≤ distance target x := h'.least x (List.mem_of_getElem? h.time)
  have hge : distance target x ≤ distance target y := h.least y (List.mem_of_getElem? h'.time)
  by_cases hx : x < target
  · by_cases hy : y < target
    · have hlast := h.lastBefore hx other y h'.time hle hy
      have hlast' := h'.lastBefore hy position x h.time hge hx
      omega
    · exact absurd hx (h'.firstAfter hy position x h.time hge).1
  · by_cases hy : y < target
    · exact absurd hy (h.firstAfter hx other y h'.time hle).1
    · have hfirst := (h.firstAfter hx other y h'.time hle).2
      have hfirst' := (h'.firstAfter hy position x h.time hge).2
      omega

theorem nearerNeighbour_isSome (hne : times ≠ []) (hle : split ≤ times.length) :
    (nearerNeighbour times target split).isSome = true := by
  have hpos := List.length_pos_iff.mpr hne
  cases split with
  | zero =>
    have hfirst := List.getElem?_eq_getElem hpos
    simp [nearerNeighbour, hfirst]
  | succ split =>
    have hlast := List.getElem?_eq_getElem (l := times) hle
    cases hy : times[split + 1]? with
    | none => simp [nearerNeighbour, hlast, hy]
    | some y =>
      simp only [nearerNeighbour, Nat.add_one_ne_zero, if_false, Nat.add_sub_cancel, hlast, hy]
      split <;> rfl

section Search
variable [Lawful α]

/-- The place where a target belongs: just the times before it come before the target. -/
def Splits (times : List α) (target : α) (split : ℕ) : Prop :=
  ∀ i x, times[i]? = some x → (i < split ↔ x < target)

theorem splits_cutLength (h : Ascending times) :
    Splits times target (cutLength (fun t => decide (t < target)) times) := by
  have hcut : times.Pairwise fun s t =>
      decide (t < target) = true → decide (s < target) = true :=
    h.ordered.imp fun hst ht => decide_eq_true (Scalar.lt_of_le_of_lt hst (of_decide_eq_true ht))
  intro i x hi
  rw [cutLength_eq_countP hcut]
  exact (lt_countP_iff hcut hi).trans decide_eq_true_iff

variable [Monotone α] [Antitone α]

/-- The neighbour below a cut is the nearest time if the one above it is not nearer. -/
theorem nearest_below (h : Ascending times) (ht : target ≤ target)
    (hsplit : Splits times target (split + 1)) (hx : times[split]? = some x)
    (hnear : ∀ y, times[split + 1]? = some y → distance target x ≤ distance target y) :
    Nearest times target split x := by
  have hbelow : x < target := (hsplit split x hx).mp (Nat.lt_succ_self split)
  refine ⟨hx, fun y hy => ?_, fun _ other y hy _ hlt => ?_, fun hge => absurd hbelow hge⟩
  · obtain ⟨other, hother⟩ := List.mem_iff_getElem?.mp hy
    rcases Nat.lt_or_ge split other with hlt | hle
    · -- the first time from the target on stands between this one and the cut
      have hlen : split + 1 < times.length :=
        Nat.lt_of_le_of_lt hlt (List.getElem?_eq_some_iff.mp hother).1
      have hnext := List.getElem?_eq_getElem hlen
      have hge : ¬ times[split + 1] < target := fun hbefore =>
        absurd ((hsplit _ _ hnext).mpr hbefore) (Nat.lt_irrefl _)
      exact Lawful.le_trans (hnear _ hnext) (Scalar.distance_le_of_not_lt (h.isFinite hnext)
        (h.isFinite hother) ht (h.le hlt hnext hother) hge)
    · exact Scalar.distance_le_of_lt (h.isFinite hother) (h.isFinite hx) ht
        (h.le hle hother hx) hbelow
  · exact Nat.le_of_lt_succ ((hsplit other y hy).mpr hlt)

/-- The neighbour above a cut is the nearest time if the one below it is farther. -/
theorem nearest_above (h : Ascending times) (ht : target ≤ target)
    (hsplit : Splits times target split) (hx : times[split]? = some x)
    (hfar : ∀ below y, below + 1 = split → times[below]? = some y →
      distance target x < distance target y) :
    Nearest times target split x := by
  have habove : ¬ x < target := fun hlt => absurd ((hsplit split x hx).mpr hlt) (Nat.lt_irrefl _)
  have hbefore {other : ℕ} {y : α} (hlt : other < split) (hy : times[other]? = some y) :
      distance target x < distance target y := by
    obtain ⟨below, rfl⟩ : ∃ below, split = below + 1 := ⟨split - 1, by omega⟩
    have hlen : below < times.length :=
      (Nat.lt_succ_self below).trans (List.getElem?_eq_some_iff.mp hx).1
    have hlast := List.getElem?_eq_getElem hlen
    exact Scalar.lt_of_lt_of_le (hfar below _ rfl hlast)
      (Scalar.distance_le_of_lt (h.isFinite hy) (h.isFinite hlast) ht
        (h.le (Nat.le_of_lt_succ hlt) hy hlast) ((hsplit _ _ hlast).mp (Nat.lt_succ_self below)))
  refine ⟨hx, fun y hy => ?_, fun hlt => absurd hlt habove, fun _ other y hy hle => ?_⟩
  · obtain ⟨other, hother⟩ := List.mem_iff_getElem?.mp hy
    rcases Nat.lt_or_ge other split with hlt | hge
    · exact Scalar.le_of_lt (hbefore hlt hother)
    · exact Scalar.distance_le_of_not_lt (h.isFinite hx) (h.isFinite hother) ht
        (h.le hge hx hother) habove
  · have hge : split ≤ other := Nat.le_of_not_lt fun hlt =>
      Scalar.not_le_of_lt (hbefore hlt hy) hle
    exact ⟨fun hlt => absurd ((hsplit other y hy).mpr hlt) (Nat.not_lt.mpr hge), hge⟩

/-- The better of the neighbours of a cut is the nearest of all times. -/
theorem exists_nearest_of_nearerNeighbour (h : Ascending times) (ht : target ≤ target)
    (hsplit : Splits times target split)
    (hbest : nearerNeighbour times target split = some position) :
    ∃ x, Nearest times target position x := by
  have hone {y : α} (hy : times[split]? = some y) : distance target y = y - target :=
    if_neg fun hlt => absurd ((hsplit split y hy).mpr hlt) (Nat.lt_irrefl _)
  cases split with
  | zero =>
    cases hy : times[0]? with
    | none => simp [nearerNeighbour, hy] at hbest
    | some y =>
      obtain rfl : 0 = position := by simpa [nearerNeighbour, hy] using hbest
      exact ⟨y, nearest_above h ht hsplit hy fun below _ hcut => absurd hcut (Nat.succ_ne_zero _)⟩
  | succ split =>
    have hother {x : α} (hx : times[split]? = some x) : distance target x = target - x :=
      if_pos ((hsplit split x hx).mp (Nat.lt_succ_self split))
    cases hx : times[split]? with
    | none =>
      have hend : times[split + 1]? = none :=
        List.getElem?_eq_none ((List.getElem?_eq_none_iff.mp hx).trans (Nat.le_succ split))
      simp [nearerNeighbour, hx, hend] at hbest
    | some x =>
      cases hy : times[split + 1]? with
      | none =>
        obtain rfl : split = position := by simpa [nearerNeighbour, hx, hy] using hbest
        exact ⟨x, nearest_below h ht hsplit hx fun y hy' => by simp [hy] at hy'⟩
      | some y =>
        simp only [nearerNeighbour, Nat.add_one_ne_zero, if_false, Nat.add_sub_cancel, hx, hy]
          at hbest
        rw [← hother hx, ← hone hy] at hbest
        split at hbest
        · next hle =>
          obtain rfl := Option.some.inj hbest
          exact ⟨x, nearest_below h ht hsplit hx fun y' hy' =>
            Option.some.inj (hy.symm.trans hy') ▸ hle⟩
        · next hgt =>
          obtain rfl := Option.some.inj hbest
          refine ⟨y, nearest_above h ht hsplit hy fun below x' hbelow hx' => ?_⟩
          obtain rfl := Nat.succ_inj.mp hbelow
          obtain rfl := Option.some.inj (hx.symm.trans hx')
          exact Scalar.lt_of_not_le (Scalar.distance_le_self (h.isFinite hx) ht)
            (Scalar.distance_le_self (h.isFinite hy) ht) hgt

theorem exists_nearest (h : Ascending times) (ht : target ≤ target) (hne : times ≠ []) :
    ∃ position x, Nearest times target position x := by
  obtain ⟨position, hbest⟩ := Option.isSome_iff_exists.mp
    (nearerNeighbour_isSome hne (cutLength_le (fun t => decide (t < target)) times))
  exact ⟨position, exists_nearest_of_nearerNeighbour h ht (splits_cutLength h) hbest⟩

theorem nearerNeighbour_eq_some_iff (h : Ascending times) (ht : target ≤ target) :
    nearerNeighbour times target (cutLength (fun t => decide (t < target)) times) =
      some position ↔ ∃ x, Nearest times target position x := by
  constructor
  · exact exists_nearest_of_nearerNeighbour h ht (splits_cutLength h)
  · rintro ⟨x, hx⟩
    have hne : times ≠ [] := List.ne_nil_of_mem (List.mem_of_getElem? hx.time)
    obtain ⟨best, hbest⟩ := Option.isSome_iff_exists.mp
      (nearerNeighbour_isSome hne (cutLength_le (fun t => decide (t < target)) times))
    obtain ⟨y, hy⟩ := exists_nearest_of_nearerNeighbour h ht (splits_cutLength h) hbest
    rw [hbest, hy.unique hx]

/-- The search finds the nearest time, if that is within the tolerance. -/
theorem nearestWithin_eq_some_iff (h : Ascending times) (ht : target ≤ target) :
    nearestWithin times target tolerance = some position ↔
      ∃ x, Nearest times target position x ∧ Scalar.magnitude (x - target) ≤ tolerance := by
  constructor
  · intro hfound
    obtain ⟨best, hbest, hwithin⟩ := Option.bind_eq_some_iff.mp hfound
    obtain ⟨x, hx, hif⟩ := Option.bind_eq_some_iff.mp hwithin
    split at hif
    · next hle =>
      obtain rfl := Option.some.inj hif
      obtain ⟨y, hy⟩ := (nearerNeighbour_eq_some_iff h ht).mp hbest
      obtain rfl := Option.some.inj (hx.symm.trans hy.time)
      exact ⟨x, hy, hle⟩
    · cases hif
  · rintro ⟨x, hx, hle⟩
    exact Option.bind_eq_some_iff.mpr ⟨position, (nearerNeighbour_eq_some_iff h ht).mpr ⟨x, hx⟩,
      Option.bind_eq_some_iff.mpr ⟨x, hx.time, if_pos hle⟩⟩

end Search

/-! In exact arithmetic all times are finite and distances are absolute differences. -/
section Exact
variable {times : List Rat} {x : Rat}

theorem Ascending.of_pairwise_le (h : times.Pairwise (· ≤ ·)) : Ascending times :=
  ⟨fun _ _ => rfl, h⟩

theorem nearestWithin_eq_none_iff (h : times.Pairwise (· ≤ ·)) (target tolerance : Rat) :
    nearestWithin times target tolerance = none ↔ ∀ t ∈ times, tolerance < |t - target| := by
  have hfound (position : ℕ) : nearestWithin times target tolerance = some position ↔
      ∃ x, Nearest times target position x ∧ |x - target| ≤ tolerance := by
    simpa only [Scalar.magnitude_eq_abs] using nearestWithin_eq_some_iff (.of_pairwise_le h) le_rfl
  constructor
  · intro hnone t ht
    obtain ⟨position, x, hx⟩ : ∃ position x, Nearest times target position x :=
      exists_nearest (.of_pairwise_le h) le_rfl (List.ne_nil_of_mem ht)
    by_contra hwithin
    have hleast : |x - target| ≤ |t - target| := by
      simpa only [Scalar.distance_eq_abs] using hx.least t ht
    have hsome := (hfound position).mpr ⟨x, hx, hleast.trans (not_lt.mp hwithin)⟩
    exact Option.some_ne_none position (hsome.symm.trans hnone)
  · intro hfar
    by_contra hsome
    obtain ⟨position, hposition⟩ := Option.ne_none_iff_exists'.mp hsome
    obtain ⟨x, hx, hwithin⟩ := (hfound position).mp hposition
    exact absurd hwithin (not_le.mpr (hfar x (List.mem_of_getElem? hx.time)))

/-- A nearest time comes before the target if an equally near one does. -/
theorem Nearest.lt_of_tie {target y : Rat} {position : ℕ} (h : Nearest times target position x)
    (hy : y ∈ times) (hlt : y < target) (htie : |y - target| = |x - target|) : x < target := by
  obtain ⟨other, hother⟩ := List.mem_iff_getElem?.mp hy
  by_contra hge
  have hle : distance target y ≤ distance target x := by
    rw [Scalar.distance_eq_abs, Scalar.distance_eq_abs, htie]
  exact (h.firstAfter hge other y hother hle).1 hlt

/-- The search is exact. It finds nothing just when no time is within the tolerance. Otherwise it
finds a time of the least distance: one before the target if an equally near one is, then the last
of those equal to it, and else the first of those equal to it. -/
theorem nearestWithin_least_distance (h : times.Pairwise (· ≤ ·)) (target tolerance : Rat) :
    (nearestWithin times target tolerance = none ↔ ∀ t ∈ times, tolerance < |t - target|) ∧
    ∀ position, nearestWithin times target tolerance = some position →
      ∃ x, times[position]? = some x ∧ |x - target| ≤ tolerance ∧
        (∀ y ∈ times, |x - target| ≤ |y - target|) ∧
        ((∃ y ∈ times, y < target ∧ |y - target| = |x - target|) → x < target) ∧
        (x < target → ∀ other, times[other]? = some x → other ≤ position) ∧
        (target ≤ x → ∀ other, times[other]? = some x → position ≤ other) := by
  refine ⟨nearestWithin_eq_none_iff h target tolerance, fun position hfound => ?_⟩
  obtain ⟨x, hx, hwithin⟩ := (nearestWithin_eq_some_iff (.of_pairwise_le h) le_rfl).mp hfound
  rw [Scalar.magnitude_eq_abs] at hwithin
  refine ⟨x, hx.time, hwithin, fun y hy => ?_, ?_, fun hlt other hother => ?_,
    fun hge other hother => ?_⟩
  · simpa only [Scalar.distance_eq_abs] using hx.least y hy
  · rintro ⟨y, hy, hlt, htie⟩
    exact hx.lt_of_tie hy hlt htie
  · exact hx.lastBefore hlt other x hother le_rfl hlt
  · exact (hx.firstAfter (not_lt.mpr hge) other x hother le_rfl).2

/-- Halfway between two pairs of equal times the last of the lower pair is found, and a time of the
upper pair is not, though it is as near. -/
theorem nearestWithin_least_distance_halfway :
    ([0, 10, 10, 20, 20] : List Rat).Pairwise (· ≤ ·) ∧
    nearestWithin ([0, 10, 10, 20, 20] : List Rat) 15 5 = some 2 ∧
    (∀ y ∈ ([0, 10, 10, 20, 20] : List Rat), |(10 : Rat) - 15| ≤ |y - 15|) ∧
    ¬ ∀ t ∈ ([0, 10, 10, 20, 20] : List Rat), 5 < |t - 15| := by
  have h : ([0, 10, 10, 20, 20] : List Rat).Pairwise (· ≤ ·) := by decide +kernel
  have hfound : nearestWithin ([0, 10, 10, 20, 20] : List Rat) 15 5 = some 2 := by decide +kernel
  obtain ⟨hnone, hsome⟩ := nearestWithin_least_distance h 15 5
  obtain ⟨x, hx, -, hleast, -⟩ := hsome 2 hfound
  obtain rfl : (10 : Rat) = x := by simpa using hx
  refine ⟨h, hfound, hleast, fun hfar => ?_⟩
  exact Option.some_ne_none 2 (hfound.symm.trans (hnone.mpr hfar))

end Exact
end BurstEnergy.Periodicity
