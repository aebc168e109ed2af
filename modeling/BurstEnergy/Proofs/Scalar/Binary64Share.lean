import BurstEnergy.Proofs.Scalar.Lawful
import BurstEnergy.Proofs.Scalar.Binary64Quotient

/-!
# Binary64 sums and shares

A sum of finite values is the exact sum of their counts, rounded, and an infinite one is at the end
of the numbers, so sums are monotone. A quotient is cut to whole steps of its grid, and one is a
whole number of them. So a part of a finite whole is cut to less than one, or is one with nothing
cut off, and rounding does not carry it further.
-/
namespace BurstEnergy.Binary64
open Float.Model Float.Model.UnpackedFloat

section Shares
variable {m₁ m₂ q j k : ℕ} {e₁ e₂ t : ℤ}

/-- A mantissa below a power of two, or at it with nothing cut off, is rounded to no more than that
power. -/
theorem leftover_le_pow {accuracy : Accuracy} (hkj : k ≤ j)
    (hq : q < 2 ^ j ∨ q = 2 ^ j ∧ accuracy = .exact) : leftover q accuracy k ≤ 2 ^ (j - k) := by
  have hrank :
      rank (ExtendedMantissa.ofMantissaAndAccuracy q accuracy) ≤ rank (exactly (2 ^ j)) := by
    rcases hq with hlt | ⟨rfl, rfl⟩
    · have hresidue : rank (ExtendedMantissa.ofMantissaAndAccuracy q accuracy) ≤ 4 * q + 3 := by
        rcases accuracy with _ | _ | _ | _ <;> simp [rank, ExtendedMantissa.ofMantissaAndAccuracy]
      have hpow : rank (exactly (2 ^ j)) = 4 * 2 ^ j := by simp [rank]
      omega
    · exact le_rfl
  calc leftover q accuracy k ≤ (exactly (2 ^ j) >>> k).roundedMantissa :=
        roundedMantissa_le_of_rank_le (rank_shiftRight_le hrank k)
    _ = (exactly (2 ^ j / 2 ^ k)).roundedMantissa := by rw [exact_shiftRight (pow_dvd_pow 2 hkj)]
    _ = 2 ^ (j - k) := Nat.pow_div hkj two_pos

/-- A fraction up to a whole number is cut below it, or is that number. -/
theorem div_lt_or_accuracy_eq {n : ℕ} (hm₂ : 0 < m₂) (hle : n ≤ 2 ^ j * m₂) :
    n / m₂ < 2 ^ j ∨ n / m₂ = 2 ^ j ∧ accuracyOfFraction (n % m₂) m₂ = .exact := by
  rcases hle.lt_or_eq with hlt | rfl
  · exact .inl ((Nat.div_lt_iff_lt_mul hm₂).mpr hlt)
  · rw [Nat.mul_div_cancel _ hm₂, Nat.mul_mod_left]
    exact .inr ⟨rfl, rfl⟩

/-- The fraction of a part, scaled to its grid, is up to the scaled one. -/
theorem scaled_le_of_units_le (h₁ : -1074 ≤ e₁) (h₂ : -1074 ≤ e₂)
    (hk : e₁ - e₂ = t + k) (hj : t + j = 0) (hle : units m₁ e₁ ≤ units m₂ e₂) :
    m₁ * 2 ^ k ≤ 2 ^ j * m₂ := by
  have hexp : k + (e₂ + 1074).toNat = j + (e₁ + 1074).toNat := by omega
  have hpow : 0 < 2 ^ (e₂ + 1074).toNat := by positivity
  refine Nat.le_of_mul_le_mul_right ?_ hpow
  calc m₁ * 2 ^ k * 2 ^ (e₂ + 1074).toNat = 2 ^ j * units m₁ e₁ := by
        rw [Nat.mul_assoc, ← pow_add, hexp, pow_add, Nat.mul_left_comm, units]
    _ ≤ 2 ^ j * units m₂ e₂ := Nat.mul_le_mul_left _ hle
    _ = 2 ^ j * m₂ * 2 ^ (e₂ + 1074).toNat := by rw [units, Nat.mul_assoc]

/-- One is a whole number of steps of every grid below it. -/
theorem units_one_eq (ht : -1074 ≤ t) (hj : t + j = 0) : units 1 0 = units (2 ^ j) t := by
  have hsteps : (0 - t).toNat = j := by omega
  rw [units_of_le ht (by omega), Nat.one_mul, hsteps]

theorem grid_shift_le {i : ℕ} (hq : q ≤ 2 ^ j) (hj : t + j = 0) (hi : gridExponent q t = t + i) :
    i ≤ j := by
  have hlog : q.log2 ≤ j := by
    rw [← Nat.log2_two_pow (n := j), Nat.log2_eq_log_two, Nat.log2_eq_log_two]
    exact Nat.log_mono_right hq
  rw [gridExponent] at hi
  omega

/-- The quotient of a part by its whole is rounded to no more than one. -/
theorem div_cases_of_units_le (hm₁ : 0 < m₁) (hm₂ : 0 < m₂) (h₁ : Canonical m₁ e₁)
    (h₂ : Canonical m₂ e₂) (hle : units m₁ e₁ ≤ units m₂ e₂) :
    UnpackedFloat.div Format.binary64 (.finite .positive m₁ e₁ hm₁) (.finite .positive m₂ e₂ hm₂) =
      .zero .positive ∨
    ∃ m e hm, UnpackedFloat.div Format.binary64 (.finite .positive m₁ e₁ hm₁)
      (.finite .positive m₂ e₂ hm₂) = .finite .positive m e hm ∧ Canonical m e ∧
      units m e ≤ units 1 0 := by
  have hexp : e₁ ≤ e₂ := by
    by_contra hlt
    exact absurd hle (not_le.mpr (h₂.units_lt h₁ (not_le.mp hlt)))
  have htop : quotientExponent m₁ e₁ m₂ e₂ ≤ e₁ - e₂ := min_le_left _ _
  obtain ⟨k, i, hk, hi, hdiv⟩ := exists_div_eq hm₁ hm₂ e₁ e₂
  obtain ⟨j, hj⟩ : ∃ j : ℕ, quotientExponent m₁ e₁ m₂ e₂ + j = 0 :=
    ⟨(-quotientExponent m₁ e₁ m₂ e₂).toNat, by omega⟩
  have hcut := div_lt_or_accuracy_eq hm₂ (scaled_le_of_units_le h₁.lowest h₂.lowest hk hj hle)
  have hij : i ≤ j := grid_shift_le (hcut.elim Nat.le_of_lt fun h => h.1.le) hj hi
  rw [hdiv]
  rcases Nat.eq_zero_or_pos (leftover (m₁ * 2 ^ k / m₂)
    (accuracyOfFraction (m₁ * 2 ^ k % m₂) m₂) i) with hzero | hpos
  · exact .inl (roundWithAccuracy_eq_zero .positive hi hzero)
  · obtain ⟨m, e, hm, heq, hcanonical, hunits⟩ := roundWithAccuracy_eq_finite .positive hi hpos
    refine .inr ⟨m, e, hm, heq, hcanonical, ?_⟩
    have hlow : -1074 ≤ quotientExponent m₁ e₁ m₂ e₂ + i := hi ▸ le_max_right _ _
    rw [hunits, units_one_eq (j := j - i) hlow (by omega)]
    exact units_le_units_iff.mpr (leftover_le_pow hij hcut)

end Shares

section Float
variable {a b : Float}

theorem quanta_one : quanta (unpacked (1.0 : Float)) = (units 1 0 : ℕ) := by
  have hone : unpacked (1.0 : Float) = .finite .positive (2 ^ 52) (-52) (by norm_num) := rfl
  have hscale : units 1 0 = units (2 ^ 52) (-52) := units_one_eq (by norm_num) (by norm_num)
  rw [hone, hscale]
  rfl

theorem isFinite_of_le (ha : 0 ≤ a) (hab : a ≤ b) (hb : unpacked b ≠ .infinity .positive) :
    (unpacked a).isFinite = true ∧ (unpacked b).isFinite = true := by
  obtain ⟨han, hbn, hle⟩ := float_le_iff.mp hab
  refine isFinite_of_quanta_le (representable_unpacked a) (representable_unpacked b) han hbn hle
    (fun hneg => ?_) hb
  rw [zero_le_iff, hneg] at ha
  cases ha

/-- A part over its whole counts between none and one. -/
theorem quanta_div_bounds (ha : 0 ≤ a) (hab : a ≤ b) (hpos : 0 < b) (hb : b.isFinite = true) :
    unpacked (a / b) ≠ .notANumber ∧ 0 ≤ quanta (unpacked (a / b)) ∧
      quanta (unpacked (a / b)) ≤ (units 1 0 : ℕ) := by
  have hone : (0 : ℤ) ≤ (units 1 0 : ℕ) := Int.natCast_nonneg _
  have hfinite : unpacked b ≠ .infinity .positive := by
    intro hinf
    rw [isFinite_iff, hinf] at hb
    cases hb
  have haf := (isFinite_of_le ha hab hfinite).1
  have hdiv : unpacked (a / b) =
      repack (UnpackedFloat.div Format.binary64 (unpacked a) (unpacked b)) := rfl
  have hle := (float_le_iff.mp hab).2.2
  have hra := representable_unpacked a
  have hrb := representable_unpacked b
  obtain ⟨m₂, e₂, hm₂, hy⟩ := (cases_of_quanta_pos (zero_lt_iff.mp hpos).2).resolve_left hfinite
  rw [hdiv, hy]
  rw [hy] at hle hrb
  rcases cases_of_isFinite hra (zero_le_iff.mp ha) haf with ⟨s, hx⟩ | ⟨m₁, e₁, hm₁, hx⟩
  · have hzero : UnpackedFloat.div Format.binary64 (.zero s) (.finite .positive m₂ e₂ hm₂) =
        .zero (s / .positive) := rfl
    rw [hx, hzero, repack_zero]
    exact ⟨nofun, le_rfl, hone⟩
  · rw [hx] at hle hra
    rw [hx]
    rcases div_cases_of_units_le hm₁ hm₂ hra.1 hrb.1 (Int.ofNat_le.mp hle) with
      hzero | ⟨m, e, hm, heq, hcanonical, hunits⟩
    · rw [hzero, repack_zero]
      exact ⟨nofun, le_rfl, hone⟩
    · obtain ⟨hn, hquanta⟩ := quanta_repack .positive hm hcanonical
      rw [heq, hquanta]
      exact ⟨hn, Int.natCast_nonneg _, Int.ofNat_le.mpr ((min_le_left _ _).trans hunits)⟩

end Float
end BurstEnergy.Binary64

namespace BurstEnergy
open Binary64

instance : Scalar.Additive Float where
  neg_zero_agree := by decide +kernel
  add_le_add_right {a b t} ha hab ht := by
    have hgrown : b ≤ b + t := Scalar.Lawful.le_add (Scalar.Lawful.le_trans ha hab) ht.nonneg
    obtain ⟨-, hn, -⟩ := float_le_iff.mp (Scalar.Lawful.le_add ha ht.nonneg)
    obtain ⟨-, hn', hle⟩ := float_le_iff.mp hgrown
    refine float_le_iff.mpr ⟨hn, hn', ?_⟩
    by_cases hb : unpacked b = .infinity .positive
    · -- An infinite value stays infinite, and no sum is above it.
      rw [hb] at hle
      exact (quanta_le_ceiling (representable_unpacked _)).trans hle
    · obtain ⟨haf, hbf⟩ := isFinite_of_le ha hab hb
      have hsum {x : Float} (hxf : (unpacked x).isFinite = true) :
          quanta (unpacked (x + t)) = rounded (quanta (unpacked x) + quanta (unpacked t)) :=
        (quanta_add (representable_unpacked x) (representable_unpacked t) hxf ht.1).2
      rw [hsum haf, hsum hbf]
      exact rounded_mono (add_le_add_left (float_le_iff.mp hab).2.2 _)

instance : Scalar.Proportional Float where
  zero_le_one := zero_le_iff.mpr rfl
  div_bounds {part whole} hpart hle hpos hfin := by
    have hzero : unpacked 0 = .zero .positive := rfl
    obtain ⟨hn, hlow, hhigh⟩ := quanta_div_bounds hpart hle hpos hfin
    rw [float_le_iff, float_le_iff, hzero, quanta_one]
    exact ⟨⟨nofun, hn, hlow⟩, hn, nofun, hhigh⟩

end BurstEnergy
