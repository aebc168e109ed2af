import BurstEnergy.Proofs.Scalar.Binary64Order

/-!
# Binary64 rounds monotonically

A count is rounded by shifting out the digits that do not fit and by one look at the two residual
bits. Both steps keep the order of mantissas with residual bits, and a count on a coarser grid
rounds to no less than any count on a finer one, so rounding is monotone. A canonical value is not
changed.
-/
namespace BurstEnergy.Binary64
open Float.Model Float.Model.UnpackedFloat

section Shift

/-- A mantissa with nothing left to round. -/
abbrev exactly (mantissa : ℕ) : ExtendedMantissa := ⟨mantissa, false, false⟩

theorem shiftRight_succ (em : ExtendedMantissa) (k : ℕ) :
    em >>> (k + 1) = (em >>> k).shiftRightOne := rfl

theorem mantissa_shiftRight (em : ExtendedMantissa) (k : ℕ) :
    (em >>> k).mantissa = em.mantissa / 2 ^ k := by
  induction k with
  | zero => exact (Nat.div_one _).symm
  | succ k ih =>
    rw [shiftRight_succ, ExtendedMantissa.shiftRightOne, ih, Nat.div_div_eq_div_mul, pow_succ]

theorem exact_shiftRight {mantissa k : ℕ} (h : 2 ^ k ∣ mantissa) :
    exactly mantissa >>> k = exactly (mantissa / 2 ^ k) := by
  induction k with
  | zero =>
    rw [pow_zero, Nat.div_one]
    rfl
  | succ k ih =>
    have hk : 2 ^ k ∣ mantissa := (pow_dvd_pow 2 (Nat.le_succ k)).trans h
    have heven : 2 ∣ mantissa / 2 ^ k := by
      rwa [Nat.dvd_div_iff_mul_dvd hk, ← pow_succ]
    rw [shiftRight_succ, ih hk, ExtendedMantissa.shiftRightOne, Nat.div_div_eq_div_mul, ← pow_succ]
    simp [Nat.mod_eq_zero_of_dvd heven]

theorem shiftRight_add (em : ExtendedMantissa) (j k : ℕ) : em >>> (j + k) = (em >>> j) >>> k := by
  induction k with
  | zero => rfl
  | succ k ih => rw [← Nat.add_assoc, shiftRight_succ, shiftRight_succ, ih]

theorem shiftRight_mul_pow (m j k : ℕ) : exactly (m * 2 ^ j) >>> (j + k) = exactly m >>> k := by
  rw [shiftRight_add, exact_shiftRight (Nat.dvd_mul_left _ _),
    Nat.mul_div_cancel _ (by positivity)]

theorem le_roundedMantissa (em : ExtendedMantissa) : em.mantissa ≤ em.roundedMantissa := by
  rcases em with ⟨m, _ | _, _ | _⟩ <;>
    simp [ExtendedMantissa.roundedMantissa, ExtendedMantissa.accuracy, Accuracy.roundToNearestEven]

theorem roundedMantissa_le (em : ExtendedMantissa) : em.roundedMantissa ≤ em.mantissa + 1 := by
  rcases em with ⟨m, _ | _, _ | _⟩ <;>
    simp [ExtendedMantissa.roundedMantissa, ExtendedMantissa.accuracy, Accuracy.roundToNearestEven]
  omega

/-- The rounded mantissa is less than one step above the exact one. -/
theorem roundedMantissa_shiftRight_lt (mantissa k : ℕ) :
    (exactly mantissa >>> k).roundedMantissa * 2 ^ k <
      mantissa + 2 ^ k := by
  have hpos : 0 < 2 ^ k := by positivity
  have hdiv : mantissa / 2 ^ k * 2 ^ k ≤ mantissa := Nat.div_mul_le_self mantissa (2 ^ k)
  by_cases h : 2 ^ k ∣ mantissa
  · rw [exact_shiftRight h]
    show mantissa / 2 ^ k * 2 ^ k < _
    omega
  · have hlt : mantissa / 2 ^ k * 2 ^ k < mantissa :=
      lt_of_le_of_ne hdiv fun heq => h ⟨_, by rw [Nat.mul_comm, heq]⟩
    have hround : (exactly mantissa >>> k).roundedMantissa ≤
        mantissa / 2 ^ k + 1 := by
      have := roundedMantissa_le (exactly mantissa >>> k)
      rwa [mantissa_shiftRight] at this
    have hmul := Nat.mul_le_mul_right (2 ^ k) hround
    rw [Nat.add_mul, Nat.one_mul] at hmul
    omega

end Shift

section Residue
variable {a b : ExtendedMantissa}

/-- The place of a mantissa with its residual bits among all of them. -/
def rank (em : ExtendedMantissa) : ℕ :=
  4 * em.mantissa + 2 * em.roundBit.toNat + em.stickyBit.toNat

/-- Of the two residual bits that make room for a digit, it only stays whether any was set. -/
theorem rank_shiftRightOne (em : ExtendedMantissa) :
    rank em.shiftRightOne = 2 * (rank em / 4) + min (rank em % 4) 1 := by
  rcases em with ⟨m, _ | _, _ | _⟩ <;> rcases Nat.mod_two_eq_zero_or_one m with hm | hm <;>
    simp [rank, ExtendedMantissa.shiftRightOne, hm] <;> omega

/-- Shifting out digits keeps the order, because what is shifted out leaves its residue. -/
theorem rank_shiftRight_le (h : rank a ≤ rank b) (k : ℕ) : rank (a >>> k) ≤ rank (b >>> k) := by
  induction k with
  | zero => exact h
  | succ k ih =>
    rw [shiftRight_succ, shiftRight_succ, rank_shiftRightOne, rank_shiftRightOne]
    omega

theorem roundedMantissa_le_of_rank_le (h : rank a ≤ rank b) :
    a.roundedMantissa ≤ b.roundedMantissa := by
  rcases a with ⟨m, _ | _, _ | _⟩ <;> rcases b with ⟨n, _ | _, _ | _⟩ <;>
    simp [rank, ExtendedMantissa.roundedMantissa, ExtendedMantissa.accuracy,
      Accuracy.roundToNearestEven] at h ⊢ <;> omega

end Residue

section Round
variable {m k : ℕ} {e : ℤ} {accuracy : Accuracy}

/-- A carry out of 53 bits is the leading bit of the next exponent. -/
theorem units_carry (he : -1074 ≤ e) : units (2 ^ 53) e = units (2 ^ 52) (e + 1) := by
  rw [units_of_le he (Int.le_add_one le_rfl), add_sub_cancel_left]
  rfl

/-- The exponent that leaves 53 bits, or the lowest one. -/
def gridExponent (mantissa : ℕ) (exponent : ℤ) : ℤ := max (mantissa.log2 + exponent - 52) (-1074)

theorem targetExponent_totalExponent (m : ℕ) (e : ℤ) :
    Format.binary64.targetExponent (totalExponent m e) = gridExponent m e := by
  have hbits : (Format.binary64.mantissaBits : ℤ) = 53 := rfl
  have hmin : Format.binary64.minExponent = -1074 := by decide
  rw [Format.targetExponent, totalExponent, gridExponent, hbits, hmin]
  congr 1
  omega

theorem shiftToTargetExponent_eq (accuracy : Accuracy) (hk : gridExponent m e = e + k) :
    shiftToTargetExponent Format.binary64 m e accuracy =
      (ExtendedMantissa.ofMantissaAndAccuracy m accuracy >>> k, e + k) := by
  have hshift : (gridExponent m e - e).toNat = k := by omega
  rw [shiftToTargetExponent, targetExponent_totalExponent, shiftToExponent, hshift]

theorem shiftToTargetExponent_of_lt (hm : m < 2 ^ 53) (he : -1074 ≤ e) :
    shiftToTargetExponent Format.binary64 m e .exact = (exactly m, e) := by
  have hlog : m.log2 ≤ 52 := by
    rcases Nat.eq_zero_or_pos m with rfl | hpos
    · simp
    · have : m.log2 < 53 := (Nat.log2_lt hpos.ne').mpr hm
      omega
  have hshift : (gridExponent m e - e).toNat = 0 := by
    rw [gridExponent]
    omega
  rw [shiftToTargetExponent, targetExponent_totalExponent, shiftToExponent, hshift]
  simp only [Nat.cast_zero, add_zero]
  rfl

theorem shiftToTargetExponent_carry (he : -1074 ≤ e) :
    shiftToTargetExponent Format.binary64 (2 ^ 53) e .exact = (exactly (2 ^ 52), e + 1) := by
  have hk : gridExponent (2 ^ 53) e = e + (1 : ℕ) := by
    rw [gridExponent, Nat.log2_two_pow]
    omega
  rw [shiftToTargetExponent_eq .exact hk]
  exact congrArg (·, e + 1) (exact_shiftRight (by norm_num))

/-- A mantissa spans at most 53 bits of its grid, and exactly 53 above the lowest grid. -/
theorem mantissa_bounds (hk : gridExponent m e = e + k) :
    m < 2 ^ 53 * 2 ^ k ∧ (2 ^ 52 * 2 ^ k ≤ m ∨ e + k = -1074) := by
  rw [gridExponent] at hk
  rw [← pow_add, ← pow_add]
  constructor
  · exact Nat.lt_log2_self.trans_le (Nat.pow_le_pow_right (by norm_num) (by omega))
  · by_cases hlow : e + k = -1074
    · exact .inr hlow
    · have hlog : m.log2 = 52 + k := by omega
      have hm : m ≠ 0 := by
        rintro rfl
        rw [Nat.log2_zero] at hlog
        omega
      exact .inl (hlog ▸ Nat.log2_self_le hm)

/-- What is left of a mantissa when `k` digits are shifted out, after what was cut off it before. -/
def leftover (m : ℕ) (accuracy : Accuracy) (k : ℕ) : ℕ :=
  (ExtendedMantissa.ofMantissaAndAccuracy m accuracy >>> k).roundedMantissa

theorem mantissa_ofMantissaAndAccuracy (m : ℕ) (accuracy : Accuracy) :
    (ExtendedMantissa.ofMantissaAndAccuracy m accuracy).mantissa = m := by
  rcases accuracy with _ | _ | _ | _ <;> rfl

theorem le_leftover (m : ℕ) (accuracy : Accuracy) (k : ℕ) : m / 2 ^ k ≤ leftover m accuracy k := by
  have hle := le_roundedMantissa (ExtendedMantissa.ofMantissaAndAccuracy m accuracy >>> k)
  rwa [mantissa_shiftRight, mantissa_ofMantissaAndAccuracy] at hle

theorem leftover_le (m : ℕ) (accuracy : Accuracy) (k : ℕ) :
    leftover m accuracy k ≤ m / 2 ^ k + 1 := by
  have hle := roundedMantissa_le (ExtendedMantissa.ofMantissaAndAccuracy m accuracy >>> k)
  rwa [mantissa_shiftRight, mantissa_ofMantissaAndAccuracy] at hle

/-- A mantissa is rounded away when nothing is left of it. -/
theorem roundWithAccuracy_eq_zero (s : Sign) (hk : gridExponent m e = e + k)
    (hleft : leftover m accuracy k = 0) :
    roundWithAccuracy Format.binary64 s m e accuracy = .zero s := by
  have hgrid : -1074 ≤ e + k := hk ▸ le_max_right _ _
  rw [leftover] at hleft
  rw [roundWithAccuracy, shiftToTargetExponent_eq accuracy hk]
  simp only [hleft, shiftToTargetExponent_of_lt (show 0 < 2 ^ 53 by norm_num) hgrid, dite_true]

/-- Whatever was cut off it, a mantissa is rounded to what is left of it on its grid. -/
theorem roundWithAccuracy_eq_finite (s : Sign) (hk : gridExponent m e = e + k)
    (hleft : 0 < leftover m accuracy k) :
    ∃ m' e' hm', roundWithAccuracy Format.binary64 s m e accuracy = .finite s m' e' hm' ∧
      Canonical m' e' ∧ units m' e' = units (leftover m accuracy k) (e + k) := by
  have hpow : 0 < 2 ^ k := by positivity
  have hgrid : -1074 ≤ e + k := hk ▸ le_max_right _ _
  obtain ⟨hbound, hlead⟩ := mantissa_bounds hk
  have hfits : m / 2 ^ k < 2 ^ 53 := Nat.div_lt_of_lt_mul (by rwa [Nat.mul_comm])
  have hlow := le_leftover m accuracy k
  have hup := leftover_le m accuracy k
  rw [leftover] at hleft hlow hup ⊢
  set em := ExtendedMantissa.ofMantissaAndAccuracy m accuracy >>> k with hem
  rw [roundWithAccuracy, shiftToTargetExponent_eq accuracy hk]
  rcases Nat.lt_or_ge em.roundedMantissa (2 ^ 53) with hsmall | hbig
  · refine ⟨_, _, hleft, ?_, ⟨hsmall, hgrid, hlead.imp_left fun h => ?_⟩, rfl⟩
    · simp only [← hem, shiftToTargetExponent_of_lt hsmall hgrid, hleft.ne', dite_false]
    · exact ((Nat.le_div_iff_mul_le hpow).mpr h).trans hlow
  · have hmax : em.roundedMantissa = 2 ^ 53 := le_antisymm (hup.trans hfits) hbig
    refine ⟨2 ^ 52, e + k + 1, by norm_num, ?_, ⟨by norm_num, by omega, .inl le_rfl⟩, ?_⟩
    · simp only [← hem, hmax, shiftToTargetExponent_carry hgrid]
      rfl
    · rw [hmax, units_carry hgrid]

/-- Something is left of a positive mantissa on its grid. -/
theorem leftover_pos (hm : 0 < m) (he : -1074 ≤ e) (hk : gridExponent m e = e + k) :
    0 < leftover m .exact k := by
  refine (Nat.div_pos ?_ (by positivity)).trans_le (le_leftover m .exact k)
  rcases (mantissa_bounds hk).2 with h | h
  · exact (Nat.le_mul_of_pos_left _ (by norm_num)).trans h
  · obtain rfl : k = 0 := by omega
    exact hm

theorem log2_shiftLeft (hm : 0 < m) (k : ℕ) : (m <<< k).log2 = m.log2 + k := by
  induction k with
  | zero => rfl
  | succ k ih =>
    have hk : m <<< k ≠ 0 := by
      rw [Nat.shiftLeft_eq]
      positivity
    rw [Nat.shiftLeft_succ, Nat.log2_two_mul hk, ih, Nat.add_assoc]

/-- How many digits of a count do not fit. -/
def excess (value : ℕ) : ℕ := value.log2 - 52

/-- The count that a count is rounded to. -/
def roundedCount (value : ℕ) : ℕ :=
  (exactly value >>> excess value).roundedMantissa * 2 ^ excess value

/-- The rounded count depends on the count alone, not on the exponent it is written with. -/
theorem roundedCount_units (hm : 0 < m) (he : -1074 ≤ e) (hk : gridExponent m e = e + k) :
    roundedCount (units m e) = units (exactly m >>> k).roundedMantissa (e + k) := by
  have hlog : (units m e).log2 = m.log2 + (e + 1074).toNat := by
    rw [units, ← Nat.shiftLeft_eq, log2_shiftLeft hm]
  have hexcess : excess (units m e) = (e + 1074).toNat + k := by
    rw [gridExponent] at hk
    rw [excess, hlog]
    omega
  have hgrid : (e + k + 1074).toNat = (e + 1074).toNat + k := by omega
  rw [roundedCount, hexcess, units, shiftRight_mul_pow, units, hgrid]

/-- Rounding a positive mantissa that is not above its grid. -/
theorem roundWithAccuracy_spec (s : Sign) (hm : 0 < m) (he : -1074 ≤ e)
    (hk : gridExponent m e = e + k) :
    ∃ m' e' hm', roundWithAccuracy Format.binary64 s m e .exact = .finite s m' e' hm' ∧
      Canonical m' e' ∧ units m' e' = roundedCount (units m e) := by
  obtain ⟨m', e', hm', heq, hcanonical, hunits⟩ :=
    roundWithAccuracy_eq_finite s hk (leftover_pos hm he hk)
  exact ⟨m', e', hm', heq, hcanonical, hunits.trans (roundedCount_units hm he hk).symm⟩

/-- A positive value with an exponent from the lowest one up is rounded to a canonical value. -/
theorem round_eq_finite (s : Sign) (hm : 0 < m) (he : -1074 ≤ e) :
    ∃ m' e' hm', round Format.binary64 s m e = .finite s m' e' hm' ∧
      Canonical m' e' ∧ units m' e' = roundedCount (units m e) := by
  set t := gridExponent m e with ht
  have hgrid : -1074 ≤ t := le_max_right _ _
  have hm' : 0 < m <<< (e - t).toNat := by
    rw [Nat.shiftLeft_eq]
    positivity
  have hk : gridExponent (m <<< (e - t).toNat) (e - (e - t).toNat) =
      e - (e - t).toNat + (t - e).toNat := by
    have hsame : gridExponent (m <<< (e - t).toNat) (e - (e - t).toNat) = t := by
      rw [ht, gridExponent, gridExponent, log2_shiftLeft hm]
      congr 1
      push_cast
      ring
    omega
  have hvalue : units m e = units (m <<< (e - t).toNat) (e - (e - t).toNat) := by
    rw [units_of_le (by omega) (Int.sub_le_self e (Int.natCast_nonneg (e - t).toNat)),
      sub_sub_cancel, Int.toNat_natCast, Nat.shiftLeft_eq]
  rw [hvalue, UnpackedFloat.round, targetExponent_totalExponent]
  exact roundWithAccuracy_spec s hm' (by omega) hk

end Round

section Counts
variable {a b m : ℕ} {e : ℤ}

/-- A count rounds to at most 53 bits of its grid. -/
theorem roundedCount_le_grid (a : ℕ) : roundedCount a ≤ 2 ^ 53 * 2 ^ excess a := by
  have hbound : a < 2 ^ 53 * 2 ^ excess a := by
    rw [← pow_add]
    exact Nat.lt_log2_self.trans_le (Nat.pow_le_pow_right (by norm_num) (by rw [excess]; omega))
  have hup := roundedMantissa_shiftRight_lt a (excess a)
  have hlt : (exactly a >>> excess a).roundedMantissa * 2 ^ excess a <
      (2 ^ 53 + 1) * 2 ^ excess a := by
    rw [Nat.add_mul]
    omega
  exact Nat.mul_le_mul_right _ (Nat.le_of_lt_succ (Nat.lt_of_mul_lt_mul_right hlt))

/-- A count that loses digits rounds to no less than the leading bit of its grid. -/
theorem grid_le_roundedCount (h : 0 < excess b) : 2 ^ 52 * 2 ^ excess b ≤ roundedCount b := by
  have hne : b ≠ 0 := by
    rintro rfl
    simp [excess] at h
  have hlead : 2 ^ 52 * 2 ^ excess b ≤ b := by
    have hlog : b.log2 = 52 + excess b := by
      rw [excess] at h ⊢
      omega
    rw [← pow_add, ← hlog]
    exact Nat.log2_self_le hne
  have hdiv : 2 ^ 52 ≤ b / 2 ^ excess b := (Nat.le_div_iff_mul_le (by positivity)).mpr hlead
  have hlow := le_roundedMantissa (exactly b >>> excess b)
  rw [mantissa_shiftRight] at hlow
  exact Nat.mul_le_mul_right _ (hdiv.trans hlow)

theorem excess_mono (h : a ≤ b) : excess a ≤ excess b := by
  rcases Nat.eq_zero_or_pos a with rfl | ha
  · simp [excess]
  · have hlog : a.log2 ≤ b.log2 :=
      (Nat.le_log2 (by omega)).mpr ((Nat.log2_self_le ha.ne').trans h)
    rw [excess, excess]
    omega

theorem roundedCount_mono (h : a ≤ b) : roundedCount a ≤ roundedCount b := by
  rcases (excess_mono h).eq_or_lt with heq | hlt
  · have hrank : rank (exactly a) ≤ rank (exactly b) := by simpa [rank] using h
    rw [roundedCount, roundedCount, ← heq]
    exact Nat.mul_le_mul_right _
      (roundedMantissa_le_of_rank_le (rank_shiftRight_le hrank (excess a)))
  · have hpow : 2 ^ (excess a + 1) ≤ 2 ^ excess b := Nat.pow_le_pow_right (by norm_num) hlt
    calc roundedCount a ≤ 2 ^ 53 * 2 ^ excess a := roundedCount_le_grid a
      _ = 2 ^ 52 * 2 ^ (excess a + 1) := by rw [pow_succ _ (excess a)]; ring
      _ ≤ 2 ^ 52 * 2 ^ excess b := Nat.mul_le_mul_left _ hpow
      _ ≤ roundedCount b := grid_le_roundedCount (by omega)

@[simp] theorem roundedCount_zero : roundedCount 0 = 0 := by decide

theorem Canonical.roundedCount_eq (h : Canonical m e) : roundedCount (units m e) = units m e := by
  rcases Nat.eq_zero_or_pos m with rfl | hm
  · simp [units]
  · have hlog : m.log2 ≤ 52 := Nat.le_of_lt_succ ((Nat.log2_lt hm.ne').mpr h.bound)
    have hgrid : gridExponent m e = e + (0 : ℕ) := by
      have hlow := h.lowest
      rw [gridExponent]
      rcases h.leading with hlead | heq
      · have : 52 ≤ m.log2 := (Nat.le_log2 hm.ne').mpr hlead
        omega
      · omega
    have hcount := roundedCount_units hm h.lowest hgrid
    simp only [Nat.cast_zero, add_zero] at hcount
    exact hcount

end Counts

end BurstEnergy.Binary64
