import BurstEnergy.Proofs.Scalar.Binary64Monotone
import BurstEnergy.Proofs.Scalar.Lawful

/-!
# Binary64 quotients above zero

A quotient is cut to whole steps of its grid, and what is cut off only shows in the residual bits.
So it is above zero when the exact quotient reaches the smallest positive value. The mean of growing
values does: over `n` steps they grow by `n` times the smallest positive value, and rounding that
difference and the count `n` rounds both alike. The count is never too great for that, because there
are fewer values than `2 ^ 64`.
-/
namespace BurstEnergy.Binary64
open Float.Model Float.Model.UnpackedFloat

section Quotient
variable {m₁ m₂ : ℕ} {e₁ e₂ : ℤ}

/-- The exponent that a quotient is cut at. -/
def quotientExponent (m₁ : ℕ) (e₁ : ℤ) (m₂ : ℕ) (e₂ : ℤ) : ℤ :=
  min (e₁ - e₂) (max (m₁.log2 + e₁ - (m₂.log2 + e₂) - 53) (-1074))

theorem divCore_eq : divCore Format.binary64 m₁ e₁ m₂ e₂ =
    (m₁ <<< (e₁ - e₂ - quotientExponent m₁ e₁ m₂ e₂).toNat / m₂, quotientExponent m₁ e₁ m₂ e₂,
      accuracyOfFraction (m₁ <<< (e₁ - e₂ - quotientExponent m₁ e₁ m₂ e₂).toNat % m₂) m₂) := by
  have hexp : min (e₁ - e₂)
      (Format.binary64.targetExponent (totalExponent m₁ e₁ - totalExponent m₂ e₂)) =
      quotientExponent m₁ e₁ m₂ e₂ := by
    have hbits : (Format.binary64.mantissaBits : ℤ) = 53 := rfl
    have hmin : Format.binary64.minExponent = -1074 := by decide
    rw [Format.targetExponent, totalExponent, totalExponent, hbits, hmin, quotientExponent]
    congr 2
    omega
  rw [divCore, hexp]

/-- Above the lowest exponent a quotient is cut to at least 53 bits. -/
theorem le_quotient_of_lt (hm₁ : 0 < m₁) (hm₂ : 0 < m₂) {k : ℕ}
    (hk : e₁ - e₂ = quotientExponent m₁ e₁ m₂ e₂ + k)
    (hlow : -1074 < quotientExponent m₁ e₁ m₂ e₂) : 2 ^ 52 ≤ m₁ * 2 ^ k / m₂ := by
  have hbits : m₂.log2 + 1 + 52 ≤ m₁.log2 + k := by
    rw [quotientExponent] at hk hlow
    omega
  rw [Nat.le_div_iff_mul_le hm₂]
  calc 2 ^ 52 * m₂ ≤ 2 ^ 52 * 2 ^ (m₂.log2 + 1) := Nat.mul_le_mul_left _ Nat.lt_log2_self.le
    _ = 2 ^ (m₂.log2 + 1 + 52) := by rw [← pow_add, Nat.add_comm]
    _ ≤ 2 ^ (m₁.log2 + k) := Nat.pow_le_pow_right (by norm_num) hbits
    _ = 2 ^ m₁.log2 * 2 ^ k := pow_add ..
    _ ≤ m₁ * 2 ^ k := Nat.mul_le_mul_right _ (Nat.log2_self_le hm₁.ne')

/-- A quotient of at least the smallest positive value is cut to at least that. -/
theorem le_quotient_of_units_le (hm₂ : 0 < m₂) (h₁ : -1074 ≤ e₁) (h₂ : -1074 ≤ e₂) {k j : ℕ}
    (hk : e₁ - e₂ = quotientExponent m₁ e₁ m₂ e₂ + k)
    (hj : quotientExponent m₁ e₁ m₂ e₂ + j = -1074)
    (hle : units m₂ e₂ ≤ units m₁ e₁ * 2 ^ 1074) : 2 ^ j ≤ m₁ * 2 ^ k / m₂ := by
  have hexp : j + ((e₁ + 1074).toNat + 1074) = k + (e₂ + 1074).toNat := by omega
  have hpow : 0 < 2 ^ (e₂ + 1074).toNat := by positivity
  rw [Nat.le_div_iff_mul_le hm₂]
  refine Nat.le_of_mul_le_mul_right ?_ hpow
  calc 2 ^ j * m₂ * 2 ^ (e₂ + 1074).toNat = 2 ^ j * units m₂ e₂ := by rw [units, Nat.mul_assoc]
    _ ≤ 2 ^ j * (units m₁ e₁ * 2 ^ 1074) := Nat.mul_le_mul_left _ hle
    _ = m₁ * 2 ^ (j + ((e₁ + 1074).toNat + 1074)) := by
      rw [units, Nat.mul_assoc m₁, ← pow_add, Nat.mul_left_comm, ← pow_add]
    _ = m₁ * 2 ^ k * 2 ^ (e₂ + 1074).toNat := by rw [hexp, pow_add, Nat.mul_assoc]

/-- A mantissa that has all its bits, or whose exponent is the lowest or less, is not below its
grid. -/
theorem exists_grid {q : ℕ} {t : ℤ} (hlead : -1074 < t → 2 ^ 52 ≤ q) :
    ∃ j : ℕ, gridExponent q t = t + j := by
  refine ⟨(gridExponent q t - t).toNat, ?_⟩
  rcases lt_or_ge (-1074) t with ht | ht
  · have hq : q ≠ 0 := (Nat.lt_of_lt_of_le (by norm_num) (hlead ht)).ne'
    have hlog : 52 ≤ q.log2 := (Nat.le_log2 hq).mpr (hlead ht)
    rw [gridExponent]
    omega
  · rw [gridExponent]
    omega

/-- A mantissa that also has at least the lowest step has at least one step of its grid. -/
theorem le_of_grid {q j : ℕ} {t : ℤ} (hlead : -1074 < t → 2 ^ 52 ≤ q)
    (hlow : ∀ i : ℕ, t + i = -1074 → 2 ^ i ≤ q) (hj : gridExponent q t = t + j) : 2 ^ j ≤ q := by
  rw [gridExponent] at hj
  rcases eq_or_ne (t + j) (-1074) with hlowest | hlowest
  · exact hlow j hlowest
  · have hq : q ≠ 0 := by
      rintro rfl
      rw [Nat.log2_zero] at hj
      omega
    exact (Nat.le_log2 hq).mp (by omega)

/-- A quotient of positive values is cut to whole steps and rounded to its grid. -/
theorem exists_div_eq (hm₁ : 0 < m₁) (hm₂ : 0 < m₂) (e₁ e₂ : ℤ) : ∃ k j : ℕ,
    e₁ - e₂ = quotientExponent m₁ e₁ m₂ e₂ + k ∧
    gridExponent (m₁ * 2 ^ k / m₂) (quotientExponent m₁ e₁ m₂ e₂) =
      quotientExponent m₁ e₁ m₂ e₂ + j ∧
    UnpackedFloat.div Format.binary64 (.finite .positive m₁ e₁ hm₁) (.finite .positive m₂ e₂ hm₂) =
      roundWithAccuracy Format.binary64 .positive (m₁ * 2 ^ k / m₂)
        (quotientExponent m₁ e₁ m₂ e₂) (accuracyOfFraction (m₁ * 2 ^ k % m₂) m₂) := by
  have htop : quotientExponent m₁ e₁ m₂ e₂ ≤ e₁ - e₂ := min_le_left _ _
  obtain ⟨k, hk⟩ : ∃ k : ℕ, e₁ - e₂ = quotientExponent m₁ e₁ m₂ e₂ + k :=
    ⟨(e₁ - e₂ - quotientExponent m₁ e₁ m₂ e₂).toNat, by omega⟩
  have hshift : m₁ <<< (e₁ - e₂ - quotientExponent m₁ e₁ m₂ e₂).toNat = m₁ * 2 ^ k := by
    rw [Nat.shiftLeft_eq]
    congr 2
    omega
  obtain ⟨j, hj⟩ := exists_grid (le_quotient_of_lt hm₁ hm₂ hk)
  refine ⟨k, j, hk, hj, ?_⟩
  rw [UnpackedFloat.div, divCore_eq, hshift]
  rfl

/-- A quotient of at least the smallest positive value is not rounded away. -/
theorem div_eq_finite (hm₁ : 0 < m₁) (hm₂ : 0 < m₂) (h₁ : -1074 ≤ e₁) (h₂ : -1074 ≤ e₂)
    (hle : units m₂ e₂ ≤ units m₁ e₁ * 2 ^ 1074) :
    ∃ m e hm, UnpackedFloat.div Format.binary64 (.finite .positive m₁ e₁ hm₁)
      (.finite .positive m₂ e₂ hm₂) = .finite .positive m e hm ∧ Canonical m e := by
  obtain ⟨k, j, hk, hj, hdiv⟩ := exists_div_eq hm₁ hm₂ e₁ e₂
  have hstep : 2 ^ j ≤ m₁ * 2 ^ k / m₂ := le_of_grid (le_quotient_of_lt hm₁ hm₂ hk)
    (fun i hi => le_quotient_of_units_le hm₂ h₁ h₂ hk hi hle) hj
  rw [hdiv]
  obtain ⟨m, e, hm, heq, hcanonical, -⟩ := roundWithAccuracy_eq_finite .positive hj
    ((Nat.div_pos hstep (by positivity)).trans_le (le_leftover _ _ j))
  exact ⟨m, e, hm, heq, hcanonical⟩

end Quotient

section Naturals
variable {n m : ℕ} {e : ℤ}

theorem roundedCount_one : roundedCount 1 = 1 := by decide

theorem units_zero (n : ℕ) : units n 0 = n * 2 ^ 1074 := by
  have hexp : ((0 : ℤ) + 1074).toNat = 1074 := by omega
  rw [units, hexp]

/-- Rounding a whole number and rounding as many smallest values are alike. -/
theorem roundedCount_units_zero (hn : 0 < n) :
    roundedCount (units n 0) = roundedCount n * 2 ^ 1074 := by
  have hscale (m : ℕ) (k : ℕ) : units m (0 + k) = m * 2 ^ k * 2 ^ 1074 := by
    have hexp : ((0 : ℤ) + k + 1074).toNat = k + 1074 := by omega
    rw [units, hexp, pow_add, Nat.mul_assoc]
  rcases le_or_gt 52 n.log2 with hlog | hlog
  · have hk : gridExponent n 0 = 0 + (excess n : ℕ) := by
      rw [gridExponent, excess]
      omega
    rw [roundedCount_units hn (by norm_num) hk, hscale, roundedCount]
  · have hfits : n < 2 ^ 52 := (Nat.log2_lt hn.ne').mp hlog
    have hlow : Canonical n (-1074) := ⟨hfits.trans (by norm_num), le_rfl, .inr rfl⟩
    have hcount : roundedCount n = n := by simpa [units] using hlow.roundedCount_eq
    have hlead : Canonical (n * 2 ^ (52 - n.log2)) (n.log2 - 52) := by
      have hbits : n * 2 ^ (52 - n.log2) = n <<< (52 - n.log2) := (Nat.shiftLeft_eq ..).symm
      have hpos : 0 < n * 2 ^ (52 - n.log2) := by positivity
      have hlog2 : (n * 2 ^ (52 - n.log2)).log2 = 52 := by
        rw [hbits, log2_shiftLeft hn]
        omega
      refine ⟨(Nat.log2_lt hpos.ne').mp (by omega), by omega, .inl ?_⟩
      exact (Nat.le_log2 hpos.ne').mp hlog2.ge
    have hsame : units n 0 = units (n * 2 ^ (52 - n.log2)) (n.log2 - 52) := by
      have hexp : ((0 : ℤ) - (n.log2 - 52)).toNat = 52 - n.log2 := by omega
      have hlowest : (-1074 : ℤ) ≤ n.log2 - 52 := by omega
      rw [units_of_le hlowest (by omega), hexp]
    rw [hsame, hlead.roundedCount_eq, ← hsame, hcount, units_zero]

theorem roundedCount_units_lt_ceiling (hn : n ≤ 2 ^ 64) : roundedCount (units n 0) < ceiling := by
  have htop : Canonical (2 ^ 52) 12 := ⟨by norm_num, by norm_num, .inl le_rfl⟩
  have hle : units n 0 ≤ units (2 ^ 52) 12 := by
    rw [units_of_le (show (-1074 : ℤ) ≤ 0 by norm_num) (show (0 : ℤ) ≤ 12 by norm_num)]
    exact units_le_units_iff.mpr hn
  calc roundedCount (units n 0) ≤ roundedCount (units (2 ^ 52) 12) := roundedCount_mono hle
    _ = units (2 ^ 52) 12 := htop.roundedCount_eq
    _ < ceiling := htop.units_lt_ceiling (by norm_num)

/-- A positive value that counts a number of smallest values. -/
def Counts (x : UnpackedFloat) (value : ℕ) : Prop :=
  ∃ m e hm, x = .finite .positive m e hm ∧ Canonical m e ∧ units m e = value

theorem counts_repack {x : UnpackedFloat} {value : ℕ} (h : Counts x value)
    (hlt : value < ceiling) : Counts (repack x) value := by
  obtain ⟨m, e, hm, rfl, hcanonical, rfl⟩ := h
  have he : e ≤ 971 := by
    by_contra hhigh
    exact absurd (hcanonical.ceiling_le_iff.mpr (not_le.mp hhigh)) (not_le.mpr hlt)
  exact ⟨m, e, hm, repack_finite ⟨hcanonical, he⟩, hcanonical, rfl⟩

/-- Rounding an exact value and reading it back. -/
theorem counts_roundWithAccuracy {t : ℤ} (hm : 0 < m) (ht : -1074 ≤ t)
    (hgrid : t ≤ gridExponent m t) (hlt : roundedCount (units m t) < ceiling) :
    Counts (repack (roundWithAccuracy Format.binary64 .positive m t .exact))
      (roundedCount (units m t)) := by
  have hk : gridExponent m t = t + ((gridExponent m t - t).toNat : ℕ) := by omega
  exact counts_repack (roundWithAccuracy_spec .positive hm ht hk) hlt

theorem counts_mul_one {x : UnpackedFloat} {value : ℕ} (hx : Counts x value)
    (hle : units 1 0 ≤ value) (hlt : value < ceiling) :
    Counts (repack (UnpackedFloat.mul Format.binary64 x
      (.finite .positive (2 ^ 52) (-52) (by norm_num)))) value := by
  obtain ⟨m, e, hm, rfl, hcanonical, rfl⟩ := hx
  have hlow : -52 ≤ e := by
    have hone : Canonical (2 ^ 52) (-52) := ⟨by norm_num, by norm_num, .inl le_rfl⟩
    rw [units_of_le (show (-1074 : ℤ) ≤ -52 by norm_num) (show (-52 : ℤ) ≤ 0 by norm_num)] at hle
    by_contra hbelow
    exact absurd hle (not_le.mpr (hcanonical.units_lt hone (not_le.mp hbelow)))
  have hscale : units m e = units (m * 2 ^ 52) (e + -52) := by
    have hexp : (e - (e + -52)).toNat = 52 := by omega
    have hlowest : -1074 ≤ e + -52 := by omega
    rw [units_of_le hlowest (by omega), hexp]
  have hgrid : e + -52 ≤ gridExponent (m * 2 ^ 52) (e + -52) := by
    rw [gridExponent, ← Nat.shiftLeft_eq, log2_shiftLeft hm]
    omega
  have hsame : roundedCount (units (m * 2 ^ 52) (e + -52)) = units m e := by
    rw [← hscale, hcanonical.roundedCount_eq]
  have hpos : 0 < m * 2 ^ 52 := Nat.mul_pos hm (by norm_num)
  have hcount := counts_roundWithAccuracy hpos (by omega) hgrid (hsame.trans_lt hlt)
  rwa [hsame] at hcount

/-- A whole number below `2 ^ 53` is converted through an integer type and multiplied by one. -/
theorem counts_ofNat_of_lt (hn : 0 < n) (hlt : n < 2 ^ 53) :
    Counts (unpacked (Float.ofNat n)) (roundedCount (units n 0)) := by
  have hceil : roundedCount (units n 0) < ceiling :=
    roundedCount_units_lt_ceiling (hlt.le.trans (by norm_num))
  have hsplit : Float.ofNat n = n.toUInt64.toFloat * Float.ofBits 4607182418800017408 := by
    show Float.ofScientific n false 0 = _
    rw [Float.ofScientific, dif_pos ⟨hlt, Nat.zero_le _⟩]
    rfl
  have hone : unpacked (Float.ofBits 4607182418800017408) =
      .finite .positive (2 ^ 52) (-52) (by norm_num) := rfl
  have hconvert : unpacked n.toUInt64.toFloat = repack (round Format.binary64 .positive n 0) := by
    have hsame : n.toUInt64.toNat = n := Nat.mod_eq_of_lt (by omega)
    rw [← normalize_natCast hn 0 .positive]
    show repack (normalize Format.binary64 (n.toUInt64.toNat : ℕ) 0 .positive) = _
    rw [hsame]
  have hmul : unpacked (Float.ofNat n) = repack (UnpackedFloat.mul Format.binary64
      (unpacked n.toUInt64.toFloat) (unpacked (Float.ofBits 4607182418800017408))) := by
    rw [hsplit]
    rfl
  have hround := round_eq_finite .positive hn (show (-1074 : ℤ) ≤ 0 by norm_num)
  have hle : units 1 0 ≤ roundedCount (units n 0) := by
    have hunit : roundedCount (units 1 0) = units 1 0 :=
      calc roundedCount (units 1 0) = roundedCount 1 * 2 ^ 1074 := roundedCount_units_zero one_pos
        _ = 1 * 2 ^ 1074 := congrArg (· * 2 ^ 1074) roundedCount_one
        _ = units 1 0 := (units_zero 1).symm
    exact hunit.symm.trans_le (roundedCount_mono (units_le_units_iff.mpr hn))
  rw [hmul, hone, hconvert]
  exact counts_mul_one (counts_repack hround hceil) hle hceil

/-- A whole number from `2 ^ 53` up is rounded from its digits. -/
theorem counts_ofNat_of_ge (hge : 2 ^ 53 ≤ n) (hn : n ≤ 2 ^ 64) :
    Counts (unpacked (Float.ofNat n)) (roundedCount (units n 0)) := by
  have hpos : 0 < n := lt_of_lt_of_le (by norm_num) hge
  have hsmall : ¬ (0 : ℤ) > 2 ^ Format.binary64.exponentBits := by decide
  have hgreat : ¬ (0 : ℤ) < -(2 ^ Format.binary64.exponentBits + (n.log2 : ℤ)) := by
    have hbits : (0 : ℤ) < 2 ^ Format.binary64.exponentBits := by decide
    omega
  have hexact : unpacked (Float.ofNat n) =
      repack (roundWithAccuracy Format.binary64 .positive (n <<< 53 * 1) (-53) .exact) := by
    show unpacked (Float.ofScientific n false 0) = _
    rw [Float.ofScientific, dif_neg (fun h => absurd h.1 (not_lt.mpr hge))]
    show repack (UnpackedFloat.ofScientific Format.binary64 n 0) = _
    rw [UnpackedFloat.ofScientific, dif_neg hpos.ne', if_neg hsmall, if_neg hgreat, if_pos le_rfl]
    rfl
  have hscale : units n 0 = units (n <<< 53 * 1) (-53) := by
    rw [units_of_le (show (-1074 : ℤ) ≤ -53 by norm_num) (show (-53 : ℤ) ≤ 0 by norm_num),
      Nat.mul_one, Nat.shiftLeft_eq]
    rfl
  have hgrid : -53 ≤ gridExponent (n <<< 53 * 1) (-53) := by
    rw [gridExponent, Nat.mul_one, log2_shiftLeft hpos]
    omega
  rw [hexact, hscale]
  refine counts_roundWithAccuracy ?_ (by norm_num) hgrid ?_
  · rw [Nat.mul_one, Nat.shiftLeft_eq]
    positivity
  · rw [← hscale]
    exact roundedCount_units_lt_ceiling hn

theorem counts_ofNat (hn : 0 < n) (hle : n ≤ 2 ^ 64) :
    Counts (unpacked (Float.ofNat n)) (roundedCount n * 2 ^ 1074) := by
  rw [← roundedCount_units_zero hn]
  rcases Nat.lt_or_ge n (2 ^ 53) with hlt | hge
  · exact counts_ofNat_of_lt hn hlt
  · exact counts_ofNat_of_ge hge hle

theorem roundedCount_pos (hn : 0 < n) : 0 < roundedCount n := by
  have hle : roundedCount 1 ≤ roundedCount n := roundedCount_mono hn
  rw [roundedCount_one] at hle
  exact hle

theorem rounded_eq_roundedCount (hn : 0 < n) (hle : n ≤ 2 ^ 64) : rounded n = roundedCount n := by
  have hlt : roundedCount n < ceiling :=
    calc roundedCount n ≤ roundedCount n * 2 ^ 1074 := Nat.le_mul_of_pos_right _ (by positivity)
      _ = roundedCount (units n 0) := (roundedCount_units_zero hn).symm
      _ < ceiling := roundedCount_units_lt_ceiling hle
  rw [rounded_natCast, min_eq_left hlt.le]

theorem rounded_pos_iff {v : ℤ} : 0 < rounded v ↔ 0 < v := by
  constructor
  · intro hpos
    by_contra hle
    exact absurd (rounded_mono (not_lt.mp hle)) (not_le.mpr (rounded_zero.symm ▸ hpos))
  · intro hpos
    obtain ⟨n, rfl⟩ := Int.eq_ofNat_of_zero_le hpos.le
    rw [rounded_natCast]
    exact Int.natCast_pos.mpr (lt_min (roundedCount_pos (Int.natCast_pos.mp hpos)) ceiling_pos)

end Naturals

section Means
variable {a b x y : Float} {values : List Float} {i k n : ℕ}

theorem zero_lt_iff : 0 < a ↔ unpacked a ≠ .notANumber ∧ 0 < quanta (unpacked a) := by
  have hzero : unpacked 0 = .zero .positive := rfl
  rw [float_lt_iff, hzero]
  exact and_iff_right nofun

/-- A difference of finite values is above zero when it grows. -/
theorem zero_lt_sub_iff (ha : a.isFinite = true) (hb : b.isFinite = true) :
    0 < a - b ↔ b < a := by
  obtain ⟨hn, hquanta⟩ := quanta_sub (representable_unpacked a) (representable_unpacked b) ha hb
  rw [zero_lt_iff, unpacked_sub, hquanta, rounded_pos_iff, Int.sub_pos, float_lt_iff]
  simp only [ne_eq, hn, not_false_eq_true, ne_notANumber_of_isFinite ha,
    ne_notANumber_of_isFinite hb, true_and]

theorem cases_of_quanta_pos {x : UnpackedFloat} (h : 0 < quanta x) :
    x = .infinity .positive ∨ ∃ m e hm, x = .finite .positive m e hm := by
  rcases x with (_ | _) | _ | s | ⟨_ | _, m, e, hm⟩ <;> simp only [quanta, Sign.apply] at h
  case infinity.positive => exact .inl rfl
  case finite.positive => exact .inr ⟨m, e, hm, rfl⟩
  all_goals omega

/-- What is at least as many smallest values as a number counts has a quotient by it. -/
theorem zero_lt_div {value : ℕ} (hpos : 0 < quanta (unpacked a)) (hle : value ≤ quanta (unpacked a))
    (hb : Counts (unpacked b) (value * 2 ^ 1074)) : 0 < a / b := by
  obtain ⟨m₂, e₂, hm₂, hy, hcanonical, hcount⟩ := hb
  have hdiv : unpacked (a / b) =
      repack (UnpackedFloat.div Format.binary64 (unpacked a) (unpacked b)) := rfl
  have hrep := representable_unpacked a
  rw [zero_lt_iff, hdiv, hy]
  rcases cases_of_quanta_pos hpos with hx | ⟨m₁, e₁, hm₁, hx⟩
  · have hinf : UnpackedFloat.div Format.binary64 (.infinity .positive)
        (.finite .positive m₂ e₂ hm₂) = .infinity .positive := rfl
    rw [hx] at hpos
    rw [hx, hinf, repack_infinity]
    refine ⟨fun h => ?_, hpos⟩
    cases h
  · rw [hx] at hle hrep
    have hunits : units m₂ e₂ ≤ units m₁ e₁ * 2 ^ 1074 :=
      hcount.trans_le (Nat.mul_le_mul_right _ (Int.ofNat_le.mp hle))
    obtain ⟨m, e, hm, heq, hc⟩ := div_eq_finite hm₁ hm₂ hrep.1.lowest hcanonical.lowest hunits
    obtain ⟨hn, hquanta⟩ := quanta_repack .positive hm hc
    rw [hx, heq]
    refine ⟨hn, ?_⟩
    rw [hquanta]
    exact Int.natCast_pos.mpr (lt_min (units_pos hm) ceiling_pos)

theorem binary64Rank_lt (h : x < y) : binary64Rank x < binary64Rank y := by
  by_contra hge
  exact Scalar.not_le_of_lt h (le_of_binary64Rank_le (not_lt.mp hge) (float_lt_iff.mp h).1)

theorem binary64Rank_bounds (x : Float) : -2 ^ 63 ≤ binary64Rank x ∧ binary64Rank x < 2 ^ 63 := by
  have hbits : (bits x).toNat < 2 ^ 64 := (bits x).isLt
  rw [binary64Rank_eq]
  split <;> omega

/-- What grows with a value grows by one over every step at least. -/
theorem add_le_of_pairwise_lt {f : Float → ℤ} (hf : ∀ {x y}, x < y → f x < f y)
    (hgrow : values.Pairwise (· < ·)) (ha : values[i]? = some a) (hb : values[i + k]? = some b) :
    f a + k ≤ f b := by
  induction k generalizing b with
  | zero =>
    obtain rfl := Option.some.inj (ha.symm.trans hb)
    omega
  | succ k ih =>
    obtain ⟨hlt, rfl⟩ := List.getElem?_eq_some_iff.mp hb
    have hbefore : i + k < values.length := Nat.lt_of_succ_lt hlt
    have hlast := ih (List.getElem?_eq_getElem hbefore)
    have hstep := hf (List.pairwise_iff_getElem.mp hgrow (i + k) (i + (k + 1)) hbefore hlt
      (Nat.lt_succ_self _))
    push_cast
    omega

/-- The mean of growing values is above zero, also when it is taken over fewer steps. -/
theorem zero_lt_mean (hfin : ∀ x ∈ values, x.isFinite = true) (hgrow : values.Pairwise (· < ·))
    (ha : values[i]? = some a) (hb : values[i + k]? = some b) (hnk : n ≤ k) (hn : 0 < n) :
    0 < (b - a) / Float.ofNat n := by
  have hcount : n ≤ 2 ^ 64 := by
    have hrank := add_le_of_pairwise_lt (f := binary64Rank) binary64Rank_lt hgrow ha hb
    have hlow := (binary64Rank_bounds a).1
    have hhigh := (binary64Rank_bounds b).2
    omega
  have hstep : quanta (unpacked a) + k ≤ quanta (unpacked b) :=
    add_le_of_pairwise_lt (f := fun x => quanta (unpacked x)) (fun h => (float_lt_iff.mp h).2.2)
      hgrow ha hb
  have hquanta : quanta (unpacked (b - a)) = rounded (quanta (unpacked b) - quanta (unpacked a)) :=
    (quanta_sub (representable_unpacked b) (representable_unpacked a)
      (hfin b (List.mem_of_getElem? hb)) (hfin a (List.mem_of_getElem? ha))).2
  have hle : (roundedCount n : ℤ) ≤ quanta (unpacked (b - a)) := by
    rw [hquanta, ← rounded_eq_roundedCount hn hcount]
    exact rounded_mono (by omega)
  have hpos : 0 < quanta (unpacked (b - a)) :=
    (Int.natCast_pos.mpr (roundedCount_pos hn)).trans_le hle
  exact zero_lt_div hpos hle (counts_ofNat hn hcount)

end Means
end BurstEnergy.Binary64

namespace BurstEnergy
open Binary64

instance : Scalar.Gradual Float where
  sub_pos_iff ha hb := zero_lt_sub_iff ha hb
  mean_pos {values a b i j n} hfin hgrow hi hj hle hn := by
    obtain ⟨k, rfl⟩ := Nat.exists_eq_add_of_le ((Nat.le_add_right i n).trans hle)
    exact zero_lt_mean hfin hgrow hi hj (Nat.add_le_add_iff_left.mp hle) hn

end BurstEnergy
