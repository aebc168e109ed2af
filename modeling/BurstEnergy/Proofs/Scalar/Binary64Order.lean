import Mathlib
import BurstEnergy.Scalar

/-!
# The order of binary64 values

Every binary64 value counts a whole number of the smallest positive value, `2 ^ -1074`. An infinite
value is given the count of the first power of two past the largest finite value, so that packing a
value whose exponent does not fit saturates its count. Comparison of unpacked values is then
comparison of integers, and packing keeps every comparison with a value that is already packed.
-/
namespace BurstEnergy.Binary64
open Float.Model Float.Model.UnpackedFloat

/-- The value of a mantissa and an exponent in units of the smallest positive value. -/
def units (mantissa : ℕ) (exponent : ℤ) : ℕ := mantissa * 2 ^ (exponent + 1074).toNat

/-- The count of an infinite value. -/
def ceiling : ℕ := units (2 ^ 52) 972

/-- What a value counts. A value that is not a number counts nothing. -/
def quanta : UnpackedFloat → ℤ
  | .notANumber => 0
  | .zero _ => 0
  | .infinity sign => sign.apply ceiling
  | .finite sign mantissa exponent _ => sign.apply (units mantissa exponent)

/-- A mantissa of 53 bits with its leading bit set, or with the lowest exponent. -/
structure Canonical (mantissa : ℕ) (exponent : ℤ) : Prop where
  bound : mantissa < 2 ^ 53
  lowest : -1074 ≤ exponent
  leading : 2 ^ 52 ≤ mantissa ∨ exponent = -1074

/-- A canonical value whose exponent fits. -/
def Representable : UnpackedFloat → Prop
  | .finite _ mantissa exponent _ => Canonical mantissa exponent ∧ exponent ≤ 971
  | _ => True

section Units
variable {m m₁ m₂ : ℕ} {e e₁ e₂ : ℤ}

theorem units_pos (h : 0 < m) : 0 < units m e := Nat.mul_pos h (by positivity)

/-- A lower exponent scales the mantissa up. -/
theorem units_of_le (he : -1074 ≤ e₂) (h : e₂ ≤ e₁) :
    units m e₁ = units (m * 2 ^ (e₁ - e₂).toNat) e₂ := by
  have hexp : (e₁ + 1074).toNat = (e₁ - e₂).toNat + (e₂ + 1074).toNat := by omega
  rw [units, units, hexp, pow_add, Nat.mul_assoc]

theorem units_le_units_iff : units m₁ e ≤ units m₂ e ↔ m₁ ≤ m₂ :=
  Nat.mul_le_mul_right_iff (by positivity)

theorem units_lt_units_iff : units m₁ e < units m₂ e ↔ m₁ < m₂ :=
  Nat.mul_lt_mul_right (by positivity)

/-- The exponent decides first, because a higher exponent comes with a leading bit. -/
theorem Canonical.units_lt (h₁ : Canonical m₁ e₁) (h₂ : Canonical m₂ e₂) (h : e₁ < e₂) :
    units m₁ e₁ < units m₂ e₂ := by
  have hlead : 2 ^ 52 ≤ m₂ := h₂.leading.resolve_right (by have := h₁.lowest; omega)
  have hexp : 2 ^ ((e₁ + 1074).toNat + 1) ≤ 2 ^ (e₂ + 1074).toNat :=
    Nat.pow_le_pow_right (by norm_num) (by have := h₁.lowest; omega)
  calc units m₁ e₁ < 2 ^ 53 * 2 ^ (e₁ + 1074).toNat :=
        Nat.mul_lt_mul_of_pos_right h₁.bound (by positivity)
    _ = 2 ^ 52 * 2 ^ ((e₁ + 1074).toNat + 1) := by rw [pow_succ _ (e₁ + 1074).toNat]; ring
    _ ≤ m₂ * 2 ^ (e₂ + 1074).toNat := Nat.mul_le_mul hlead hexp

/-- Canonical pairs compare as their values do. -/
theorem Canonical.compare_units (h₁ : Canonical m₁ e₁) (h₂ : Canonical m₂ e₂) :
    (compare e₁ e₂).then (compare m₁ m₂) = compare (units m₁ e₁) (units m₂ e₂) := by
  rcases lt_trichotomy e₁ e₂ with h | rfl | h
  · rw [compare_lt_iff_lt.mpr h, compare_lt_iff_lt.mpr (h₁.units_lt h₂ h)]
    rfl
  · rw [compare_eq_iff_eq.mpr rfl]
    show compare m₁ m₂ = _
    rcases lt_trichotomy m₁ m₂ with h | rfl | h
    · rw [compare_lt_iff_lt.mpr h, compare_lt_iff_lt.mpr (units_lt_units_iff.mpr h)]
    · rw [compare_eq_iff_eq.mpr rfl, compare_eq_iff_eq.mpr rfl]
    · rw [compare_gt_iff_gt.mpr h, compare_gt_iff_gt.mpr (units_lt_units_iff.mpr h)]
  · rw [compare_gt_iff_gt.mpr h, compare_gt_iff_gt.mpr (h₂.units_lt h₁ h)]
    rfl

/-- Past the largest exponent a canonical value reaches the count of an infinite one. -/
theorem Canonical.ceiling_le_iff (h : Canonical m e) : ceiling ≤ units m e ↔ 971 < e := by
  have htop : Canonical (2 ^ 52) 972 := ⟨by norm_num, by norm_num, .inl le_rfl⟩
  constructor
  · intro hle
    by_contra hlow
    exact absurd hle (not_le.mpr (h.units_lt htop (by omega)))
  · intro hhigh
    rcases eq_or_lt_of_le (show 972 ≤ e by omega) with heq | hlt
    · have hlead : 2 ^ 52 ≤ m := h.leading.resolve_right (by omega)
      rw [ceiling, heq]
      exact units_le_units_iff.mpr hlead
    · exact (htop.units_lt h hlt).le

theorem Canonical.units_lt_ceiling (h : Canonical m e) (he : e ≤ 971) : units m e < ceiling := by
  have hlow : ¬ ceiling ≤ units m e := fun hle => absurd he (not_le.mpr (h.ceiling_le_iff.mp hle))
  exact not_le.mp hlow

theorem ceiling_pos : 0 < ceiling := units_pos (by norm_num)

end Units

section Order
variable {x y z : UnpackedFloat}

theorem Representable.units_lt_ceiling {s : Sign} {m : ℕ} {e : ℤ} {hm : 0 < m}
    (h : Representable (.finite s m e hm)) : units m e < ceiling :=
  h.1.units_lt_ceiling h.2

theorem compare_natCast (a b : ℕ) : compare (a : ℤ) (b : ℤ) = compare a b := by
  rcases lt_trichotomy a b with h | rfl | h
  · rw [compare_lt_iff_lt.mpr h, compare_lt_iff_lt.mpr (by omega)]
  · rw [compare_eq_iff_eq.mpr rfl, compare_eq_iff_eq.mpr rfl]
  · rw [compare_gt_iff_gt.mpr h, compare_gt_iff_gt.mpr (by omega)]

theorem compare_neg_neg (a b : ℕ) : compare (-(a : ℤ)) (-(b : ℤ)) = (compare a b).swap := by
  rcases lt_trichotomy a b with h | rfl | h
  · rw [compare_lt_iff_lt.mpr h, compare_gt_iff_gt.mpr (by omega)]
    rfl
  · rw [compare_eq_iff_eq.mpr rfl, compare_eq_iff_eq.mpr rfl]
    rfl
  · rw [compare_gt_iff_gt.mpr h, compare_lt_iff_lt.mpr (by omega)]
    rfl

/-- Values in canonical form compare as their counts, unless one of them is not a number. -/
theorem compare_eq (hx : Representable x) (hy : Representable y) (hxn : x ≠ .notANumber)
    (hyn : y ≠ .notANumber) : x.compare y = some (compare (quanta x) (quanta y)) := by
  have hceil := ceiling_pos
  rcases x with (_ | _) | _ | _ | ⟨_ | _, m₁, e₁, hm₁⟩
  case notANumber => exact absurd rfl hxn
  all_goals rcases y with (_ | _) | _ | _ | ⟨_ | _, m₂, e₂, hm₂⟩
  case finite.negative.finite.negative =>
    simp only [UnpackedFloat.compare, quanta, Sign.apply, compare_neg_neg,
      Canonical.compare_units hx.1 hy.1]
  case finite.positive.finite.positive =>
    simp only [UnpackedFloat.compare, quanta, Sign.apply, compare_natCast,
      Canonical.compare_units hx.1 hy.1]
  -- Values of different kinds: a finite count lies strictly between zero and the ceiling.
  all_goals try exact absurd rfl hyn
  all_goals try have hux := hx.units_lt_ceiling
  all_goals try have huy := hy.units_lt_ceiling
  all_goals try have hpx := units_pos (e := e₁) hm₁
  all_goals try have hpy := units_pos (e := e₂) hm₂
  all_goals simp only [UnpackedFloat.compare, quanta, Sign.apply]
  all_goals first
    | rw [compare_lt_iff_lt.mpr (by omega)]
    | rw [compare_gt_iff_gt.mpr (by omega)]
    | rw [compare_eq_iff_eq.mpr (by omega)]
  all_goals rfl

theorem compare_notANumber_left : UnpackedFloat.compare .notANumber y = none := by
  cases y <;> rfl

theorem compare_notANumber_right : x.compare .notANumber = none := by
  rcases x with (_ | _) | _ | _ | ⟨_ | _, _, _, _⟩ <;> rfl

theorem le_iff (hx : Representable x) (hy : Representable y) :
    x.le y = true ↔ x ≠ .notANumber ∧ y ≠ .notANumber ∧ quanta x ≤ quanta y := by
  by_cases hxn : x = .notANumber
  · simp [hxn, UnpackedFloat.le, compare_notANumber_left]
  by_cases hyn : y = .notANumber
  · simp [hyn, UnpackedFloat.le, compare_notANumber_right]
  simp [UnpackedFloat.le, compare_eq hx hy hxn hyn, hxn, hyn, Int.isLE_compare]

theorem lt_iff (hx : Representable x) (hy : Representable y) :
    x.lt y = true ↔ x ≠ .notANumber ∧ y ≠ .notANumber ∧ quanta x < quanta y := by
  by_cases hxn : x = .notANumber
  · simp [hxn, UnpackedFloat.lt, compare_notANumber_left]
  by_cases hyn : y = .notANumber
  · simp [hyn, UnpackedFloat.lt, compare_notANumber_right]
  simp [UnpackedFloat.lt, compare_eq hx hy hxn hyn, hxn, hyn, compare_lt_iff_lt]

end Order

section Packing

theorem toNat_implicit_append (fraction : BitVec 52) :
    (1#1 ++ fraction).toNat = 2 ^ 52 + fraction.toNat := by
  rw [BitVec.toNat_append, ← Nat.shiftLeft_add_eq_or_of_lt fraction.isLt]
  rfl

/-- What unpacking yields is canonical, and its exponent fits. -/
theorem representable_unpack (b : BitVec Format.binary64.numBits) :
    Representable (UnpackedFloat.unpack Format.binary64 b) := by
  have hfraction : (unpackMantissa b).toNat < 2 ^ 52 := (unpackMantissa b).isLt
  have hbound : (unpackExponent b).toNat < 2 ^ 11 := (unpackExponent b).isLt
  have hbias : (Format.binary64.exponentBias : ℤ) + (52 : ℕ) = 1075 := by decide
  fun_cases UnpackedFloat.unpack with
  | case1 => trivial
  | case2 => trivial
  | case3 => trivial
  | case4 _ _ exponent _ _ _ hzero _ =>
    have hlow : (unpackExponent b).toNat = 0 := congrArg BitVec.toNat hzero
    have hexp : exponent + 1 = -1074 := by
      show ((unpackExponent b).toNat : ℤ) - _ + 1 = _
      rw [hlow, hbias]
      rfl
    rw [Representable, hexp]
    exact ⟨⟨hfraction.trans (by norm_num), le_rfl, .inr rfl⟩, by norm_num⟩
  | case5 _ _ exponent _ _ hones hzero =>
    have hpos : (unpackExponent b).toNat ≠ 0 := fun h => hzero (BitVec.eq_of_toNat_eq h)
    have htop : (unpackExponent b).toNat ≠ 2 ^ 11 - 1 := fun h => hones (BitVec.eq_of_toNat_eq h)
    have hexp : exponent = (unpackExponent b).toNat - 1075 := by
      show ((unpackExponent b).toNat : ℤ) - _ = _
      rw [hbias]
    rw [Representable, hexp, toNat_implicit_append]
    exact ⟨⟨by omega, by omega, .inl (by omega)⟩, by omega⟩

theorem unpackSign_packComponents {spec : Format} {sign exponent mantissa} :
    Sign.ofBitVec (unpackSign (packComponents spec sign exponent mantissa)) = sign := by
  have hbits : unpackSign (packComponents spec sign exponent mantissa) = sign.toBitVec := by
    ext i hi
    obtain rfl : i = 0 := by omega
    simp [unpackSign, packComponents, BitVec.getLsbD_eq_getElem, BitVec.getLsbD_append,
      BitVec.getElem_append]
  rw [hbits]
  cases sign <;> rfl

theorem unpack_packedInfinity (s : Sign) :
    UnpackedFloat.unpack Format.binary64 (packedInfinity Format.binary64 s) = .infinity s := by
  cases s <;> rfl

theorem unpack_packedZero (s : Sign) :
    UnpackedFloat.unpack Format.binary64 (packedZero Format.binary64 s) = .zero s := by
  cases s <;> rfl

theorem unpack_normal (s : Sign) {m : ℕ} {e : ℤ} (hm : 0 < m) (h : Canonical m e)
    (hlead : 2 ^ 52 ≤ m) (he : e ≤ 971) :
    UnpackedFloat.unpack Format.binary64 (packComponents Format.binary64 s
      (BitVec.ofNat 11 (e + 1075).toNat) (BitVec.ofNat 52 m)) = .finite s m e hm := by
  have hlow := h.lowest
  have hbound := h.bound
  have hbias : (Format.binary64.exponentBias : ℤ) + (52 : ℕ) = 1075 := by decide
  have hexp : (BitVec.ofNat 11 (e + 1075).toNat).toNat = (e + 1075).toNat :=
    Nat.mod_eq_of_lt (by omega)
  have hones : BitVec.ofNat 11 (e + 1075).toNat ≠ -1#11 := fun h => by
    have : (e + 1075).toNat = 2047 := hexp.symm.trans (congrArg BitVec.toNat h)
    omega
  have hzero : BitVec.ofNat 11 (e + 1075).toNat ≠ 0#11 := fun h => by
    have : (e + 1075).toNat = 0 := hexp.symm.trans (congrArg BitVec.toNat h)
    omega
  have hmantissa : (1#1 ++ BitVec.ofNat 52 m).toNat = m := by
    rw [toNat_implicit_append, BitVec.toNat_ofNat]
    omega
  unfold UnpackedFloat.unpack
  simp only [unpackMantissa_packComponents, unpackExponent_packComponents,
    unpackSign_packComponents, hexp, hbias]
  rw [if_neg hones, if_neg hzero]
  congr 1
  omega

theorem unpack_subnormal (s : Sign) {m : ℕ} (hm : 0 < m) (hbound : m < 2 ^ 52) :
    UnpackedFloat.unpack Format.binary64 (packComponents Format.binary64 s 0#11
      (BitVec.ofNat 52 m)) = .finite s m (-1074) hm := by
  have hmantissa : (BitVec.ofNat 52 m).toNat = m := Nat.mod_eq_of_lt hbound
  have hpos : BitVec.ofNat 52 m ≠ 0#52 := fun h => by
    have : m = 0 := hmantissa.symm.trans (congrArg BitVec.toNat h)
    omega
  unfold UnpackedFloat.unpack
  simp only [unpackMantissa_packComponents, unpackExponent_packComponents,
    unpackSign_packComponents]
  rw [if_neg (by decide), if_pos trivial, dif_neg hpos]
  congr 1

/-- A canonical value survives packing when its exponent fits. -/
theorem unpack_pack_of_le {s : Sign} {m : ℕ} {e : ℤ} {hm : 0 < m} (h : Canonical m e)
    (he : e ≤ 971) :
    UnpackedFloat.unpack Format.binary64 (UnpackedFloat.pack Format.binary64 (.finite s m e hm)) =
      .finite s m e hm := by
  have hbias : Format.binary64.exponentBias = 1023 := by decide
  have hbits : Format.binary64.mantissaBits = 53 := rfl
  have hbiased : (e + (1023 : ℕ) + (52 : ℕ)).toNat = (e + 1075).toNat := by congr 1; omega
  have hfits : ¬ 2 ^ 11 ≤ (e + 1075).toNat + 1 := by have := h.lowest; omega
  have hlog : m.log2 < 53 := (Nat.log2_lt hm.ne').mpr h.bound
  rw [UnpackedFloat.pack]
  simp only [hbias, hbits, hbiased, hfits, if_false]
  by_cases hlead : 2 ^ 52 ≤ m
  · have : 52 ≤ m.log2 := (Nat.le_log2 hm.ne').mpr hlead
    rw [if_pos (by omega)]
    exact unpack_normal s hm h hlead he
  · have : m.log2 < 52 := (Nat.log2_lt hm.ne').mpr (not_le.mp hlead)
    obtain rfl : e = -1074 := h.leading.resolve_left hlead
    rw [if_neg (by omega)]
    exact unpack_subnormal s hm (not_le.mp hlead)

/-- A canonical value whose exponent does not fit is packed as an infinity. -/
theorem unpack_pack_of_lt {s : Sign} {m : ℕ} {e : ℤ} {hm : 0 < m} (he : 971 < e) :
    UnpackedFloat.unpack Format.binary64 (UnpackedFloat.pack Format.binary64 (.finite s m e hm)) =
      .infinity s := by
  have hbias : (Format.binary64.exponentBias : ℤ) = 1023 := by decide
  have hfits : 2 ^ 11 ≤ (e + Format.binary64.exponentBias + (52 : ℕ)).toNat + 1 := by omega
  rw [UnpackedFloat.pack]
  simp only [hfits, if_true, unpack_packedInfinity]

end Packing
end BurstEnergy.Binary64
