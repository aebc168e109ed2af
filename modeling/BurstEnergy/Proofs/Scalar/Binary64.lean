import BurstEnergy.Proofs.Scalar.Binary64Rounding
import BurstEnergy.Proofs.Scalar.Lawful

/-!
# Binary64 arithmetic is lawful

A sum or a difference of finite values is the exact one of their counts, rounded and saturated, and
rounding is monotone. So binary64 obeys the monotone laws that exact arithmetic obeys: overflow
saturates, a value that is not a number never arises from nonnegative operands of which the second
is finite, and a difference is not positive unless its operands are in strict order. What is proved
of every lawful number type therefore holds of binary64 runs.
-/
namespace BurstEnergy.Binary64
open Float.Model Float.Model.UnpackedFloat

/-- What is read back of an unpacked result. -/
def repack (x : UnpackedFloat) : UnpackedFloat :=
  UnpackedFloat.unpack Format.binary64 (UnpackedFloat.pack Format.binary64 x)

section Repack
variable {x y : UnpackedFloat} {s : Sign} {m : ℕ} {e : ℤ} {hm : 0 < m}

theorem representable_repack : Representable (repack x) := representable_unpack _

theorem repack_infinity : repack (.infinity s) = .infinity s := unpack_packedInfinity s

theorem repack_zero : repack (.zero s) = .zero s := unpack_packedZero s

theorem repack_finite (h : Representable (.finite s m e hm)) :
    repack (.finite s m e hm) = .finite s m e hm := unpack_pack_of_le h.1 h.2

theorem quanta_repack (s : Sign) (hm : 0 < m) (h : Canonical m e) :
    repack (.finite s m e hm) ≠ .notANumber ∧
      quanta (repack (.finite s m e hm)) = s.apply (min (units m e) ceiling : ℕ) := by
  by_cases he : e ≤ 971
  · have hlow : units m e ≤ ceiling := (h.units_lt_ceiling he).le
    rw [repack_finite ⟨h, he⟩, min_eq_left hlow]
    exact ⟨nofun, rfl⟩
  · have hhigh : ceiling ≤ units m e := h.ceiling_le_iff.mpr (not_le.mp he)
    rw [repack, unpack_pack_of_lt (not_le.mp he), min_eq_right hhigh]
    exact ⟨nofun, rfl⟩

theorem cases_of_nonneg (hx : Representable x) (h : (UnpackedFloat.zero .positive).le x = true) :
    (∃ s, x = .zero s) ∨ (∃ m e hm, x = .finite .positive m e hm) ∨ x = .infinity .positive := by
  have hzero : Representable (.zero .positive) := trivial
  obtain ⟨-, hn, hle⟩ := (le_iff hzero hx).mp h
  have hceil := ceiling_pos
  rcases x with (_ | _) | _ | s | ⟨_ | _, m, e, hm⟩
  · simp only [quanta, Sign.apply] at hle
    omega
  · exact .inr (.inr rfl)
  · exact absurd rfl hn
  · exact .inl ⟨s, rfl⟩
  · have := units_pos (e := e) hm
    simp only [quanta, Sign.apply] at hle
    omega
  · exact .inr (.inl ⟨m, e, hm, rfl⟩)

theorem isFinite_or_infinity (hx : Representable x)
    (h : (UnpackedFloat.zero .positive).le x = true) :
    x.isFinite = true ∨ x = .infinity .positive := by
  rcases cases_of_nonneg hx h with ⟨s, rfl⟩ | ⟨m, e, hm, rfl⟩ | rfl
  · exact .inl rfl
  · exact .inl rfl
  · exact .inr rfl

theorem cases_of_isFinite (hx : Representable x) (h : (UnpackedFloat.zero .positive).le x = true)
    (hfin : x.isFinite = true) :
    (∃ s, x = .zero s) ∨ ∃ m e hm, x = .finite .positive m e hm := by
  rcases cases_of_nonneg hx h with hz | hf | rfl
  · exact .inl hz
  · exact .inr hf
  · simp [UnpackedFloat.isFinite] at hfin

end Repack

section Arithmetic

theorem normalize_natCast {m : ℕ} (hm : 0 < m) (e : ℤ) (z : Sign) :
    normalize Format.binary64 m e z = UnpackedFloat.round Format.binary64 .positive m e := by
  unfold UnpackedFloat.normalize
  rw [compare_gt_iff_gt.mpr (by omega)]
  rfl

theorem normalize_neg_natCast {m : ℕ} (hm : 0 < m) (e : ℤ) (z : Sign) :
    normalize Format.binary64 (-m) e z = UnpackedFloat.round Format.binary64 .negative m e := by
  unfold UnpackedFloat.normalize
  rw [compare_lt_iff_lt.mpr (by omega)]
  simp only [neg_neg, Int.toNat_natCast]

/-- Bringing a mantissa to a lower exponent keeps its value. -/
theorem units_decreaseExponent {m : ℕ} {e t : ℤ} (ht : -1074 ≤ t) (h : t ≤ e) :
    units (decreaseExponent m e t).1 t = units m e := by
  rw [units_of_le ht h, decreaseExponent, Nat.shiftLeft_eq]

end Arithmetic

section Rounded
variable {v w : ℤ} {x y : UnpackedFloat}

/-- The count that a signed count is rounded to, saturated. -/
def rounded (value : ℤ) : ℤ := value.sign * (min (roundedCount value.natAbs) ceiling : ℕ)

@[simp] theorem rounded_zero : rounded 0 = 0 := zero_mul _

theorem rounded_natCast (n : ℕ) : rounded n = (min (roundedCount n) ceiling : ℕ) := by
  rcases Nat.eq_zero_or_pos n with rfl | hn
  · simp [rounded]
  · rw [rounded, Int.sign_natCast_of_ne_zero hn.ne', Int.natAbs_natCast, one_mul]

theorem rounded_neg (value : ℤ) : rounded (-value) = -rounded value := by
  rw [rounded, rounded, Int.sign_neg, Int.natAbs_neg, neg_mul]

theorem rounded_apply (s : Sign) (n : ℕ) :
    rounded (s.apply n) = s.apply (min (roundedCount n) ceiling : ℕ) := by
  cases s with
  | negative => exact (rounded_neg n).trans (congrArg Neg.neg (rounded_natCast n))
  | positive => exact rounded_natCast n

theorem rounded_nonneg (h : 0 ≤ v) : 0 ≤ rounded v := by
  obtain ⟨n, rfl⟩ := Int.eq_ofNat_of_zero_le h
  rw [rounded_natCast]
  exact Int.natCast_nonneg _

theorem rounded_mono (h : v ≤ w) : rounded v ≤ rounded w := by
  have hpos {m n : ℕ} (hmn : m ≤ n) : rounded m ≤ rounded n := by
    rw [rounded_natCast, rounded_natCast]
    exact Int.ofNat_le.mpr (min_le_min_right _ (roundedCount_mono hmn))
  have hneg {n : ℕ} : rounded (-n) ≤ 0 := by
    rw [rounded_neg]
    exact Int.neg_nonpos_of_nonneg (rounded_nonneg (Int.natCast_nonneg n))
  obtain ⟨m, rfl | rfl⟩ := v.eq_nat_or_neg <;> obtain ⟨n, rfl | rfl⟩ := w.eq_nat_or_neg
  · exact hpos (by omega)
  · obtain ⟨rfl, rfl⟩ : m = 0 ∧ n = 0 := by omega
    exact le_rfl
  · exact hneg.trans (rounded_nonneg (Int.natCast_nonneg n))
  · rw [rounded_neg, rounded_neg]
    exact Int.neg_le_neg (hpos (by omega))

/-- What packing holds needs no rounding. -/
theorem rounded_quanta (hx : Representable x) : rounded (quanta x) = quanta x := by
  have htop : Canonical (2 ^ 52) 972 := ⟨by norm_num, by norm_num, .inl le_rfl⟩
  have hceil : roundedCount ceiling = ceiling := htop.roundedCount_eq
  cases x with
  | notANumber => exact rounded_zero
  | zero s => exact rounded_zero
  | infinity s => rw [quanta, rounded_apply, hceil, min_self]
  | finite s m e hm =>
    rw [quanta, rounded_apply, hx.1.roundedCount_eq, min_eq_left hx.units_lt_ceiling.le]

/-- Normalizing and packing round the exact value. -/
theorem quanta_repack_normalize (n : ℤ) {e : ℤ} (he : -1074 ≤ e) (z : Sign) :
    repack (normalize Format.binary64 n e z) ≠ .notANumber ∧
      quanta (repack (normalize Format.binary64 n e z)) =
        rounded (n * (2 ^ (e + 1074).toNat : ℕ)) := by
  have hround (s : Sign) {k : ℕ} (hk : 0 < k) :
      repack (round Format.binary64 s k e) ≠ .notANumber ∧
        quanta (repack (round Format.binary64 s k e)) = rounded (s.apply (units k e : ℕ)) := by
    obtain ⟨m', e', hm', heq, hcanonical, hcount⟩ := round_eq_finite s hk he
    rw [heq, rounded_apply, ← hcount]
    exact quanta_repack s hm' hcanonical
  rcases lt_trichotomy n 0 with hn | rfl | hn
  · obtain ⟨k, rfl⟩ : ∃ k : ℕ, n = -k := ⟨n.natAbs, by omega⟩
    rw [normalize_neg_natCast (by omega), neg_mul, ← Nat.cast_mul]
    exact hround .negative (by omega)
  · have hzero : normalize Format.binary64 0 e z = .zero z := rfl
    rw [hzero, repack_zero, zero_mul]
    exact ⟨nofun, rounded_zero.symm⟩
  · obtain ⟨k, rfl⟩ := Int.eq_ofNat_of_zero_le hn.le
    rw [normalize_natCast (by omega), ← Nat.cast_mul]
    exact hround .positive (by omega)

end Rounded

section Differences
variable {x y : UnpackedFloat}

theorem apply_mul (s : Sign) (m n : ℤ) : s.apply m * n = s.apply (m * n) := by
  cases s with
  | negative => exact neg_mul m n
  | positive => rfl

theorem quanta_sub_finite_finite {s₁ s₂ : Sign} {m₁ m₂ : ℕ} {e₁ e₂ : ℤ} {hm₁ : 0 < m₁}
    {hm₂ : 0 < m₂} (h₁ : -1074 ≤ e₁) (h₂ : -1074 ≤ e₂) :
    repack (UnpackedFloat.sub Format.binary64 (.finite s₁ m₁ e₁ hm₁) (.finite s₂ m₂ e₂ hm₂)) ≠
        .notANumber ∧
      quanta (repack (UnpackedFloat.sub Format.binary64 (.finite s₁ m₁ e₁ hm₁)
        (.finite s₂ m₂ e₂ hm₂))) = rounded (s₁.apply (units m₁ e₁) - s₂.apply (units m₂ e₂)) := by
  have hlow : -1074 ≤ min e₁ e₂ := le_min h₁ h₂
  set n₁ := (decreaseExponent m₁ e₁ (min e₁ e₂)).1 with hn₁
  set n₂ := (decreaseExponent m₂ e₂ (min e₁ e₂)).1 with hn₂
  have hv₁ : units n₁ (min e₁ e₂) = units m₁ e₁ := units_decreaseExponent hlow (min_le_left _ _)
  have hv₂ : units n₂ (min e₁ e₂) = units m₂ e₂ := units_decreaseExponent hlow (min_le_right _ _)
  have hexact : (s₁.apply n₁ - s₂.apply n₂) * (2 ^ (min e₁ e₂ + 1074).toNat : ℕ) =
      s₁.apply (units m₁ e₁) - s₂.apply (units m₂ e₂) := by
    rw [sub_mul, apply_mul, apply_mul, ← hv₁, ← hv₂, units, units, Nat.cast_mul, Nat.cast_mul]
  rw [← hexact]
  exact quanta_repack_normalize _ hlow .positive

theorem number_of_isFinite (h : x.isFinite = true) : x ≠ .notANumber := by
  rintro rfl
  cases h

/-- A difference of finite values is the exact difference of their counts, rounded. -/
theorem quanta_sub (hx : Representable x) (hy : Representable y) (hxf : x.isFinite = true)
    (hyf : y.isFinite = true) :
    repack (UnpackedFloat.sub Format.binary64 x y) ≠ .notANumber ∧
      quanta (repack (UnpackedFloat.sub Format.binary64 x y)) =
        rounded (quanta x - quanta y) := by
  rcases x with _ | _ | s₁ | ⟨s₁, m₁, e₁, hm₁⟩ <;> try cases hxf
  all_goals rcases y with _ | _ | s₂ | ⟨s₂, m₂, e₂, hm₂⟩ <;> try cases hyf
  · have hsub : ∃ z, UnpackedFloat.sub Format.binary64 (.zero s₁) (.zero s₂) = .zero z := by
      cases s₁ <;> cases s₂ <;> exact ⟨_, rfl⟩
    obtain ⟨z, hz⟩ := hsub
    rw [hz, repack_zero]
    exact ⟨number_of_isFinite rfl, rounded_zero.symm⟩
  · have hsub : UnpackedFloat.sub Format.binary64 (.zero s₁) (.finite s₂ m₂ e₂ hm₂) =
        .finite (-s₂) m₂ e₂ hm₂ := rfl
    have hneg : quanta (.finite (-s₂) m₂ e₂ hm₂) = 0 - quanta (.finite s₂ m₂ e₂ hm₂) := by
      cases s₂ <;> simp [quanta, Sign.apply]
    have hrep : Representable (.finite (-s₂) m₂ e₂ hm₂) := hy
    rw [hsub, repack_finite hrep]
    refine ⟨number_of_isFinite rfl, ?_⟩
    rw [quanta, ← hneg, rounded_quanta hrep]
  · have hsub : UnpackedFloat.sub Format.binary64 (.finite s₁ m₁ e₁ hm₁) (.zero s₂) =
        .finite s₁ m₁ e₁ hm₁ := rfl
    rw [hsub, repack_finite hx, quanta.eq_def (.zero s₂), sub_zero, rounded_quanta hx]
    exact ⟨number_of_isFinite rfl, rfl⟩
  · exact quanta_sub_finite_finite hx.1.lowest hy.1.lowest

theorem sub_infinity (hx : x.isFinite = true) (s : Sign) :
    repack (UnpackedFloat.sub Format.binary64 x (.infinity s)) = .infinity (-s) := by
  rcases x with _ | _ | _ | _ <;> try cases hx
  all_goals exact repack_infinity

/-- Only an infinite value counts as much as an infinite value. -/
theorem quanta_bounds (hx : Representable x) (hxf : x.isFinite = true) :
    -ceiling < quanta x ∧ quanta x < ceiling := by
  have hceil := ceiling_pos
  rcases x with _ | _ | s | ⟨_ | _, m, e, hm⟩ <;> try cases hxf
  all_goals try have hlt := hx.units_lt_ceiling
  all_goals simp only [quanta, Sign.apply]
  all_goals omega

theorem cases_of_number (h : x ≠ .notANumber) : x.isFinite = true ∨ ∃ s, x = .infinity s := by
  rcases x with s | _ | s | ⟨s, m, e, hm⟩
  · exact .inr ⟨s, rfl⟩
  · exact absurd rfl h
  · exact .inl rfl
  · exact .inl rfl

theorem infinity_sub {y : UnpackedFloat} (hy : y.isFinite = true) (s : Sign) :
    repack (UnpackedFloat.sub Format.binary64 (.infinity s) y) = .infinity s := by
  rcases y with _ | _ | _ | _ <;> try cases hy
  all_goals exact repack_infinity

end Differences

section Sums
variable {x y : UnpackedFloat}

theorem sign_neg_neg (s : Sign) : - -s = s := by cases s <;> rfl

theorem sign_neg_apply (s : Sign) (value : ℤ) : (-s).apply value = -s.apply value := by
  cases s with
  | negative => exact (neg_neg value).symm
  | positive => rfl

theorem add_eq_sub_neg (x y : UnpackedFloat) :
    UnpackedFloat.add Format.binary64 x y = UnpackedFloat.sub Format.binary64 x y.neg := by
  cases x <;> cases y <;>
    simp only [UnpackedFloat.add, UnpackedFloat.sub, UnpackedFloat.neg, sign_neg_neg,
      sign_neg_apply, sub_neg_eq_add]

theorem representable_neg (hx : Representable x) : Representable x.neg := by
  cases x <;> exact hx

theorem isFinite_neg (hx : x.isFinite = true) : x.neg.isFinite = true := by
  cases x <;> exact hx

theorem quanta_neg (x : UnpackedFloat) : quanta x.neg = -quanta x := by
  cases x with
  | notANumber => rfl
  | zero => rfl
  | infinity s => exact sign_neg_apply s _
  | finite s => exact sign_neg_apply s _

/-- A sum of finite values is the exact sum of their counts, rounded. -/
theorem quanta_add (hx : Representable x) (hy : Representable y) (hxf : x.isFinite = true)
    (hyf : y.isFinite = true) :
    repack (UnpackedFloat.add Format.binary64 x y) ≠ .notANumber ∧
      quanta (repack (UnpackedFloat.add Format.binary64 x y)) =
        rounded (quanta x + quanta y) := by
  rw [add_eq_sub_neg, ← sub_neg_eq_add, ← quanta_neg]
  exact quanta_sub hx (representable_neg hy) hxf (isFinite_neg hyf)

end Sums

section Laws
variable {x y : UnpackedFloat}

theorem quanta_le_ceiling (hx : Representable x) : quanta x ≤ ceiling := by
  have hceil := ceiling_pos
  rcases x with (_ | _) | _ | s | ⟨_ | _, m, e, hm⟩
  case finite.positive => exact Int.ofNat_le.mpr hx.units_lt_ceiling.le
  all_goals simp only [quanta, Sign.apply]
  all_goals omega

theorem number_of_nonneg (hx : Representable x)
    (h : (UnpackedFloat.zero .positive).le x = true) : x ≠ .notANumber ∧ 0 ≤ quanta x := by
  have hzero : Representable (.zero .positive) := trivial
  exact ((le_iff hzero hx).mp h).2

/-- A nonnegative value that is added never lowers the sum. -/
theorem le_repack_add (hx : Representable x) (hy : Representable y)
    (hx0 : (UnpackedFloat.zero .positive).le x = true)
    (hy0 : (UnpackedFloat.zero .positive).le y = true) :
    x.le (repack (UnpackedFloat.add Format.binary64 x y)) = true := by
  have hxn := (number_of_nonneg hx hx0).1
  have hyq := (number_of_nonneg hy hy0).2
  rw [le_iff hx representable_repack]
  refine ⟨hxn, ?_⟩
  rcases isFinite_or_infinity hx hx0 with hxf | rfl <;>
    rcases isFinite_or_infinity hy hy0 with hyf | rfl
  · obtain ⟨hn, hquanta⟩ := quanta_add hx hy hxf hyf
    rw [hquanta]
    exact ⟨hn, (rounded_quanta hx).symm.trans_le (rounded_mono (le_add_of_nonneg_right hyq))⟩
  · rw [add_eq_sub_neg, UnpackedFloat.neg, sub_infinity hxf]
    exact ⟨nofun, quanta_le_ceiling hx⟩
  · rw [add_eq_sub_neg, infinity_sub (isFinite_neg hyf)]
    exact ⟨nofun, le_rfl⟩
  · have hsum : UnpackedFloat.add Format.binary64 (.infinity .positive) (.infinity .positive) =
        .infinity .positive := rfl
    rw [hsum, repack_infinity]
    exact ⟨nofun, le_rfl⟩

/-- A nonnegative finite value that is taken away never raises the difference, and leaves no more
than zero of a value it reaches. -/
theorem repack_sub (hx : Representable x) (hy : Representable y)
    (hx0 : (UnpackedFloat.zero .positive).le x = true)
    (hy0 : (UnpackedFloat.zero .positive).le y = true) (hfin : y.isFinite = true) :
    repack (UnpackedFloat.sub Format.binary64 x y) ≠ .notANumber ∧
      quanta (repack (UnpackedFloat.sub Format.binary64 x y)) ≤ quanta x ∧
      (quanta x ≤ quanta y → quanta (repack (UnpackedFloat.sub Format.binary64 x y)) ≤ 0) := by
  have hyq := (number_of_nonneg hy hy0).2
  rcases isFinite_or_infinity hx hx0 with hxf | rfl
  · obtain ⟨hn, hquanta⟩ := quanta_sub hx hy hxf hfin
    rw [hquanta]
    refine ⟨hn, (rounded_mono (sub_le_self _ hyq)).trans_eq (rounded_quanta hx), fun hle => ?_⟩
    exact (rounded_mono (sub_nonpos.mpr hle)).trans_eq rounded_zero
  · -- An infinite value stays infinite, and no finite value reaches it.
    rw [infinity_sub hfin]
    exact ⟨nofun, le_rfl, fun hle => absurd hle (not_le.mpr (quanta_bounds hy hfin).2)⟩

end Laws

section Float
variable {a b c : Float}

/-- The value of a float as its operations read it. -/
def unpacked (a : Float) : UnpackedFloat := a.toModel.unpack

theorem representable_unpacked (a : Float) : Representable (unpacked a) := representable_unpack _

theorem float_le_iff : a ≤ b ↔ unpacked a ≠ .notANumber ∧ unpacked b ≠ .notANumber ∧
    quanta (unpacked a) ≤ quanta (unpacked b) := by
  rw [← le_iff (representable_unpacked a) (representable_unpacked b)]
  show Float.le a b = true ↔ _
  unfold Float.le
  exact decide_eq_true_iff

theorem float_lt_iff : a < b ↔ unpacked a ≠ .notANumber ∧ unpacked b ≠ .notANumber ∧
    quanta (unpacked a) < quanta (unpacked b) := by
  rw [← lt_iff (representable_unpacked a) (representable_unpacked b)]
  show Float.lt a b = true ↔ _
  unfold Float.lt
  exact decide_eq_true_iff

theorem zero_le_iff : 0 ≤ a ↔ (UnpackedFloat.zero .positive).le (unpacked a) = true := by
  have hzero : unpacked 0 = .zero .positive := rfl
  rw [float_le_iff, hzero, ← le_iff (x := .zero .positive) (by trivial) (representable_unpacked a)]

theorem unpacked_add : unpacked (a + b) =
    repack (UnpackedFloat.add Format.binary64 (unpacked a) (unpacked b)) := rfl

theorem unpacked_sub : unpacked (a - b) =
    repack (UnpackedFloat.sub Format.binary64 (unpacked a) (unpacked b)) := rfl

theorem isFinite_iff : a.isFinite = true ↔ (unpacked a).isFinite = true := Iff.rfl

theorem ne_notANumber_of_isFinite (h : a.isFinite = true) : unpacked a ≠ .notANumber := by
  intro hn
  rw [isFinite_iff, hn] at h
  exact Bool.false_ne_true h

end Float
end BurstEnergy.Binary64

namespace BurstEnergy
open Binary64

instance : Scalar.Lawful Float where
  le_trans h h' := by
    obtain ⟨ha, -, hab⟩ := float_le_iff.mp h
    obtain ⟨-, hc, hbc⟩ := float_le_iff.mp h'
    exact float_le_iff.mpr ⟨ha, hc, hab.trans hbc⟩
  le_self_of_le h := by
    obtain ⟨ha, hb, -⟩ := float_le_iff.mp h
    exact ⟨float_le_iff.mpr ⟨ha, ha, le_rfl⟩, float_le_iff.mpr ⟨hb, hb, le_rfl⟩⟩
  le_total ha hb := by
    have hna := (float_le_iff.mp ha).1
    have hnb := (float_le_iff.mp hb).1
    exact (le_total _ _).imp (fun h => float_le_iff.mpr ⟨hna, hnb, h⟩)
      fun h => float_le_iff.mpr ⟨hnb, hna, h⟩
  lt_iff := by
    intro a b
    constructor
    · intro h
      obtain ⟨ha, hb, hlt⟩ := float_lt_iff.mp h
      exact ⟨float_le_iff.mpr ⟨ha, hb, hlt.le⟩, fun h' => (float_le_iff.mp h').2.2.not_gt hlt⟩
    · rintro ⟨h, hn⟩
      obtain ⟨ha, hb, hle⟩ := float_le_iff.mp h
      refine float_lt_iff.mpr ⟨ha, hb, lt_of_not_ge fun hge => hn ?_⟩
      exact float_le_iff.mpr ⟨hb, ha, hge⟩
  le_self_of_isFinite h := by
    have hn := ne_notANumber_of_isFinite h
    exact float_le_iff.mpr ⟨hn, hn, le_rfl⟩
  zero_le_zero := zero_le_iff.mpr rfl
  le_add h h' := by
    have hle := le_repack_add (representable_unpacked _) (representable_unpacked _)
      (zero_le_iff.mp h) (zero_le_iff.mp h')
    rw [← unpacked_add] at hle
    exact float_le_iff.mpr ((le_iff (representable_unpacked _) (representable_unpacked _)).mp hle)
  sub_le h h' hfin := by
    obtain ⟨hn, hle, -⟩ := repack_sub (representable_unpacked _) (representable_unpacked _)
      (zero_le_iff.mp h) (zero_le_iff.mp h') hfin
    rw [← unpacked_sub] at hn hle
    exact float_le_iff.mpr ⟨hn, (float_le_iff.mp h).2.1, hle⟩
  sub_nonpos h h' hfin := by
    obtain ⟨-, hb, hle⟩ := float_le_iff.mp h'
    obtain ⟨h0, -, h0a⟩ := float_le_iff.mp h
    have h0b := float_le_iff.mpr ⟨h0, hb, h0a.trans hle⟩
    obtain ⟨hn, -, hnonpos⟩ := repack_sub (representable_unpacked _) (representable_unpacked _)
      (zero_le_iff.mp h) (zero_le_iff.mp h0b) hfin
    rw [← unpacked_sub] at hn hnonpos
    exact float_le_iff.mpr ⟨hn, h0, hnonpos hle⟩

end BurstEnergy
