import BurstEnergy.Proofs.Scalar.Binary64
import BurstEnergy.Proofs.Scalar.Lawful

/-!
# Binary64 values in order

Differences of binary64 values follow the order of their operands, and so do distances; the order
for sorting refines the order of numbers.
-/

/-! ## Binary64 differences are monotone

A difference of finite values is the exact difference of their counts, rounded, and rounding is
monotone. What is not finite is at its own end of the numbers and stays there.
-/
namespace BurstEnergy.Binary64
open Float.Model Float.Model.UnpackedFloat

section Differences
variable {x y : UnpackedFloat}

theorem neg_ceiling_le_quanta (hx : Representable x) : -ceiling ≤ quanta x := by
  have hceil := ceiling_pos
  rcases x with (_ | _) | _ | s | ⟨s, m, e, hm⟩
  case finite => exact (quanta_bounds hx rfl).1.le
  all_goals simp only [quanta, Sign.apply]
  all_goals omega

theorem sub_ne_notANumber (hx : Representable x) (hy : Representable y) (hxf : x.isFinite = true)
    (hyn : y ≠ .notANumber) :
    repack (UnpackedFloat.sub Format.binary64 x y) ≠ .notANumber := by
  rcases cases_of_number hyn with hyf | ⟨s, rfl⟩
  · exact (quanta_sub hx hy hxf hyf).1
  · rw [sub_infinity hxf]
    exact nofun

/-- Between numbers in order, what is not finite is at its own end. -/
theorem isFinite_of_quanta_le (hx : Representable x) (hy : Representable y)
    (hxn : x ≠ .notANumber) (hyn : y ≠ .notANumber) (hle : quanta x ≤ quanta y)
    (hlow : x ≠ .infinity .negative) (hhigh : y ≠ .infinity .positive) :
    x.isFinite = true ∧ y.isFinite = true := by
  have hceil := ceiling_pos
  rcases cases_of_number hxn with hxf | ⟨_ | _, rfl⟩ <;>
    rcases cases_of_number hyn with hyf | ⟨_ | _, rfl⟩
  case inl.inl => exact ⟨hxf, hyf⟩
  case inl.inr.negative =>
    have hle : quanta x ≤ -ceiling := hle
    have hbound := (quanta_bounds hx hxf).1
    omega
  case inr.positive.inl =>
    have hle : ceiling ≤ quanta y := hle
    have hbound := (quanta_bounds hy hyf).2
    omega
  case inr.positive.inr.negative =>
    have hle : (ceiling : ℤ) ≤ -ceiling := hle
    omega
  all_goals first
    | exact absurd rfl hlow
    | exact absurd rfl hhigh

/-- A difference from a finite value grows with it and shrinks with what is taken away. -/
theorem quanta_sub_le {a b c d : UnpackedFloat} (ha : Representable a) (hb : Representable b)
    (hc : Representable c) (hd : Representable d) (haf : a.isFinite = true)
    (hbf : b.isFinite = true) (hcn : c ≠ .notANumber) (hdn : d ≠ .notANumber)
    (hab : quanta a ≤ quanta b) (hcd : quanta c ≤ quanta d) :
    quanta (repack (UnpackedFloat.sub Format.binary64 a d)) ≤
      quanta (repack (UnpackedFloat.sub Format.binary64 b c)) := by
  by_cases hhigh : d = .infinity .positive
  · rw [hhigh, sub_infinity haf]
    exact neg_ceiling_le_quanta representable_repack
  by_cases hlow : c = .infinity .negative
  · rw [hlow, sub_infinity hbf]
    exact quanta_le_ceiling representable_repack
  obtain ⟨hcf, hdf⟩ := isFinite_of_quanta_le hc hd hcn hdn hcd hlow hhigh
  rw [(quanta_sub ha hd haf hdf).2, (quanta_sub hb hc hbf hcf).2]
  exact rounded_mono (sub_le_sub hab hcd)

end Differences
end BurstEnergy.Binary64

namespace BurstEnergy
open Binary64

instance : Scalar.Monotone Float where
  sub_le_sub haf hbf hab hcd := by
    obtain ⟨-, -, hab⟩ := float_le_iff.mp hab
    obtain ⟨hcn, hdn, hcd⟩ := float_le_iff.mp hcd
    have hrep (x : Float) : Representable (unpacked x) := representable_unpacked x
    rw [float_le_iff, unpacked_sub, unpacked_sub]
    exact ⟨sub_ne_notANumber (hrep _) (hrep _) haf hdn, sub_ne_notANumber (hrep _) (hrep _) hbf hcn,
      quanta_sub_le (hrep _) (hrep _) (hrep _) (hrep _) haf hbf hcn hdn hab hcd⟩

end BurstEnergy

/-! ## The bits of binary64 values sort them

Below the sign, the bits of a number read as one whole number grow with what the number counts: the
exponent stands above the fraction. What is not a number has the same bits everywhere, above those
of every number. So the order by bits refines the order of numbers.
-/
namespace BurstEnergy.Binary64
open Float.Model Float.Model.UnpackedFloat

section Fields
variable (b : BitVec Format.binary64.numBits)

theorem toNat_unpackMantissa :
    (unpackMantissa b).toNat = b.toNat % 2 ^ 52 := by
  simp [unpackMantissa]

theorem toNat_unpackExponent :
    (unpackExponent b).toNat = b.toNat / 2 ^ 52 % 2 ^ 11 := by
  simp [unpackExponent, Nat.shiftRight_eq_div_pow]

theorem toNat_unpackSign :
    (unpackSign b).toNat = b.toNat / 2 ^ 63 := by
  have hb : b.toNat < 2 ^ 64 := b.isLt
  simp [unpackSign, Nat.shiftRight_eq_div_pow]
  omega

end Fields
section Counts
variable {m n : ℕ}

/-- The bits of infinity below its sign. -/
def infiniteBits : ℕ := 2047 * 2 ^ 52

/-- What the bits below the sign count. -/
def countOfBits (n : ℕ) : ℕ :=
  if n < 2 ^ 52 then n else units (2 ^ 52 + n % 2 ^ 52) (n / 2 ^ 52 - 1075)

theorem countOfBits_infiniteBits : countOfBits infiniteBits = ceiling := by
  have hfraction : 2 ^ 52 + infiniteBits % 2 ^ 52 = 2 ^ 52 := by decide
  have hexponent : (infiniteBits : ℤ) / 2 ^ 52 - 1075 = 972 := by decide
  rw [countOfBits, if_neg (by decide), hfraction, hexponent, ceiling]

theorem countOfBits_strictMono : StrictMono countOfBits := by
  intro m n h
  have hpow (e : ℤ) : 0 < 2 ^ (e + 1074).toNat := by positivity
  rw [countOfBits, countOfBits]
  split_ifs with hm hn hn
  · exact h
  · calc m < (2 ^ 52 + n % 2 ^ 52) := by omega
      _ ≤ units (2 ^ 52 + n % 2 ^ 52) (n / 2 ^ 52 - 1075) :=
        Nat.le_mul_of_pos_right _ (hpow _)
  · omega
  · have hcanonical {k : ℕ} (hk : ¬ k < 2 ^ 52) :
        Canonical (2 ^ 52 + k % 2 ^ 52) (k / 2 ^ 52 - 1075) :=
      ⟨by omega, by omega, .inl (by omega)⟩
    rcases (Nat.div_le_div_right h.le (c := 2 ^ 52)).eq_or_lt with heq | hlt
    · rw [show ((m : ℤ) / 2 ^ 52 : ℤ) = n / 2 ^ 52 by omega]
      exact units_lt_units_iff.mpr (by omega)
    · exact (hcanonical hm).units_lt (hcanonical hn) (by omega)

end Counts

section Unpacking
variable (b : BitVec Format.binary64.numBits)

theorem apply_unpackSign (c : ℤ) :
    (Sign.ofBitVec (unpackSign b)).apply c =
      if b.toNat < 2 ^ 63 then c else -c := by
  have hsign := toNat_unpackSign b
  have hzero : unpackSign b = 0#1 ↔ b.toNat < 2 ^ 63 := by
    rw [← BitVec.toNat_inj, hsign]
    simp [Nat.div_eq_zero_iff]
  unfold Sign.ofBitVec
  split_ifs with h h' h'
  · rfl
  · exact absurd (hzero.mp h) h'
  · exact absurd (hzero.mpr h') h
  · rfl

/-- Unpacking reads the sign and what the bits below it count. -/
theorem quanta_unpack (hn : UnpackedFloat.unpack Format.binary64 b ≠ .notANumber) :
    b.toNat % 2 ^ 63 ≤ infiniteBits ∧
      quanta (UnpackedFloat.unpack Format.binary64 b) =
        if b.toNat < 2 ^ 63 then (countOfBits (b.toNat % 2 ^ 63) : ℤ)
        else -countOfBits (b.toNat % 2 ^ 63) := by
  have hmantissa := toNat_unpackMantissa b
  have hexponent := toNat_unpackExponent b
  have hbias : (Format.binary64.exponentBias : ℤ) + (52 : ℕ) = 1075 := by decide
  rw [← apply_unpackSign]
  revert hn
  fun_cases UnpackedFloat.unpack with
  | case1 _ _ _ _ hones hzero =>
    have hx : b.toNat / 2 ^ 52 % 2 ^ 11 = 2047 := hexponent ▸ congrArg BitVec.toNat hones
    have hm : b.toNat % 2 ^ 52 = 0 := hmantissa ▸ congrArg BitVec.toNat hzero
    have hbits : b.toNat % 2 ^ 63 = infiniteBits := by
      rw [infiniteBits]
      omega
    rw [hbits, countOfBits_infiniteBits]
    exact fun _ => ⟨le_rfl, rfl⟩
  | case2 => exact fun hn => absurd rfl hn
  | case3 _ _ _ _ _ hzero hm =>
    have hx : b.toNat / 2 ^ 52 % 2 ^ 11 = 0 := hexponent ▸ congrArg BitVec.toNat hzero
    have hm : b.toNat % 2 ^ 52 = 0 := hmantissa ▸ congrArg BitVec.toNat hm
    have hbits : b.toNat % 2 ^ 63 = 0 := by omega
    have hcount : countOfBits 0 = 0 := by decide
    rw [hbits, hcount, quanta]
    refine fun _ => ⟨Nat.zero_le _, ?_⟩
    cases Sign.ofBitVec (unpackSign b) <;> rfl
  | case4 _ _ exponent _ _ _ hzero _ =>
    have hx : b.toNat / 2 ^ 52 % 2 ^ 11 = 0 := hexponent ▸ congrArg BitVec.toNat hzero
    have hbits : b.toNat % 2 ^ 63 = b.toNat % 2 ^ 52 := by omega
    have hexp : exponent + 1 = -1074 := by
      show ((unpackExponent b).toNat : ℤ) - _ + 1 = _
      rw [hexponent, hbias, hx]
      rfl
    have hcount : countOfBits (b.toNat % 2 ^ 52) = units (b.toNat % 2 ^ 52) (-1074) := by
      rw [countOfBits, if_pos (Nat.mod_lt _ (by norm_num)), units]
      exact (Nat.mul_one _).symm
    refine fun _ => ⟨by rw [infiniteBits]; omega, ?_⟩
    rw [quanta, hexp, hmantissa, hbits, hcount]
  | case5 _ _ exponent _ _ hones hzero =>
    have hpos : (unpackExponent b).toNat ≠ 0 := fun h => hzero (BitVec.eq_of_toNat_eq h)
    have htop : (unpackExponent b).toNat ≠ 2047 := fun h => hones (BitVec.eq_of_toNat_eq h)
    rw [hexponent] at hpos htop
    have hexp : exponent = (b.toNat % 2 ^ 63 : ℕ) / 2 ^ 52 - 1075 := by
      show ((unpackExponent b).toNat : ℤ) - _ = _
      rw [hexponent, hbias]
      omega
    have hfraction : b.toNat % 2 ^ 63 % 2 ^ 52 = b.toNat % 2 ^ 52 := by omega
    refine fun _ => ⟨by rw [infiniteBits]; omega, ?_⟩
    rw [quanta, hexp, toNat_implicit_append, hmantissa, countOfBits, if_neg (by omega), hfraction]

end Unpacking

section Order
variable {x y : Float}

def bits (x : Float) : BitVec Format.binary64.numBits := x.toModel.toBits.toBitVec

theorem binary64Rank_eq (x : Float) :
    binary64Rank x = if (bits x).toNat < 2 ^ 63 then ((bits x).toNat : ℤ)
      else 2 ^ 63 - 1 - (bits x).toNat := rfl

theorem lt_binary64Rank (h : unpacked x = .notANumber) : (infiniteBits : ℤ) < binary64Rank x := by
  have hbits : bits x = packedNaN Format.binary64 := by
    have hvalid : Format.binary64.Valid (bits x) := x.toModel.valid
    have hn : UnpackedFloat.unpack Format.binary64 (bits x) = .notANumber := h
    revert hn
    fun_cases UnpackedFloat.unpack with
    | case2 _ _ hones hfraction => exact fun _ => hvalid.eq_packedNaN hones hfraction
    | _ => exact nofun
  rw [binary64Rank_eq, hbits]
  decide

/-- A number stands by its sign and the bits below it. -/
theorem exists_countOfBits (h : unpacked x ≠ .notANumber) : ∃ n ≤ infiniteBits,
    (binary64Rank x = n ∧ quanta (unpacked x) = countOfBits n) ∨
    (binary64Rank x = -n - 1 ∧ quanta (unpacked x) = -countOfBits n) := by
  have hbound : (bits x).toNat < 2 ^ 64 := (bits x).isLt
  obtain ⟨hle, hquanta⟩ := quanta_unpack (bits x) h
  refine ⟨_, hle, ?_⟩
  rw [binary64Rank_eq]
  by_cases hsign : (bits x).toNat < 2 ^ 63
  · rw [if_pos hsign] at hquanta ⊢
    exact .inl ⟨by omega, hquanta⟩
  · rw [if_neg hsign] at hquanta ⊢
    exact .inr ⟨by omega, hquanta⟩

/-- Numbers that are sorted are in order. -/
theorem le_of_binary64Rank_le (h : binary64Rank x ≤ binary64Rank y)
    (hy : unpacked y ≠ .notANumber) : x ≤ y := by
  obtain ⟨n, hn, hy'⟩ := exists_countOfBits hy
  have hx : unpacked x ≠ .notANumber := by
    intro hnan
    have hgreat := lt_binary64Rank hnan
    rcases hy' with ⟨hrank, -⟩ | ⟨hrank, -⟩ <;> omega
  obtain ⟨m, -, hx'⟩ := exists_countOfBits hx
  refine float_le_iff.mpr ⟨hx, hy, ?_⟩
  rcases hx' with ⟨hrx, hqx⟩ | ⟨hrx, hqx⟩ <;> rcases hy' with ⟨hry, hqy⟩ | ⟨hry, hqy⟩ <;>
    rw [hqx, hqy]
  · exact Int.ofNat_le.mpr (countOfBits_strictMono.monotone (by omega))
  · omega
  · omega
  · exact Int.neg_le_neg (Int.ofNat_le.mpr (countOfBits_strictMono.monotone (by omega)))

/-- Values at the same place have the same bits. -/
theorem binary64Rank_injective : Function.Injective binary64Rank := by
  intro x y h
  have hbits : bits x = bits y := by
    have hx : (bits x).toNat < 2 ^ 64 := (bits x).isLt
    have hy : (bits y).toNat < 2 ^ 64 := (bits y).isLt
    rw [binary64Rank_eq, binary64Rank_eq] at h
    refine BitVec.eq_of_toNat_eq ?_
    split_ifs at h <;> omega
  obtain ⟨⟨⟨_⟩, _⟩⟩ := x
  obtain ⟨⟨⟨_⟩, _⟩⟩ := y
  cases hbits
  rfl

/-- Of two numbers that agree the greater one may stand first only at zero. -/
theorem agree_and_not_sorted_iff :
    Scalar.Agree x y ∧ ¬ binary64Rank x ≤ binary64Rank y ↔ x = 0 ∧ y = -0 := by
  constructor
  · rintro ⟨⟨hxy, hyx⟩, hrank⟩
    obtain ⟨hx, hy, hle⟩ := float_le_iff.mp hxy
    have hquanta : quanta (unpacked x) = quanta (unpacked y) :=
      le_antisymm hle (float_le_iff.mp hyx).2.2
    have hzero : countOfBits 0 = 0 := by decide
    obtain ⟨m, -, ⟨hrx, hqx⟩ | ⟨hrx, hqx⟩⟩ := exists_countOfBits hx <;>
      obtain ⟨n, -, ⟨hry, hqy⟩ | ⟨hry, hqy⟩⟩ := exists_countOfBits hy <;>
      rw [hqx, hqy] at hquanta
    · have hmn : m = n := countOfBits_strictMono.injective (Int.ofNat_inj.mp hquanta)
      omega
    · -- A number and its opposite agree only at zero.
      have hm : m = 0 := countOfBits_strictMono.injective (by omega)
      have hn : n = 0 := countOfBits_strictMono.injective (by omega)
      exact ⟨binary64Rank_injective (by rw [hrx, hm]; rfl),
        binary64Rank_injective (by rw [hry, hn]; rfl)⟩
    · omega
    · have hmn : m = n := countOfBits_strictMono.injective (by omega)
      omega
  · rintro ⟨rfl, rfl⟩
    decide +kernel

end Order
end BurstEnergy.Binary64

namespace BurstEnergy
open Binary64

instance : Scalar.Sortable Float where
  totalLe_total h := decide_eq_true (le_of_not_ge (of_decide_eq_false h))
  totalLe_trans h h' := decide_eq_true ((of_decide_eq_true h).trans (of_decide_eq_true h'))
  le_of_totalLe h hb := le_of_binary64Rank_le (of_decide_eq_true h) (float_le_iff.mp hb).1

instance : Scalar.Discerning Float where
  eq_of_totalLe h h' :=
    binary64Rank_injective (le_antisymm (of_decide_eq_true h) (of_decide_eq_true h'))

end BurstEnergy

/-! ## Distances from a target

A target may lie on either side of a value, and a difference that overflowed may have left it
infinite. Distances are measured from the lesser of the two, so they are never below zero, and they
grow with every step away from the target on its own side. Rounding keeps that: it may only make
different distances equal.
-/
namespace BurstEnergy
open Scalar (Lawful Monotone)

/-- Whatever number it is taken from, a greater finite value leaves no more. -/
class Scalar.Antitone (α : Type) [Scalar α] : Prop where
  sub_le_sub_left {a b c : α} : a ≤ a → Scalar.isFinite b = true → Scalar.isFinite c = true →
    b ≤ c → a - c ≤ a - b

instance : Scalar.Antitone Rat where
  sub_le_sub_left _ _ _ h := sub_le_sub_left h _

open Binary64 in
instance : Scalar.Antitone Float where
  sub_le_sub_left {a b c} ha hb hc hbc := by
    have han := (float_le_iff.mp ha).1
    rcases cases_of_number han with hfin | ⟨s, hs⟩
    · exact Monotone.sub_le_sub hfin hfin ha hbc
    · have hsub {x : Float} (hx : x.isFinite = true) : unpacked (a - x) = .infinity s := by
        rw [unpacked_sub, hs, infinity_sub (isFinite_iff.mp hx)]
      rw [float_le_iff, hsub hb, hsub hc]
      exact ⟨nofun, nofun, le_rfl⟩

namespace Scalar
section Order
variable {α : Type} [Scalar α]

/-- How far a value lies from a target, measured from the lesser of the two. -/
def distance (target x : α) : α := if x < target then target - x else x - target

variable [Lawful α] {target x y : α}

/-- A difference from a finite value is a number. -/
theorem sub_le_self_of_isFinite [Monotone α] (hx : isFinite x = true) (ht : target ≤ target) :
    x - target ≤ x - target :=
  Monotone.sub_le_sub hx hx (Lawful.le_self_of_isFinite hx) ht

theorem distance_le_self [Monotone α] [Antitone α] (hx : isFinite x = true)
    (ht : target ≤ target) : distance target x ≤ distance target x := by
  unfold distance
  split
  · exact Antitone.sub_le_sub_left ht hx hx (Lawful.le_self_of_isFinite hx)
  · exact sub_le_self_of_isFinite hx ht

/-- Below a target the greater value is nearer. -/
theorem distance_le_of_lt [Antitone α] (hx : isFinite x = true) (hy : isFinite y = true)
    (ht : target ≤ target) (hxy : x ≤ y) (hlt : y < target) :
    distance target y ≤ distance target x := by
  rw [distance, distance, if_pos hlt, if_pos (lt_of_le_of_lt hxy hlt)]
  exact Antitone.sub_le_sub_left ht hx hy hxy

/-- From a target on the lesser value is nearer. -/
theorem distance_le_of_not_lt [Monotone α] (hx : isFinite x = true) (hy : isFinite y = true)
    (ht : target ≤ target) (hxy : x ≤ y) (hge : ¬ x < target) :
    distance target x ≤ distance target y := by
  rw [distance, distance, if_neg hge, if_neg fun hlt => hge (lt_of_le_of_lt hxy hlt)]
  exact Monotone.sub_le_sub hx hy hxy ht

end Order

/-! In exact arithmetic both ways to measure are the absolute difference. -/
section Exact

theorem magnitude_eq_abs (a : Rat) : magnitude a = |a| := by
  unfold magnitude
  split
  · next h => exact (abs_of_neg h).symm
  · next h => exact (abs_of_nonneg (not_lt.mp h)).symm

theorem distance_eq_abs (target x : Rat) : distance target x = |x - target| := by
  unfold distance
  split
  · next h => rw [abs_of_neg (sub_neg.mpr h), neg_sub]
  · next h => rw [abs_of_nonneg (sub_nonneg.mpr (not_lt.mp h))]

end Exact
end Scalar
end BurstEnergy
