import Mathlib
import BurstEnergy.Decimal
import BurstEnergy.Json.Value

/-!
# Numerals

The shortest decimal of a value has digits to show, and well-formed numerals are read back.
-/

/-! ## Shortest decimals have digits to show

The shortest decimal of a positive value is not zero. Zero does not round to a positive value, so a
grid that answers does not answer with it, and the last grid is finer than the value is large.
-/
namespace BurstEnergy.Decimal
variable {b : Binary} {c : ℕ} {p : ℤ} {tie : Tie}

theorem raise_pos {base : ℕ} (h : 0 < base) (e : ℤ) : 0 < raise base e := Nat.pow_pos h

theorem Binary.lowQuarters_pos (h : b.mantissa ≠ 0) : 0 < b.lowQuarters := by
  unfold lowQuarters
  split <;> omega

namespace Shortest

theorem roundsTo_zero (h : b.mantissa ≠ 0) (p : ℤ) : roundsTo b 0 p = false := by
  have hlow : compareScaled 0 p b.lowQuarters (b.exponent - 2) = .lt := by
    rw [compareScaled, Nat.zero_mul, Nat.zero_mul, Nat.compare_eq_lt]
    exact Nat.mul_pos (Nat.mul_pos (Binary.lowQuarters_pos h) (raise_pos (by decide) _))
      (raise_pos (by decide) _)
  unfold roundsTo
  split <;> simp [hlow]

theorem ne_zero_of_roundsTo (h : b.mantissa ≠ 0) (hc : roundsTo b c p = true) : c ≠ 0 := by
  rintro rfl
  simp [roundsTo_zero h] at hc

theorem nearer_eq (tie : Tie) (b : Binary) (c : ℕ) (p : ℤ) :
    nearer tie b c p = c ∨ nearer tie b c p = c + 1 := by
  unfold nearer
  split
  · exact .inl rfl
  · exact .inr rfl
  · cases tie with
    | up => exact .inr rfl
    | even => exact ite_eq_or_eq _ _ _

theorem onGrid?_ne_zero (h : b.mantissa ≠ 0) {s : Scientific} (hs : onGrid? tie b p = some s) :
    s.significand ≠ 0 := by
  unfold onGrid? at hs
  dsimp only at hs
  split at hs
  · next hc _ =>
    obtain rfl := Option.some.inj hs
    show nearer tie b (floorAt b p) p ≠ 0
    rcases nearer_eq tie b (floorAt b p) p with hn | hn <;> rw [hn]
    · exact ne_zero_of_roundsTo h hc
    · exact Nat.succ_ne_zero _
  · next hc _ =>
    obtain rfl := Option.some.inj hs
    exact ne_zero_of_roundsTo h hc
  · obtain rfl := Option.some.inj hs
    exact Nat.succ_ne_zero _
  · cases hs

theorem pow_digitCount_le {n : ℕ} (h : n ≠ 0) : 10 ^ (digitCount n - 1) ≤ n := by
  by_contra hlt
  rcases Nat.eq_zero_or_pos (digitCount n - 1) with hzero | hpos
  · rw [hzero, pow_zero] at hlt
    omega
  · have hle : digitCount n ≤ digitCount n - 1 :=
      (Nat.length_toDigits_le_iff (by decide) hpos).mpr (not_le.mp hlt)
    omega

theorem lt_pow_digitCount (n : ℕ) : n < 10 ^ digitCount n :=
  (Nat.length_toDigits_le_iff (by decide) Nat.length_toDigits_pos).mp le_rfl

theorem floorAt_pos (h : b.mantissa ≠ 0) (hp : p < leadingExponent b) : floorAt b p ≠ 0 := by
  have hvalue : b.mantissa * raise 2 b.exponent ≠ 0 :=
    Nat.mul_ne_zero h (raise_pos (by decide) _).ne'
  have hestimate : p < (digitCount (b.mantissa * raise 2 b.exponent) : ℤ)
      - digitCount (raise 2 (-b.exponent)) := by
    unfold leadingExponent at hp
    dsimp only at hp
    split at hp <;> omega
  have hdigits : 0 < digitCount (b.mantissa * raise 2 b.exponent) := Nat.length_toDigits_pos
  refine (Nat.div_pos ?_ (Nat.mul_pos (raise_pos (by decide) _) (raise_pos (by decide) _))).ne'
  calc raise 2 (-b.exponent) * raise 10 p
      ≤ 10 ^ digitCount (raise 2 (-b.exponent)) * 10 ^ p.toNat :=
        Nat.mul_le_mul_right _ (lt_pow_digitCount _).le
    _ = 10 ^ (digitCount (raise 2 (-b.exponent)) + p.toNat) := (pow_add ..).symm
    _ ≤ 10 ^ (digitCount (b.mantissa * raise 2 b.exponent) - 1 + (-p).toNat) :=
        Nat.pow_le_pow_right (by decide) (by omega)
    _ = 10 ^ (digitCount (b.mantissa * raise 2 b.exponent) - 1) * 10 ^ (-p).toNat := pow_add ..
    _ ≤ b.mantissa * raise 2 b.exponent * raise 10 (-p) :=
        Nat.mul_le_mul_right _ (pow_digitCount_le hvalue)

theorem search_ne_zero (h : b.mantissa ≠ 0) {steps : ℕ} (hp : p - steps < leadingExponent b) :
    (search tie b p steps).significand ≠ 0 := by
  induction steps generalizing p with
  | zero => exact floorAt_pos h (by simpa using hp)
  | succ steps ih =>
    rw [search]
    cases hgrid : onGrid? tie b p with
    | none => exact ih (by omega)
    | some s => exact onGrid?_ne_zero h hgrid

theorem normalize_ne_zero {s : Scientific} (h : s.significand ≠ 0) :
    (normalize s).significand ≠ 0 := by
  induction s using normalize.induct with
  | case1 s hzeros ih =>
    rw [normalize, dif_pos hzeros]
    exact ih (show s.significand / 10 ≠ 0 by omega)
  | case2 s hdigit =>
    rw [normalize, dif_neg hdigit]
    exact h

theorem ofBinary_ne_zero (h : b.mantissa ≠ 0) : (ofBinary tie b).significand ≠ 0 :=
  normalize_ne_zero (search_ne_zero h (by omega))

end Shortest
end BurstEnergy.Decimal

/-! ## Numerals in texts

A well-formed numeral is written as one word, and the word is read as the same numeral. The
numerals of counts and of measured values are well formed; what a count is read as is that count.
-/
namespace BurstEnergy
open Json Decimal

namespace Decimal.Numeral
variable {n : Numeral}

/-- A numeral as texts may contain it: whole digits without a zero in front of others, and digits
wherever digits are due. -/
structure WellFormed (n : Numeral) : Prop where
  whole : isWholePart n.whole = true
  wholeDigits : ∀ c ∈ n.whole, isDigit c = true
  fractionDigits : ∀ c ∈ n.fraction, isDigit c = true
  exponent : ∀ e ∈ n.exponent, e.2 ≠ [] ∧ ∀ c ∈ e.2, isDigit c = true

end Decimal.Numeral

namespace Json
open Numeral (WellFormed exponentChars fractionChars)
variable {n : Numeral} {digits rest : List Char}

theorem isDigit_eq (c : Char) : isDigit c = c.isDigit := by
  rw [isDigit, Char.isDigit, Bool.decide_and]
  rfl

theorem takeWhile_isDigit_append (hd : ∀ c ∈ digits, isDigit c = true)
    (hr : ∀ c ∈ rest.head?, isDigit c = false) : (digits ++ rest).takeWhile isDigit = digits := by
  rw [List.takeWhile_append_of_pos hd]
  cases rest with
  | nil => simp
  | cons c rest => simp [hr c rfl]

theorem dropWhile_isDigit_append (hd : ∀ c ∈ digits, isDigit c = true)
    (hr : ∀ c ∈ rest.head?, isDigit c = false) : (digits ++ rest).dropWhile isDigit = rest := by
  rw [List.dropWhile_append_of_pos hd]
  cases rest with
  | nil => simp
  | cons c rest => simp [hr c rfl]

theorem takeSign_chars (hw : isWholePart digits = true) (hd : ∀ c ∈ digits, isDigit c = true)
    (negative : Bool) : takeSign ((if negative then ['-'] else []) ++ (digits ++ rest)) =
      (negative, digits ++ rest) := by
  cases negative with
  | true => rfl
  | false =>
    cases digits with
    | nil => cases hw
    | cons c digits =>
      have hc : c ≠ '-' := by
        rintro rfl
        exact absurd (hd '-' List.mem_cons_self) (by decide)
      simp [takeSign, hc]

theorem head?_exponentChars (e : Option (Bool × List Char)) :
    ∀ c ∈ (exponentChars e).head?, isDigit c = false := by
  cases e with
  | none => simp [exponentChars]
  | some e => simp [exponentChars, isDigit]

theorem head?_fractionChars (fraction : List Char) (e : Option (Bool × List Char)) :
    ∀ c ∈ (fractionChars fraction ++ exponentChars e).head?, isDigit c = false := by
  cases fraction with
  | nil => exact head?_exponentChars e
  | cons c fraction => simp [fractionChars, isDigit]

theorem takeFraction?_chars (hd : ∀ c ∈ digits, isDigit c = true)
    (e : Option (Bool × List Char)) :
    takeFraction? (fractionChars digits ++ exponentChars e) = some (digits, exponentChars e) := by
  cases digits with
  | nil => cases e <;> rfl
  | cons c digits =>
    have htake := takeWhile_isDigit_append hd (head?_exponentChars e)
    have hdrop := dropWhile_isDigit_append hd (head?_exponentChars e)
    rw [List.cons_append] at htake hdrop
    simp [fractionChars, takeFraction?, htake, hdrop]

theorem exponentDigits?_eq (hne : digits ≠ []) (hd : ∀ c ∈ digits, isDigit c = true)
    (isNegative : Bool) : exponentDigits? isNegative digits = some (isNegative, digits) := by
  simp [exponentDigits?, hne, List.all_eq_true.mpr hd]

theorem takeExponent?_chars {e : Option (Bool × List Char)}
    (he : ∀ e' ∈ e, e'.2 ≠ [] ∧ ∀ c ∈ e'.2, isDigit c = true) :
    takeExponent? (exponentChars e) = some e := by
  cases e with
  | none => rfl
  | some e =>
    obtain ⟨isNegative, digits⟩ := e
    obtain ⟨hne, hd⟩ := he _ rfl
    cases isNegative <;> simp [exponentChars, takeExponent?, exponentDigits?_eq hne hd]

/-- The characters of a well-formed numeral are read as that numeral. -/
theorem numeralOfWord?_chars (h : n.WellFormed) : numeralOfWord? n.chars = some n := by
  have htail := head?_fractionChars n.fraction n.exponent
  rw [Numeral.chars, List.append_assoc, List.append_assoc]
  simp [numeralOfWord?, takeSign_chars h.whole h.wholeDigits,
    takeWhile_isDigit_append h.wholeDigits htail, dropWhile_isDigit_append h.wholeDigits htail,
    h.whole, takeFraction?_chars h.fractionDigits, takeExponent?_chars h.exponent]

theorem isWordChar_of_isDigit {c : Char} (h : isDigit c = true) : isWordChar c = true := by
  simp [isWordChar, h]

theorem isWordChar_of_mem_chars (h : n.WellFormed) {c : Char} (hc : c ∈ n.chars) :
    isWordChar c = true := by
  simp only [Numeral.chars, List.mem_append] at hc
  rcases hc with ((hsign | hwhole) | hfraction) | hexponent
  · split at hsign
    · obtain rfl := List.mem_singleton.mp hsign
      decide
    · cases hsign
  · exact isWordChar_of_isDigit (h.wholeDigits c hwhole)
  · unfold fractionChars at hfraction
    split at hfraction
    · cases hfraction
    · rcases List.mem_cons.mp hfraction with rfl | hfraction
      · decide
      · exact isWordChar_of_isDigit (h.fractionDigits c hfraction)
  · cases hexp : n.exponent with
    | none => simp [hexp, exponentChars] at hexponent
    | some e =>
      simp only [hexp, exponentChars, List.mem_cons] at hexponent
      rcases hexponent with rfl | rfl | hexponent
      · decide
      · split <;> decide
      · exact isWordChar_of_isDigit ((h.exponent e hexp).2 c hexponent)

/-- A numeral begins with a sign or a digit, so it is none of the literals. -/
theorem wordToken?_chars (h : n.WellFormed) : wordToken? n.chars = some (.number n) := by
  have hne {word : List Char} (hword : numeralOfWord? word = none) : n.chars ≠ word := by
    rintro rfl
    simp [numeralOfWord?_chars h] at hword
  have hnull : n.chars ≠ ['n', 'u', 'l', 'l'] := hne (by decide)
  have htrue : n.chars ≠ ['t', 'r', 'u', 'e'] := hne (by decide)
  have hfalse : n.chars ≠ ['f', 'a', 'l', 's', 'e'] := hne (by decide)
  rw [wordToken?, if_neg hnull, if_neg htrue, if_neg hfalse, numeralOfWord?_chars h,
    Option.map_some]

/-! ## The numerals that are written -/

theorem isDigit_of_mem_toDigits {k : ℕ} {c : Char} (h : c ∈ Nat.toDigits 10 k) :
    isDigit c = true := by
  rw [isDigit_eq]
  exact Nat.isDigit_of_mem_toDigits (by decide) (by decide) h

/-- The digits of a positive count do not begin with a zero. -/
theorem exists_toDigits_eq_cons {k : ℕ} (h : k ≠ 0) :
    ∃ c rest, Nat.toDigits 10 k = c :: rest ∧ c ≠ '0' := by
  induction k using Nat.strong_induction_on with
  | h k ih =>
    rw [Nat.toDigits_eq_if (by decide)]
    split
    · exact ⟨_, [], rfl, Nat.digitChar_eq_zero.not.mpr h⟩
    · next hlarge =>
      obtain ⟨c, rest, heq, hc⟩ := ih (k / 10) (by omega) (by omega)
      exact ⟨c, rest ++ [(k % 10).digitChar], by rw [heq, List.cons_append], hc⟩

theorem isWholePart_cons {c : Char} (hc : c ≠ '0') (rest : List Char) :
    isWholePart (c :: rest) = true := by
  unfold isWholePart
  split
  · next heq => cases heq
  · rfl
  · next heq => simpa [(List.cons.inj heq).1] using hc

theorem wellFormed_ofNat (k : ℕ) : (Numeral.ofNat k).WellFormed where
  whole := by
    rcases Nat.eq_zero_or_pos k with rfl | hk
    · decide
    · obtain ⟨c, rest, heq, hc⟩ := exists_toDigits_eq_cons hk.ne'
      rw [Numeral.ofNat, heq]
      exact isWholePart_cons hc rest
  wholeDigits _ := isDigit_of_mem_toDigits
  fractionDigits _ := nofun
  exponent _ := nofun

theorem toNat?_ofNat (k : ℕ) : (Numeral.ofNat k).toNat? = some k := by
  have hvalue : Numeral.natOfDigits (Nat.toDigits 10 k) = k :=
    Nat.ofDigitChars_eq_foldl.symm.trans Nat.ofDigitChars_ten_toDigits
  simp [Numeral.toNat?, Numeral.ofNat, Numeral.isWhole, hvalue]

section Layouts
variable {c : Char} {negative keepsFraction : Bool} {lead : ℤ}

theorem wellFormed_plainNumeral (hc : c ≠ '0') (hd : ∀ x ∈ c :: rest, isDigit x = true) :
    (Layout.plainNumeral keepsFraction negative (c :: rest) lead).WellFormed := by
  have hzeros {k : ℕ} : ∀ x ∈ List.replicate k '0', isDigit x = true := by
    intro x hx
    rw [List.eq_of_mem_replicate hx]
    decide
  have hzero : ∀ x ∈ ['0'], isDigit x = true := by simp [isDigit]
  unfold Layout.plainNumeral
  dsimp only
  split
  · exact ⟨rfl, hzero, List.forall_mem_append.mpr ⟨hzeros, hd⟩, nofun⟩
  · split
    · next hlead _ =>
      obtain ⟨k, hk⟩ : ∃ k, (lead + 1).toNat = k + 1 := Nat.exists_eq_succ_of_ne_zero (by omega)
      refine ⟨?_, fun x hx => hd x (List.mem_of_mem_take hx),
        fun x hx => hd x (List.mem_of_mem_drop hx), nofun⟩
      rw [hk, List.take_succ_cons]
      exact isWholePart_cons hc _
    · refine ⟨isWholePart_cons hc _, List.forall_mem_append.mpr ⟨hd, hzeros⟩, ?_, nofun⟩
      split
      · exact hzero
      · exact List.forall_mem_nil _

theorem wellFormed_scientificNumeral (hc : c ≠ '0') (hd : ∀ x ∈ c :: rest, isDigit x = true) :
    (Layout.scientificNumeral negative (c :: rest) lead).WellFormed where
  whole := isWholePart_cons hc []
  wholeDigits x hx := hd x (List.mem_of_mem_take hx)
  fractionDigits x hx := hd x (List.mem_of_mem_drop hx)
  exponent e he := by
    obtain rfl := Option.some.inj he
    exact ⟨Nat.toDigits_ne_nil, fun x => isDigit_of_mem_toDigits⟩

/-- A decimal other than zero is laid out as a well-formed numeral. -/
theorem wellFormed_numeral {layout : Layout} {s : Scientific} (h : s.significand ≠ 0) :
    (layout.numeral negative s).WellFormed := by
  obtain ⟨c, rest, heq, hc⟩ := exists_toDigits_eq_cons h
  have hd : ∀ x ∈ c :: rest, isDigit x = true := by
    rw [← heq]
    exact fun x => isDigit_of_mem_toDigits
  unfold Layout.numeral
  rw [heq]
  dsimp only
  split
  · split
    · exact wellFormed_plainNumeral hc hd
    · exact wellFormed_scientificNumeral hc hd
  · exact wellFormed_plainNumeral hc hd

end Layouts

theorem wellFormed_zero (negative : Bool) :
    (Layout.document.numeral negative ⟨0, 0⟩).WellFormed := by
  have heq : Layout.document.numeral negative ⟨0, 0⟩ = ⟨negative, ['0'], ['0'], none⟩ := rfl
  rw [heq]
  exact ⟨rfl, by simp [isDigit], by simp [isDigit], nofun⟩

theorem wellFormed_of_numeral? {x : Float} (h : Layout.document.numeral? x = some n) :
    n.WellFormed := by
  unfold Layout.numeral? at h
  dsimp only at h
  split at h
  · obtain rfl := Option.some.inj h
    split
    · exact wellFormed_zero _
    · next hmantissa => exact wellFormed_numeral (Shortest.ofBinary_ne_zero hmantissa)
  · cases h

end Json
end BurstEnergy
