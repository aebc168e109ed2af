import Mathlib
import BurstEnergy.Scalar

/-!
# Laws of numbers

What the engines need to know of their numbers, each law stated so that rounding cannot break it.
-/
namespace BurstEnergy

/-! ## Laws of exact and rounded arithmetic

Values that are not numbers compare with nothing, so `a ≤ a` says that `a` is a number. On numbers
the order is total; adding what is not negative does not step below, and subtracting it does not
step above. Sums are not assumed to be associative, and no difference is assumed to be exact.
-/

/-- The laws that exact arithmetic shares with arithmetic that rounds monotonically. -/
class Scalar.Lawful (α : Type) [Scalar α] : Prop where
  le_trans {a b c : α} : a ≤ b → b ≤ c → a ≤ c
  /-- Only numbers compare. -/
  le_self_of_le {a b : α} : a ≤ b → a ≤ a ∧ b ≤ b
  le_total {a b : α} : a ≤ a → b ≤ b → a ≤ b ∨ b ≤ a
  lt_iff {a b : α} : a < b ↔ a ≤ b ∧ ¬ b ≤ a
  le_self_of_isFinite {a : α} : Scalar.isFinite a = true → a ≤ a
  zero_le_zero : (0 : α) ≤ 0
  le_add {a t : α} : 0 ≤ a → 0 ≤ t → a ≤ a + t
  sub_le {a t : α} : 0 ≤ a → 0 ≤ t → Scalar.isFinite t = true → a - t ≤ a
  sub_nonpos {a b : α} : 0 ≤ a → a ≤ b → Scalar.isFinite b = true → a - b ≤ 0

instance : Scalar.Lawful Rat where
  le_trans h h' := h.trans h'
  le_self_of_le _ := ⟨le_rfl, le_rfl⟩
  le_total _ _ := le_total _ _
  lt_iff := lt_iff_le_not_ge
  le_self_of_isFinite _ := le_rfl
  zero_le_zero := le_rfl
  le_add _ h := le_add_of_nonneg_right h
  sub_le _ h _ := sub_le_self _ h
  sub_nonpos _ h _ := sub_nonpos.mpr h

namespace Scalar
section Order
variable {α : Type} [Scalar α] {a b c : α}

/-- A finite value that is not below zero: what checked thresholds, timers and times are. -/
def IsAmount (a : α) : Prop := isFinite a = true ∧ ¬ a < 0

theorem Agree.symm (h : Agree a b) : Agree b a := ⟨h.2, h.1⟩

theorem larger_le (ha : a ≤ c) (hb : b ≤ c) : larger a b ≤ c := by
  unfold larger
  split
  · exact hb
  · exact ha

variable [Lawful α]

theorem le_of_lt (h : a < b) : a ≤ b := (Lawful.lt_iff.mp h).1

theorem not_le_of_lt (h : a < b) : ¬ b ≤ a := (Lawful.lt_iff.mp h).2

theorem not_lt_of_le (h : a ≤ b) : ¬ b < a := fun h' => not_le_of_lt h' h

theorem not_lt_self (a : α) : ¬ a < a := fun h => not_le_of_lt h (le_of_lt h)

theorem lt_of_not_le (ha : a ≤ a) (hb : b ≤ b) (h : ¬ a ≤ b) : b < a :=
  Lawful.lt_iff.mpr ⟨(Lawful.le_total ha hb).resolve_left h, h⟩

theorem le_of_not_lt (ha : a ≤ a) (hb : b ≤ b) (h : ¬ a < b) : b ≤ a := by
  by_contra hba
  exact h (lt_of_not_le hb ha hba)

theorem lt_of_le_of_lt (h : a ≤ b) (h' : b < c) : a < c :=
  Lawful.lt_iff.mpr ⟨Lawful.le_trans h (le_of_lt h'),
    fun hca => not_le_of_lt h' (Lawful.le_trans hca h)⟩

theorem lt_of_lt_of_le (h : a < b) (h' : b ≤ c) : a < c :=
  Lawful.lt_iff.mpr ⟨Lawful.le_trans (le_of_lt h) h',
    fun hca => not_le_of_lt h (Lawful.le_trans h' hca)⟩

theorem le_self_left (h : a ≤ b) : a ≤ a := (Lawful.le_self_of_le h).1

theorem le_self_right (h : a ≤ b) : b ≤ b := (Lawful.le_self_of_le h).2

theorem IsAmount.nonneg (h : IsAmount a) : 0 ≤ a :=
  le_of_not_lt (Lawful.le_self_of_isFinite h.1) Lawful.zero_le_zero h.2

theorem Agree.trans (h : Agree a b) (h' : Agree b c) : Agree a c :=
  ⟨Lawful.le_trans h.1 h'.1, Lawful.le_trans h'.2 h.2⟩

theorem le_larger_right (ha : a ≤ a) (hb : b ≤ b) : b ≤ larger a b := by
  unfold larger
  split
  · exact hb
  · next h => exact le_of_not_lt ha hb fun hab => h (.inl hab)

end Order

/-! In exact arithmetic numerical equality is equality, and the operations are the usual ones. -/
section Exact

@[simp] theorem agree_iff_eq {a b : Rat} : Agree a b ↔ a = b :=
  ⟨fun h => le_antisymm h.1 h.2, fun h => h ▸ ⟨le_rfl, le_rfl⟩⟩

theorem larger_eq_max (a b : Rat) : larger a b = max a b := by
  unfold larger
  split
  · next h => rw [max_eq_right (h.elim le_of_lt fun hn => absurd le_rfl hn)]
  · next h => rw [max_eq_left (not_lt.mp fun hab => h (.inl hab))]

theorem smaller_eq_min (a b : Rat) : smaller a b = min a b := by
  unfold smaller
  split
  · next h => rw [min_eq_right (h.elim le_of_lt fun hn => absurd le_rfl hn)]
  · next h => rw [min_eq_left (not_lt.mp fun hab => h (.inl hab))]

theorem sum_eq_sum (xs : List Rat) : sum xs = xs.sum := by
  rw [sum, neg_zero, List.sum_eq_foldl]

theorem tally_eq_sum (xs : List Rat) : tally xs = xs.sum := by
  rw [tally, List.sum_eq_foldl]

theorem share_nonneg {part : Rat} (h : 0 ≤ part) (whole : Rat) : 0 ≤ share part whole := by
  unfold share
  split
  · next hw => exact div_nonneg h hw.le
  · exact le_rfl

theorem share_le_one {part whole : Rat} (h : part ≤ whole) : share part whole ≤ 1 := by
  unfold share
  split
  · next hw => exact (div_le_one hw).mpr h
  · exact zero_le_one

theorem share_zero (part : Rat) : share part 0 = 0 := if_neg (lt_irrefl 0)

theorem share_self (whole : Rat) : share whole whole = if 0 < whole then 1 else 0 := by
  unfold share
  split
  · next hw => exact div_self hw.ne'
  · rfl

theorem share_add (part other whole : Rat) :
    share (part + other) whole = share part whole + share other whole := by
  unfold share
  split
  · exact add_div part other whole
  · exact (add_zero 0).symm

/-- Two amounts share out their sum, if there is any of it. -/
theorem share_add_share {a b : Rat} (ha : 0 ≤ a) (hb : 0 ≤ b) :
    share a (a + b) + share b (a + b) = if 0 < a ∨ 0 < b then 1 else 0 := by
  rw [← share_add, share_self]
  refine if_congr ⟨fun hsum => ?_, fun h => ?_⟩ rfl rfl
  · by_contra hnone
    rw [not_or, not_lt, not_lt] at hnone
    exact absurd hsum (add_nonpos hnone.1 hnone.2).not_gt
  · rcases h with h | h
    · exact add_pos_of_pos_of_nonneg h hb
    · exact add_pos_of_nonneg_of_pos ha h

theorem sum_map_share (parts : List Rat) (whole : Rat) :
    (parts.map fun part => share part whole).sum = share parts.sum whole := by
  induction parts with
  | nil => simp [share]
  | cons part rest ih => rw [List.map_cons, List.sum_cons, List.sum_cons, ih, share_add]

end Exact
end Scalar

/-! ## Monotone differences and sorting

A difference grows with what it is taken from and shrinks with what is taken away, because the
rounded value of a greater number is never less. The order for sorting refines the order of numbers,
with whatever is not a number after all of them, and it tells any two values apart.
-/

/-- Differences from finite values follow the order of their operands. -/
class Scalar.Monotone (α : Type) [Scalar α] : Prop where
  sub_le_sub {a b c d : α} : Scalar.isFinite a = true → Scalar.isFinite b = true →
    a ≤ b → c ≤ d → a - d ≤ b - c

/-- The order for sorting is total, and no number comes after a greater one or after something
that is not a number. -/
class Scalar.Sortable (α : Type) [Scalar α] : Prop where
  totalLe_total {a b : α} : Scalar.totalLe a b = false → Scalar.totalLe b a = true
  totalLe_trans {a b c : α} :
    Scalar.totalLe a b = true → Scalar.totalLe b c = true → Scalar.totalLe a c = true
  le_of_totalLe {a b : α} : Scalar.totalLe a b = true → b ≤ b → a ≤ b

/-- Only a value itself stands at its place in the order for sorting. -/
class Scalar.Discerning (α : Type) [Scalar α] : Prop where
  eq_of_totalLe {a b : α} : Scalar.totalLe a b = true → Scalar.totalLe b a = true → a = b

instance : Scalar.Monotone Rat where
  sub_le_sub _ _ h h' := sub_le_sub h h'

instance : Scalar.Sortable Rat where
  totalLe_total h := decide_eq_true (le_of_not_ge (of_decide_eq_false h))
  totalLe_trans h h' := decide_eq_true ((of_decide_eq_true h).trans (of_decide_eq_true h'))
  le_of_totalLe h _ := of_decide_eq_true h

instance : Scalar.Discerning Rat where
  eq_of_totalLe h h' := le_antisymm (of_decide_eq_true h) (of_decide_eq_true h')

/-! ## Differences that do not vanish

Two different numbers have a difference that is not zero, because a difference may underflow
gradually. A quotient may vanish, but not the mean of as many steps as it is divided by: every step
is at least the smallest positive number, and so is their mean.
-/

/-- Steps of growing values have a difference and a mean above zero. -/
class Scalar.Gradual (α : Type) [Scalar α] : Prop where
  sub_pos_iff {a b : α} : Scalar.isFinite a = true → Scalar.isFinite b = true →
    (0 < a - b ↔ b < a)
  mean_pos {values : List α} {a b : α} {i j n : ℕ} :
    (∀ x ∈ values, Scalar.isFinite x = true) → values.Pairwise (· < ·) →
    values[i]? = some a → values[j]? = some b → i + n ≤ j → 0 < n → 0 < (b - a) / (n : α)

instance : Scalar.Gradual Rat where
  sub_pos_iff _ _ := sub_pos
  mean_pos {values a b i j n} _ hgrow hi hj hle hn := by
    obtain ⟨hilt, rfl⟩ := List.getElem?_eq_some_iff.mp hi
    obtain ⟨hjlt, rfl⟩ := List.getElem?_eq_some_iff.mp hj
    have hlt := List.pairwise_iff_getElem.mp hgrow i j hilt hjlt (by omega)
    exact div_pos (sub_pos.mpr hlt) (Nat.cast_pos.mpr hn)

/-! ## Sums of parts and of the whole

A sum over part of a list skips some terms of the sum over all of it, and the two may start from
different zeros. Rounding is monotone, so the accumulators stay in order from term to term: a term
of both is added to each, and a term of the whole alone does not lower what it is added to. Nor does
rounding carry the quotient of two sums in order past one.
-/

/-- Adding the same amount to both sides keeps the order, and both zeros are alike. -/
class Scalar.Additive (α : Type) [Scalar α] : Prop where
  neg_zero_agree : Scalar.Agree (-0 : α) 0
  add_le_add_right {a b t : α} : 0 ≤ a → a ≤ b → Scalar.IsAmount t → a + t ≤ b + t

/-- A part of a finite whole is between none of it and all of it. -/
class Scalar.Proportional (α : Type) [Scalar α] : Prop where
  zero_le_one : (0 : α) ≤ 1.0
  div_bounds {part whole : α} : 0 ≤ part → part ≤ whole → 0 < whole →
    Scalar.isFinite whole = true → 0 ≤ part / whole ∧ part / whole ≤ 1.0

instance : Scalar.Additive Rat where
  neg_zero_agree := Scalar.agree_iff_eq.mpr neg_zero
  add_le_add_right _ h _ := add_le_add_left h _

instance : Scalar.Proportional Rat where
  zero_le_one := by norm_num
  div_bounds hpart hle hpos _ := by
    have hone : (1.0 : Rat) = 1 := by norm_num
    exact ⟨div_nonneg hpart hpos.le, hone ▸ (div_le_one hpos).mpr hle⟩

namespace Scalar
variable {α : Type} [Scalar α] [Lawful α] {xs ys : List α} {part whole : α}

section Sums
variable [Additive α]

/-- Two accumulators in order stay in order, if what goes to the lesser one goes to both. -/
theorem foldl_add_le_foldl_add (h : xs.Sublist ys) {a b : α} (ha : 0 ≤ a) (hab : a ≤ b)
    (hys : ∀ y ∈ ys, IsAmount y) : xs.foldl (· + ·) a ≤ ys.foldl (· + ·) b := by
  induction h generalizing a b with
  | slnil => exact hab
  | cons y _ ih =>
    have hb : 0 ≤ b := Lawful.le_trans ha hab
    have hy : 0 ≤ y := (hys y List.mem_cons_self).nonneg
    exact ih ha (Lawful.le_trans hab (Lawful.le_add hb hy)) fun z hz =>
      hys z (List.mem_cons_of_mem _ hz)
  | cons_cons y _ ih =>
    have hy : IsAmount y := hys y List.mem_cons_self
    exact ih (Lawful.le_trans ha (Lawful.le_add ha hy.nonneg))
      (Additive.add_le_add_right ha hab hy) fun z hz => hys z (List.mem_cons_of_mem _ hz)

theorem tally_le_sum (h : xs.Sublist ys) (hys : ∀ y ∈ ys, IsAmount y) : tally xs ≤ sum ys :=
  foldl_add_le_foldl_add h Lawful.zero_le_zero Additive.neg_zero_agree.2 hys

theorem tally_nonneg (hxs : ∀ x ∈ xs, IsAmount x) : 0 ≤ tally xs :=
  foldl_add_le_foldl_add (List.nil_sublist xs) Lawful.zero_le_zero Lawful.zero_le_zero hxs

/-- The two sums of one list differ in the zero they start from, and in nothing that shows. -/
theorem agree_tally_sum (hxs : ∀ x ∈ xs, IsAmount x) : Agree (tally xs) (sum xs) := by
  obtain ⟨hle, hge⟩ := Additive.neg_zero_agree (α := α)
  exact ⟨tally_le_sum (List.Sublist.refl xs) hxs,
    foldl_add_le_foldl_add (List.Sublist.refl xs) hge hle hxs⟩

end Sums

/-- A share of a finite whole is between none of it and all of it. -/
theorem share_bounds [Proportional α] (hpart : 0 ≤ part) (hle : part ≤ whole)
    (hfin : isFinite whole = true) : 0 ≤ share part whole ∧ share part whole ≤ 1.0 := by
  unfold share
  split
  · next hpos => exact Proportional.div_bounds hpart hle hpos hfin
  · exact ⟨Lawful.zero_le_zero, Proportional.zero_le_one⟩

end Scalar

end BurstEnergy
