/-!
# Measured quantities

Times, powers and energies share one number type. Every engine of this library is written once
over `Scalar`: it runs on `Float` and is reasoned about on `Rat`, where each operation is exact.
The order of the operations belongs to each definition, because rounded sums depend on it.
-/
namespace BurstEnergy

/-- A number type for times, powers and energies: arithmetic, a decidable order, counts and
decimal constants, a test for finite values, and a total order for sorting. -/
class Scalar (α : Type) extends Zero α, Neg α, Add α, Sub α, Mul α, Div α, LT α, LE α,
    NatCast α, OfScientific α where
  decidableLt (a b : α) : Decidable (a < b)
  decidableLe (a b : α) : Decidable (a ≤ b)
  /-- Neither infinite nor undefined. -/
  isFinite : α → Bool
  /-- A total order that refines `≤` and also places the values `≤` leaves unordered. -/
  totalLe : α → α → Bool

instance Scalar.instDecidableLT {α : Type} [Scalar α] : DecidableLT α := Scalar.decidableLt

instance Scalar.instDecidableLE {α : Type} [Scalar α] : DecidableLE α := Scalar.decidableLe

/-- Exact arithmetic: every value is finite and sorting uses the usual order. -/
instance : Scalar Rat where
  toZero := ⟨0⟩
  toNeg := Rat.instNeg
  toAdd := Rat.instAdd
  toSub := Rat.instSub
  toMul := Rat.instMul
  toDiv := Rat.instDiv
  toLT := Rat.instLT
  toLE := Rat.instLE
  toNatCast := Rat.instNatCast
  toOfScientific := Rat.instOfScientific
  decidableLt := inferInstance
  decidableLe := inferInstance
  isFinite _ := true
  totalLe a b := decide (a ≤ b)

/-- The place of a binary64 value in the total order: negative values below negative zero, then
positive zero, the positive values, infinity, and what is not a number last. -/
def binary64Rank (x : Float) : Int :=
  let bits : Nat := x.toBits.toNat
  if bits < 0x8000000000000000 then bits else 0x7fffffffffffffff - (bits : Int)

/-- Binary64 arithmetic, rounded to nearest after every operation. -/
instance : Scalar Float where
  toZero := ⟨0⟩
  toNeg := inferInstance
  toAdd := inferInstance
  toSub := inferInstance
  toMul := inferInstance
  toDiv := inferInstance
  toLT := inferInstance
  toLE := inferInstance
  toNatCast := ⟨Float.ofNat⟩
  toOfScientific := inferInstance
  decidableLt := inferInstance
  decidableLe := inferInstance
  isFinite := Float.isFinite
  totalLe a b := decide (binary64Rank a ≤ binary64Rank b)

namespace Scalar
variable {α : Type} [Scalar α]

/-- Numerical equality: both zeros agree, and what is not a number agrees with nothing. -/
def Agree (a b : α) : Prop := a ≤ b ∧ b ≤ a

instance (a b : α) : Decidable (Agree a b) := inferInstanceAs (Decidable (a ≤ b ∧ b ≤ a))

/-- The larger of two values; an undefined value gives way to the other one. -/
def larger (a b : α) : α := if a < b ∨ ¬ a ≤ a then b else a

/-- The smaller of two values; an undefined value gives way to the other one. -/
def smaller (a b : α) : α := if b < a ∨ ¬ a ≤ a then b else a

def magnitude (a : α) : α := if a < 0 then -a else a

/-- The left-to-right sum. It starts from negative zero, which added to any value changes
nothing, so the empty sum is negative zero. -/
def sum (xs : List α) : α := xs.foldl (· + ·) (-0)

/-- The left-to-right sum of an accumulator that starts from positive zero. -/
def tally (xs : List α) : α := xs.foldl (· + ·) 0

/-- `part` over `whole`, and zero unless there is some of the whole. -/
def share (part whole : α) : α := if 0 < whole then part / whole else 0

@[simp] theorem sum_nil : sum ([] : List α) = -0 := rfl

@[simp] theorem tally_nil : tally ([] : List α) = 0 := rfl

@[simp] theorem tally_append_singleton (xs : List α) (x : α) :
    tally (xs ++ [x]) = tally xs + x := by
  simp [tally]

end Scalar
end BurstEnergy
