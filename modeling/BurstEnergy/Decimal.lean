/-!
# Decimals

Decimals as they stand in texts, the shortest one that reads back as a binary64 value, how its
digits are set out, and the value that a numeral is read as.
-/
namespace BurstEnergy.Decimal

/-! ## Written decimals

A numeral is a decimal as it stands in a text: a sign, the digits before the point, those after
it, and an exponent. It keeps the spelling, so writing one and reading it again loses nothing.
Its value is a matter of the reader.
-/

/-- A decimal as written. An empty fraction stands for a numeral without a point. -/
structure Numeral where
  negative : Bool
  whole : List Char
  fraction : List Char
  /-- The sign of the exponent (set when negative) and its digits. -/
  exponent : Option (Bool × List Char)
  deriving DecidableEq, Repr

namespace Numeral

/-- The characters of the exponent part; its sign is always written. -/
def exponentChars : Option (Bool × List Char) → List Char
  | none => []
  | some (isNegative, digits) => 'e' :: (if isNegative then '-' else '+') :: digits

def fractionChars (digits : List Char) : List Char :=
  if digits.isEmpty then [] else '.' :: digits

def chars (n : Numeral) : List Char :=
  (if n.negative then ['-'] else []) ++ n.whole ++ fractionChars n.fraction
    ++ exponentChars n.exponent

def text (n : Numeral) : String := String.ofList n.chars

def ofNat (n : Nat) : Numeral := ⟨false, Nat.toDigits 10 n, [], none⟩

/-- Written as a whole number: no point and no exponent. -/
def isWhole (n : Numeral) : Bool := n.fraction.isEmpty && n.exponent.isNone

def digitValue (c : Char) : Nat := c.toNat - '0'.toNat

def natOfDigits (digits : List Char) : Nat :=
  digits.foldl (fun value c => 10 * value + digitValue c) 0

/-- The count a numeral stands for: it is written as a whole number without a sign. -/
def toNat? (n : Numeral) : Option Nat :=
  if n.isWhole && !n.negative then some (natOfDigits n.whole) else none

end Numeral

/-! ## The shortest decimal that reads back

A positive binary64 value is `m · 2 ^ q`. The decimals that round to it fill an interval around
it, whose ends belong to it exactly when `m` is even. Of all decimals in that interval,
`Shortest.ofBinary` takes one with the fewest digits, and of those the nearest to the value.
All comparisons are made on natural numbers.
-/

/-- The decimal `significand · 10 ^ exponent`. -/
structure Scientific where
  significand : Nat
  exponent : Int
  deriving DecidableEq, Repr

/-- What to do when two shortest decimals are equally near. -/
inductive Tie where
  | up
  | even
  deriving DecidableEq, Repr

/-- A positive binary64 value `mantissa · 2 ^ exponent`. -/
structure Binary where
  mantissa : Nat
  exponent : Int
  deriving DecidableEq, Repr

namespace Binary

/-- The leading bit of a normal mantissa, which is not stored: two to the power 52. -/
def hiddenBit : Nat := 0x10000000000000

/-- The parts of the magnitude of a finite value, read off its bits. -/
def ofFloat (x : Float) : Binary :=
  let bits : Nat := x.toBits.toNat % 0x8000000000000000
  let biased : Nat := bits / hiddenBit
  let field : Nat := bits % hiddenBit
  if biased = 0 then ⟨field, -1074⟩ else ⟨hiddenBit + field, (biased : Int) - 1075⟩

/-- The gap below is half the gap above: the mantissa is the smallest of its binade. -/
def narrowBelow (b : Binary) : Bool := b.mantissa == hiddenBit && b.exponent != -1074

/-- The lower end of the rounding interval, in quarters of `2 ^ exponent`. -/
def lowQuarters (b : Binary) : Nat := 4 * b.mantissa - if b.narrowBelow then 1 else 2

/-- The upper end of the rounding interval, in quarters of `2 ^ exponent`. -/
def highQuarters (b : Binary) : Nat := 4 * b.mantissa + 2

end Binary

/-- A power of a base, one for negative exponents. In a comparison the powers with negative
exponents stand on the other side, with the exponent turned round. -/
def raise (base : Nat) (e : Int) : Nat := Nat.pow base e.toNat

/-- Compare `a · 10 ^ p` with `b · 2 ^ q`. -/
def compareScaled (a : Nat) (p : Int) (b : Nat) (q : Int) : Ordering :=
  compare (a * raise 10 p * raise 2 (-q)) (b * raise 2 q * raise 10 (-p))

namespace Shortest

/-- The decimal `c · 10 ^ p` rounds to the value. -/
def roundsTo (b : Binary) (c : Nat) (p : Int) : Bool :=
  let low := compareScaled c p b.lowQuarters (b.exponent - 2)
  let high := compareScaled c p b.highQuarters (b.exponent - 2)
  if b.mantissa % 2 = 0 then low != .lt && high != .gt else low == .gt && high == .lt

def digitCount (n : Nat) : Nat := (Nat.toDigits 10 n).length

/-- The exponent of ten of the first digit of the value. -/
def leadingExponent (b : Binary) : Int :=
  let estimate : Int :=
    (digitCount (b.mantissa * raise 2 b.exponent) : Int) - digitCount (raise 2 (-b.exponent))
  if compareScaled 1 estimate b.mantissa b.exponent == .gt then estimate - 1 else estimate

/-- The value counted in units of `10 ^ p`, rounded down. -/
def floorAt (b : Binary) (p : Int) : Nat :=
  (b.mantissa * raise 2 b.exponent * raise 10 (-p)) / (raise 2 (-b.exponent) * raise 10 p)

/-- The nearer of `c` and `c + 1` units of `10 ^ p`: the midpoint is compared with the value. -/
def nearer (tie : Tie) (b : Binary) (c : Nat) (p : Int) : Nat :=
  match compareScaled (2 * c + 1) p (2 * b.mantissa) b.exponent with
  | .gt => c
  | .lt => c + 1
  | .eq =>
    match tie with
    | .up => c + 1
    | .even => if c % 2 = 0 then c else c + 1

/-- The decimal on the grid of `10 ^ p` that rounds to the value, the nearer one of two. -/
def onGrid? (tie : Tie) (b : Binary) (p : Int) : Option Scientific :=
  let c := floorAt b p
  match roundsTo b c p, roundsTo b (c + 1) p with
  | true, true => some ⟨nearer tie b c p, p⟩
  | true, false => some ⟨c, p⟩
  | false, true => some ⟨c + 1, p⟩
  | false, false => none

/-- Try finer and finer grids. Seventeen digits always suffice, so the last grid answers. -/
def search (tie : Tie) (b : Binary) (p : Int) : Nat → Scientific
  | 0 => ⟨floorAt b p, p⟩
  | steps + 1 => (onGrid? tie b p).getD (search tie b (p - 1) steps)

/-- Move the zeros at the end of the significand into the exponent. -/
def normalize (s : Scientific) : Scientific :=
  if h : s.significand % 10 = 0 ∧ s.significand ≠ 0 then
    normalize ⟨s.significand / 10, s.exponent + 1⟩
  else s
termination_by s.significand
decreasing_by omega

/-- The shortest decimal that rounds to a positive value, the nearest of several. -/
def ofBinary (tie : Tie) (b : Binary) : Scientific :=
  normalize (search tie b (leadingExponent b) 17)

end Shortest

/-! ## Layouts of decimals

A layout fixes how the shortest digits of a value are set out as a numeral: which values are
written without an exponent and whether whole values keep a fraction. Two layouts are in use,
one for messages and one for documents.
-/

/-- The decisions of an output format about decimals. -/
structure Layout where
  tie : Tie
  /-- The least and the greatest exponent of the first digit written without an exponent part;
  without limits every value is. -/
  plain : Option (Int × Int)
  /-- A whole value is written with a fraction of one zero. -/
  keepsFraction : Bool

namespace Layout

/-- Messages never use an exponent and write whole values without a point. -/
def message : Layout := ⟨.up, none, false⟩

/-- Documents write `0.00001` up to 16 whole digits plainly, always with a fraction, and all
other values with an exponent. -/
def document : Layout := ⟨.even, some (-5, 15), true⟩

/-- Digits without an exponent part; the first one counts units of `10 ^ lead`. -/
def plainNumeral (keepsFraction negative : Bool) (digits : List Char) (lead : Int) : Numeral :=
  let whole := (lead + 1).toNat
  if lead < 0 then
    ⟨negative, ['0'], List.replicate (-lead - 1).toNat '0' ++ digits, none⟩
  else if whole < digits.length then ⟨negative, digits.take whole, digits.drop whole, none⟩
  else
    ⟨negative, digits ++ List.replicate (whole - digits.length) '0',
      if keepsFraction then ['0'] else [], none⟩

/-- Digits with an exponent part and one digit before the point. -/
def scientificNumeral (negative : Bool) (digits : List Char) (lead : Int) : Numeral :=
  ⟨negative, digits.take 1, digits.drop 1,
    some (decide (lead < 0), Nat.toDigits 10 lead.natAbs)⟩

def numeral (layout : Layout) (negative : Bool) (s : Scientific) : Numeral :=
  let digits := Nat.toDigits 10 s.significand
  let lead := s.exponent + digits.length - 1
  match layout.plain with
  | some (least, greatest) =>
    if least ≤ lead ∧ lead ≤ greatest then
      plainNumeral layout.keepsFraction negative digits lead
    else scientificNumeral negative digits lead
  | none => plainNumeral layout.keepsFraction negative digits lead

/-- The sign bit of a value, which also zeros have. -/
def isNegative (x : Float) : Bool := decide (0x8000000000000000 ≤ x.toBits.toNat)

/-- The numeral of a value, none for infinities and what is not a number. -/
def numeral? (layout : Layout) (x : Float) : Option Numeral :=
  if x.isFinite then
    let b := Binary.ofFloat x
    let decimal := if b.mantissa = 0 then ⟨0, 0⟩ else Shortest.ofBinary layout.tie b
    some (layout.numeral (isNegative x) decimal)
  else none

end Layout

def messageText (x : Float) : String :=
  match Layout.message.numeral? x with
  | some n => n.text
  | none => if x.isNaN then "NaN" else if Layout.isNegative x then "-inf" else "inf"

/-! ## Numerals read as binary64 values

The reader keeps a 64-bit significand: a digit that would overflow it is dropped, and from the
first dropped digit of a fraction on the rest of the fraction is dropped too. The significand is
then scaled by one power of ten, with one rounding for each of the two steps. A value too large
for binary64 is refused, one too small becomes zero.
-/

/-- A significand that fits 64 bits and the power of ten that scales it. -/
structure Scaled where
  significand : Nat
  exponent : Int
  deriving DecidableEq, Repr

namespace Scaled

/-- A significand of 64 bits can take one more digit. -/
def Fits (significand : Nat) (c : Char) : Prop :=
  10 * significand + Numeral.digitValue c ≤ 0xffffffffffffffff

instance (significand : Nat) (c : Char) : Decidable (Fits significand c) :=
  inferInstanceAs (Decidable (_ ≤ 0xffffffffffffffff))

/-- Read whole digits. From the first one that does not fit on, each only raises the exponent. -/
def readWhole (significand : Nat) : List Char → Scaled
  | [] => ⟨significand, 0⟩
  | c :: rest =>
    if Fits significand c then readWhole (10 * significand + Numeral.digitValue c) rest
    else ⟨significand, rest.length + 1⟩

/-- Read the digits after the point, up to the first one that does not fit. -/
def readFraction (s : Scaled) : List Char → Scaled
  | [] => s
  | c :: rest =>
    if Fits s.significand c then
      readFraction ⟨10 * s.significand + Numeral.digitValue c, s.exponent - 1⟩ rest
    else s

def exponentValue : Option (Bool × List Char) → Int
  | none => 0
  | some (true, digits) => -(Numeral.natOfDigits digits : Int)
  | some (false, digits) => Numeral.natOfDigits digits

/-- The significand and the power of ten of a numeral, its sign aside. -/
def ofNumeral (n : Numeral) : Scaled :=
  let digits := readFraction (readWhole 0 n.whole) n.fraction
  ⟨digits.significand, digits.exponent + exponentValue n.exponent⟩

end Scaled

/-- The largest power of ten that is a finite binary64 value. -/
def largestPower : Nat := 308

def powerOfTen (k : Nat) : Float := Float.ofScientific 1 false k

/-- Divide by ten to the power `k`, in steps of the largest finite power. -/
def scaleDown (x : Float) (k : Nat) : Float :=
  if k ≤ largestPower then x / powerOfTen k
  else if x == 0 then x
  else scaleDown (x / powerOfTen largestPower) (k - largestPower)
termination_by k
decreasing_by simp only [largestPower] at *; omega

/-- Multiply by ten to the power `k`; the product has to stay finite. -/
def scaleUp? (x : Float) (k : Nat) : Option Float :=
  if k ≤ largestPower then
    let product := x * powerOfTen k
    if product.isInf then none else some product
  else if x == 0 then some x
  else none

/-- The binary64 value a numeral is read as, unless it is too large. -/
def Numeral.toFloat? (n : Numeral) : Option Float :=
  let scaled := Scaled.ofNumeral n
  let significand := Float.ofNat scaled.significand
  let magnitude? :=
    if 0 ≤ scaled.exponent then scaleUp? significand scaled.exponent.toNat
    else some (scaleDown significand (-scaled.exponent).toNat)
  magnitude?.map fun x => if n.negative then -x else x

end BurstEnergy.Decimal
