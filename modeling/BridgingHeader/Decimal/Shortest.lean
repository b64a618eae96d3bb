/-!
# Shortest decimals

A binary64 number is written with the fewest decimal digits that read back to it. All real numbers
between two bounds round to a given number, and a decimal reads back to it if it lies between them.
For each number of digits only the two decimals next to the number need to be looked at.
-/

namespace BridgingHeader.Decimal

/-- The number `significand * 2 ^ exponent`. -/
structure Binary where
  significand : Nat
  exponent : Int
  deriving DecidableEq, Repr

/-- The number `digits * 10 ^ exponent`. -/
structure Scientific where
  digits : Nat
  exponent : Int
  deriving DecidableEq, Repr

/-- A quotient of natural numbers. -/
structure Ratio where
  numerator : Nat
  denominator : Nat

/-- The order of quotients with positive denominators. -/
def Ratio.le (r s : Ratio) : Bool := r.numerator * s.denominator ≤ s.numerator * r.denominator

/-- The quotient `n * base ^ exponent`. -/
def Ratio.scaled (n base : Nat) (exponent : Int) : Ratio :=
  if 0 ≤ exponent then ⟨n * base.pow exponent.toNat, 1⟩ else ⟨n, base.pow (-exponent).toNat⟩

/-- The weight of the leading digit of a normal significand, which the bits do not show. -/
def hiddenBit : Nat := Nat.pow 2 52

/-- The magnitude of a finite binary64 number, from its bits. -/
def Binary.ofBits (bits : UInt64) : Binary :=
  let fraction : Nat := bits.toNat % hiddenBit
  let biased : Nat := bits.toNat / hiddenBit % 2048
  if biased = 0 then ⟨fraction, -1074⟩ else ⟨hiddenBit + fraction, (biased : Int) - 1075⟩

/-- The numbers that round to a binary number lie between these two. The lower gap is half as wide
below a power of two, except among the smallest numbers. -/
def Binary.bounds (b : Binary) : Ratio × Ratio :=
  let lowerGap := if b.significand = hiddenBit ∧ b.exponent > -1074 then 1 else 2
  (.scaled (4 * b.significand - lowerGap) 2 (b.exponent - 2),
    .scaled (4 * b.significand + 2) 2 (b.exponent - 2))

/-- A decimal reads back to a binary number if it lies between the bounds. A number halfway between
two binary ones rounds to the even one. -/
def Scientific.readsBack (d : Scientific) (b : Binary) : Bool :=
  let (low, high) := b.bounds
  let r := Ratio.scaled d.digits 10 d.exponent
  low.le r && r.le high && (b.significand % 2 = 0 || !(r.le low || high.le r))

/-- The exponent of the first digit of a positive binary64 number. -/
def Binary.magnitude (b : Binary) : Int :=
  let value := Ratio.scaled b.significand 2 b.exponent
  (((List.range 650).map fun (i : Nat) => 310 - (i : Int)).find? fun e =>
    (Ratio.scaled 1 10 e).le value).getD (-324)

/-- The two decimals next to a binary number whose last digit has an exponent. -/
def Binary.neighbours (b : Binary) (exponent : Int) : Scientific × Scientific :=
  let value := Ratio.scaled b.significand 2 b.exponent
  let unit := Ratio.scaled 1 10 exponent
  let below := value.numerator * unit.denominator / (value.denominator * unit.numerator)
  (⟨below, exponent⟩, ⟨below + 1, exponent⟩)

/-- Of the two neighbours at an exponent, the one that reads back; of two, the nearer one, and of
two equally near, the even one. -/
def Binary.nearest? (b : Binary) (exponent : Int) : Option Scientific :=
  let (below, above) := b.neighbours exponent
  match below.readsBack b, above.readsBack b with
  | true, true =>
    let value := Ratio.scaled (2 * b.significand) 2 b.exponent
    let middle := Ratio.scaled (below.digits + above.digits) 10 exponent
    if !middle.le value then some below
    else if !value.le middle then some above
    else if below.digits % 2 = 0 then some below else some above
  | true, false => some below
  | false, true => some above
  | false, false => none

/-- The same number without a zero at the end of its digits. -/
def Scientific.withoutZero (d : Scientific) : Scientific :=
  if d.digits % 10 = 0 then ⟨d.digits / 10, d.exponent + 1⟩ else d

/-- The decimal with the fewest digits that reads back to a positive binary64 number. Seventeen
digits always suffice. The upper neighbour may be the next power of ten, whose last digit is zero.
-/
def Binary.shortest (b : Binary) : Scientific :=
  (((List.range 17).findSome? fun (digits : Nat) => b.nearest? (b.magnitude - digits)).getD
    ⟨0, 0⟩).withoutZero

end BridgingHeader.Decimal
