import WhereClause.Decimal

/-! The shortest decimal text of a double, found by exact arithmetic on natural numbers. -/
namespace WhereClause

/-- The magnitude `significand * 2 ^ exponent` of a finite double. -/
structure Binary where
  significand : Nat
  exponent : Int
  /-- At a power of two the neighbour below is half as far away as the neighbour above. -/
  closeBelow : Bool
deriving DecidableEq

namespace Binary

/-- The magnitude of a finite double, read off its fraction and exponent bits. -/
def ofFloat (x : Float) : Binary :=
  let bits := x.toBits.toNat
  let fraction := bits % Nat.pow 2 52
  let biased : Nat := bits / Nat.pow 2 52 % Nat.pow 2 11
  if biased = 0 then ⟨fraction, -1074, false⟩
  else ⟨Nat.pow 2 52 + fraction, biased - 1075, fraction = 0 && 1 < biased⟩

/-- The lower end of the reals that round to the number, in quarters of `2 ^ exponent`. -/
def low (b : Binary) : Nat :=
  if b.closeBelow then 4 * b.significand - 1 else 4 * b.significand - 2

/-- The upper end of the reals that round to the number, in quarters of `2 ^ exponent`. -/
def high (b : Binary) : Nat :=
  4 * b.significand + 2

/-- The step of the decimal grid `10 ^ place`, in the scale it shares with `quarter`. -/
def step (b : Binary) (place : Int) : Nat :=
  Nat.pow 10 place.toNat * Nat.pow 2 (2 - b.exponent).toNat

/-- A quarter of `2 ^ exponent`, in the scale it shares with `step`. -/
def quarter (b : Binary) (place : Int) : Nat :=
  Nat.pow 2 (b.exponent - 2).toNat * Nat.pow 10 (-place).toNat

/-- Whether `digits * 10 ^ place` rounds to the number. The two ends do so only when the
significand is even, since ties go to the even neighbour. -/
def roundsFrom (b : Binary) (place : Int) (digits : Nat) : Bool :=
  let point := digits * b.step place
  let low := b.low * b.quarter place
  let high := b.high * b.quarter place
  (low < point && point < high) ||
    (b.significand % 2 == 0 && (point == low || point == high))

/-- The point of the grid `10 ^ place` that rounds to the number: one of the two around it, the
nearer if both do, and the upper one halfway between them. -/
def onGrid? (b : Binary) (place : Int) : Option Nat :=
  let value := 4 * b.significand * b.quarter place
  let below := value / b.step place
  match b.roundsFrom place below, b.roundsFrom place (below + 1) with
  | true, true =>
    some (if 2 * value < (2 * below + 1) * b.step place then below else below + 1)
  | true, false => some below
  | false, true => some (below + 1)
  | false, false => none

/-- The first grid with a point that rounds to the number, from `10 ^ place` to finer ones. The
last grid is tried without a test. -/
def search (b : Binary) (place : Int) : Nat → Decimal
  | 0 => ⟨4 * b.significand * b.quarter place / b.step place, place⟩
  | finer + 1 =>
    match b.onGrid? place with
    | some digits => ⟨digits, place⟩
    | none => b.search (place - 1) finer

/-- The decimal with the fewest digits that rounds to a positive number, and the nearest to it of
those. The search starts above the leading digit and may go down to `10 ^ -1074`, a grid that
holds every double. -/
def shortest (b : Binary) : Decimal :=
  let whole := b.significand * Nat.pow 2 b.exponent.toNat / Nat.pow 2 (-b.exponent).toNat
  let places := (Nat.toDigits 10 whole).length
  b.search places (places + 1074)

end Binary

/-- A double in positional notation, with the fewest digits that read back as the same double.
Negative zero keeps its sign. -/
def shortestText (x : Float) : String :=
  if x.isNaN then "NaN"
  else
    let negative := x.toBits.toNat / Nat.pow 2 63 = 1
    let magnitude :=
      if x.isInf then "inf"
      else if x == 0 then "0"
      else (Binary.ofFloat x).shortest.positional
    if negative then "-" ++ magnitude else magnitude

end WhereClause
