import WhereClause.Decimal.Reading
import WhereClause.Json

/-! The value of a number's text. Integers are exact. All else is computed in doubles, step by step,
and so may be off by a rounding from the nearest. -/
namespace WhereClause.Json

/-- The parts of a number's text: digits before and after the point, and the exponent with the sign
that is written before it. -/
structure Numeral where
  negative : Bool
  whole : List Char
  fraction : Option (List Char)
  exponent : Option (Bool × List Char)
deriving DecidableEq

namespace Numeral

/-- Appends digits to a number for as long as it fits 64 bits, and counts the digits left over. -/
def fill (n : Nat) : List Char → Nat × Nat
  | [] => (n, 0)
  | c :: rest =>
    let next := 10 * n + (c.toNat - '0'.toNat)
    if next < UInt64.size then fill next rest else (n, rest.length + 1)

/-- A double times a power of ten. Each step stays within the powers that are doubles. A product
that is infinite is refused, and a quotient may become zero. -/
def scale (x : Float) (exponent : Int) : Option Float :=
  if exponent.natAbs ≤ 308 then
    let power := Float.ofScientific 1 false exponent.natAbs
    if exponent < 0 then some (x / power)
    else if (x * power).isInf then none
    else some (x * power)
  else if x == 0 then some x
  else if 0 < exponent then none
  else scale (x / Float.ofScientific 1 false 308) (exponent + 308)
termination_by (-exponent).toNat
decreasing_by omega

/-- The exponent within the range of a 32-bit word. -/
def clamp (exponent : Int) : Int :=
  if exponent < Int32.minValue.toInt then Int32.minValue.toInt
  else if Int32.maxValue.toInt < exponent then Int32.maxValue.toInt
  else exponent

/-- The magnitude of `digits * 10 ^ places` times the written power of ten. A written exponent that
is too great leaves zero as it is, refuses any other number, and makes it zero if it is negative. -/
def magnitude? (digits : Nat) (places : Int) : Option (Bool × List Char) → Option Float
  | none => scale (Decimal.floatOfInt digits) places
  | some (negative, written) =>
    let exponent := Nat.ofDigitChars 10 written 0
    if Int32.maxValue.toInt < exponent then
      if digits ≠ 0 ∧ !negative then none else some 0
    else
      let exponent : Int := if negative then -exponent else exponent
      scale (Decimal.floatOfInt digits) (clamp (places + exponent))

/-- The number of an integer that fits 64 bits. -/
def ofNat (negative : Bool) (n : Nat) : Number :=
  if !negative then .unsigned n.toUInt64
  else match Decimal.int64? (-n) with
    | some i => .signed i
    | none => .double (-Decimal.floatOfInt n)

/-- The number that is written. Digits that do not fit 64 bits are dropped: before the point they
count in the exponent, after it they do not count at all. -/
def value? (numeral : Numeral) : Option Number :=
  let (digits, dropped) := fill 0 numeral.whole
  if dropped = 0 ∧ numeral.fraction = none ∧ numeral.exponent = none then
    some (ofNat numeral.negative digits)
  else
    let fraction := numeral.fraction.getD []
    let (digits, ignored) := fill digits fraction
    let places : Int := dropped - (fraction.length - ignored)
    (magnitude? digits places numeral.exponent).map fun x =>
      .double (if numeral.negative then -x else x)

end Numeral

end WhereClause.Json
