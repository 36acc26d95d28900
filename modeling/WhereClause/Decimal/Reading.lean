import WhereClause.Decimal

/-! Numbers read from decimal text: integers exactly, doubles to the nearest. -/
namespace WhereClause.Decimal

/-- The double nearest to a decimal, ties to even. A magnitude beyond `10 ^ 400` is infinite and
one below `10 ^ -400` is zero, whatever the digits are. -/
def toFloat (d : Decimal) : Float :=
  let magnitude := (Nat.toDigits 10 d.digits).length + d.exponent
  if d.digits = 0 ∨ magnitude < -400 then 0
  else if 400 < magnitude then Float.ofScientific 1 false 400
  else Float.ofScientific d.digits (d.exponent < 0) d.exponent.natAbs

/-- The double nearest to a decimal with a sign. Zero takes the sign too. -/
def signedFloat (negative : Bool) (d : Decimal) : Float :=
  if negative then -d.toFloat else d.toFloat

def floatOfInt (z : Int) : Float :=
  signedFloat (z < 0) ⟨z.natAbs, 0⟩

/-- The integer as a 64-bit word, if it fits. -/
def int64? (z : Int) : Option Int64 :=
  if Int64.minValue.toInt ≤ z ∧ z ≤ Int64.maxValue.toInt then some (Int64.ofInt z) else none

/-- Splits an optional sign off a text, and says whether it was a minus. -/
def splitSign : List Char → Bool × List Char
  | '-' :: rest => (true, rest)
  | '+' :: rest => (false, rest)
  | rest => (false, rest)

/-- The value of a text of one or more digits. -/
def natural? (text : List Char) : Option Nat :=
  if text ≠ [] ∧ text.all Char.isDigit then some (Nat.ofDigitChars 10 text 0) else none

theorem natural?_toDigits (n : Nat) : natural? (Nat.toDigits 10 n) = some n := by
  have digits : (Nat.toDigits 10 n).all Char.isDigit = true :=
    List.all_eq_true.2 fun _ hc => Nat.isDigit_of_mem_toDigits (by decide) (by decide) hc
  rw [natural?, if_pos ⟨Nat.toDigits_ne_nil, digits⟩,
    Nat.ofDigitChars_toDigits (by decide) (by decide)]

/-- An optional sign, then one or more digits. Leading zeros are allowed. -/
def integer? (text : List Char) : Option Int :=
  let (negative, digits) := splitSign text
  (natural? digits).map fun n => if negative then -(n : Int) else n

/-- The exponent after the digits of a double: nothing, or a mark and an integer. -/
def exponent? : List Char → Option Int
  | [] => some 0
  | mark :: rest => if mark = 'e' ∨ mark = 'E' then integer? rest else none

/-- An optional sign, digits with an optional point among or around them, and an optional exponent.
Words such as infinity are no doubles here. -/
def double? (text : List Char) : Option Float :=
  let (negative, unsigned) := splitSign text
  let (whole, rest) := unsigned.span Char.isDigit
  let (fraction, rest) := match rest with
    | '.' :: rest => rest.span Char.isDigit
    | rest => ([], rest)
  match natural? (whole ++ fraction), exponent? rest with
  | some digits, some exponent =>
    some (signedFloat negative ⟨digits, exponent - fraction.length⟩)
  | _, _ => none

end WhereClause.Decimal
