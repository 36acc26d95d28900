/-! Decimal numbers of any size, and how they are written without an exponent. -/
namespace WhereClause

/-- The number `digits * 10 ^ exponent`. -/
structure Decimal where
  digits : Nat
  exponent : Int
deriving DecidableEq

namespace Decimal

/-- Positional notation: zeros fill the places between the digits and the point, an integral
number has no point, and a number below one has a zero before it. -/
def positional (d : Decimal) : String :=
  let written := Nat.toDigits 10 d.digits
  let places := (-d.exponent).toNat
  if places = 0 then
    String.ofList (written ++ List.replicate d.exponent.toNat '0')
  else if places < written.length then
    let whole := written.length - places
    String.ofList (written.take whole ++ '.' :: written.drop whole)
  else
    String.ofList ('0' :: '.' :: (List.replicate (places - written.length) '0' ++ written))

end Decimal

end WhereClause
