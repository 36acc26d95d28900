import WhereClause.Decimal.Shortest

/-! The values that are bound to placeholders. -/
namespace WhereClause

/-- A bound value. Two floats are equal as numbers: a NaN differs from itself, and the two zeros
are equal. -/
inductive Value where
  | bool (b : Bool)
  | int (i : Int64)
  | float (x : Float)
  | text (s : String)
deriving BEq

/-- The value as text, as a pattern holds it. -/
def Value.toText : Value → String
  | bool true => "true"
  | bool false => "false"
  | int i => i.toInt.repr
  | float x => shortestText x
  | text s => s

end WhereClause
