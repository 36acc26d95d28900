import WhereClause.Operator
import WhereClause.Value

/-! The values of a rule, and which operators take them. -/
namespace WhereClause

/-- What a rule compares its field with. -/
inductive Operand where
  | none
  | single (value : Value)
  | list (values : List Value)
deriving BEq

/-- How many values an operand holds, and in what form. -/
inductive Shape where
  | none
  | single
  | list (length : Nat)
deriving DecidableEq

/-- The shape in words, as error messages state it. -/
def Shape.description : Shape → String
  | none => "no value"
  | single => "a single value"
  | list length => "a list of " ++ length.repr ++ " values"

/-- Whether a requirement is met by operands of a shape. -/
def Arity.accepts : Arity → Shape → Bool
  | .none, .none => true
  | .one, .single => true
  | .two, .list length => length == 2
  | .atLeastOne, .list length => 0 < length
  | _, _ => false

namespace Operand

/-- The shape of an operand: all about it but the values themselves. -/
def shape : Operand → Shape
  | none => .none
  | single _ => .single
  | list values => .list values.length

def values : Operand → List Value
  | none => []
  | single value => [value]
  | list values => values

end Operand

end WhereClause
