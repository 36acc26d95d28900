import WhereClause.Operand

/-! A rule: one comparison of a field. -/
namespace WhereClause

/-- A comparison of one field with the values of an operand. -/
structure Rule where
  field : String
  operator : Operator
  operand : Operand
deriving BEq

end WhereClause
