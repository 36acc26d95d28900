/-! The reasons for which a JSON document is not a tree of rules. -/
namespace WhereClause

/-- How many groups may enclose one another in a document. -/
def maxNesting : Nat := 64

/-- Why a document was refused. -/
inductive ReadError where
  | invalidJson
  | expectedObject
  | expectedArray
  | unknownOperator (name : String)
  | unknownCondition (name : String)
  | missingField
  | invalidValue (field expected : String)
  | invalidNegation
  | nestingTooDeep
deriving DecidableEq

def ReadError.message : ReadError → String
  | invalidJson => "invalid JSON syntax or encoding"
  | expectedObject => "expected JSON object"
  | expectedArray => "expected JSON array"
  | unknownOperator name => "unknown operator '" ++ name ++ "'"
  | unknownCondition name => "unknown condition '" ++ name ++ "'"
  | missingField => "rule has no field"
  | invalidValue field expected => "value of field '" ++ field ++ "' is not a valid " ++ expected
  | invalidNegation => "expected boolean for 'not'"
  | nestingTooDeep => "rule groups nested deeper than " ++ maxNesting.repr ++ " levels"

end WhereClause
