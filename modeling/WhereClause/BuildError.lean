import WhereClause.Policy.Violation
import WhereClause.Screen.Intrusion
import WhereClause.Tree.ReadError

/-! The reasons for which no clause is built. -/
namespace WhereClause

/-- Why a clause was not built. -/
inductive BuildError where
  | unreadable (error : ReadError)
  | invalid (violation : Violation)
  | emptyGroup
  | unsupportedOperator (field : String) (operator : Operator)
  | unsupportedShape (field : String) (operator : Operator) (expected : Arity) (found : Shape)
  | intrusion (intrusion : Intrusion)
deriving DecidableEq

def BuildError.message : BuildError → String
  | unreadable error => "invalid rule JSON: " ++ error.message
  | invalid violation => "invalid rule: " ++ violation.message
  | emptyGroup => "group has no rules"
  | unsupportedOperator field operator =>
    "no translator for operator `" ++ operator.name ++ "` on field `" ++ field ++ "`"
  | unsupportedShape field operator expected found => shapeMessage field operator expected found
  | intrusion i => i.message

end WhereClause
