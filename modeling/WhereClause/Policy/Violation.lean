import WhereClause.Operand

/-! The reasons for which a rule or a tree is refused before anything is written. -/
namespace WhereClause

/-- What a tree of rules does against its policy. -/
inductive Violation where
  | emptyField (operator : Operator)
  | operandShape (field : String) (operator : Operator) (expected : Arity) (found : Shape)
  | fieldNotAllowed (field : String) (allowed : List String)
  | operatorDenied (operator : Operator) (field : String)
  | nestingTooDeep (limit depth : Nat)
  | tooManyRules (limit : Nat)
deriving DecidableEq

/-- The sentence that names an operator, its field, and the operand it should have had. -/
def shapeMessage (field : String) (operator : Operator) (expected : Arity)
    (found : Shape) : String :=
  "operator `" ++ operator.name ++ "` on field `" ++ field ++ "` expects " ++
    expected.description ++ ", got " ++ found.description

def Violation.message : Violation → String
  | emptyField operator => "rule with operator `" ++ operator.name ++ "` has an empty field"
  | operandShape field operator expected found => shapeMessage field operator expected found
  | fieldNotAllowed field allowed =>
    "field `" ++ field ++ "` is not allowed, allowed fields: " ++ ", ".intercalate allowed
  | operatorDenied operator field =>
    "operator `" ++ operator.name ++ "` is denied for field `" ++ field ++ "`"
  | nestingTooDeep limit depth =>
    "rule nesting depth " ++ depth.repr ++ " exceeds maximum " ++ limit.repr
  | tooManyRules limit => "rule tree contains too many rules (max " ++ limit.repr ++ ")"

end WhereClause
