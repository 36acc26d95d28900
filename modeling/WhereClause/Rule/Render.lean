import WhereClause.BuildError
import WhereClause.Fragment

/-! How a single rule is written: the predicate of each operator. -/
namespace WhereClause

/-- The kind of predicate an operator is written as. -/
inductive Form where
  /-- The field, the text, and one placeholder. -/
  | comparison (text : String)
  /-- The same for a pattern: the value as text between `before` and `after`. -/
  | pattern (text before after : String)
  /-- The field, the text, and placeholders for a list up to a closing parenthesis. -/
  | membership (text : String)
  /-- The field, the text, and two placeholders joined by AND. -/
  | range (text : String)
  /-- The field and the text alone. -/
  | test (text : String)
deriving DecidableEq

/-- The predicate of each operator. Patterns match from the start, anywhere, or up to the end. -/
def Operator.form : Operator → Form
  | equal => .comparison " = "
  | notEqual => .comparison " != "
  | less => .comparison " < "
  | lessOrEqual => .comparison " <= "
  | greater => .comparison " > "
  | greaterOrEqual => .comparison " >= "
  | beginsWith => .pattern " LIKE " "" "%"
  | notBeginsWith => .pattern " NOT LIKE " "" "%"
  | contains => .pattern " LIKE " "%" "%"
  | notContains => .pattern " NOT LIKE " "%" "%"
  | endsWith => .pattern " LIKE " "%" ""
  | notEndsWith => .pattern " NOT LIKE " "%" ""
  | inList => .membership " IN ("
  | notInList => .membership " NOT IN ("
  | between => .range " BETWEEN "
  | notBetween => .range " NOT BETWEEN "
  | isEmpty => .test " = ''"
  | isNotEmpty => .test " != ''"
  | isNull => .test " IS NULL"
  | isNotNull => .test " IS NOT NULL"

/-- Writes a rule as the predicate of its operator. An operand of another shape is refused. -/
def Rule.render (r : Rule) : Except BuildError Fragment :=
  let field := Fragment.empty.field r.field
  match r.operator.form, r.operand with
  | .comparison text, .single value => .ok ((field.keyword text).bind value)
  | .pattern text before after, .single value =>
    .ok ((field.keyword text).bind (.text (before ++ value.toText ++ after)))
  | .membership text, .list (value :: rest) =>
    .ok (((field.keyword text).bindList (value :: rest)).keyword ")")
  | .range text, .list [low, high] =>
    .ok ((((field.keyword text).bind low).keyword " AND ").bind high)
  | .test text, .none => .ok (field.keyword text)
  | _, operand =>
    .error (.unsupportedShape r.field r.operator r.operator.arity operand.shape)

end WhereClause
