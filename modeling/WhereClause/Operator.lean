import WhereClause.Text.Case

/-! The comparisons a rule can make, and how many values each of them needs. -/
namespace WhereClause

/-- A comparison between a field and the values of a rule. -/
inductive Operator where
  | equal
  | notEqual
  | inList
  | notInList
  | less
  | lessOrEqual
  | greater
  | greaterOrEqual
  | between
  | notBetween
  | beginsWith
  | notBeginsWith
  | contains
  | notContains
  | endsWith
  | notEndsWith
  | isEmpty
  | isNotEmpty
  | isNull
  | isNotNull
deriving DecidableEq

/-- What an operator requires of its operand. -/
inductive Arity where
  | none
  | one
  | two
  | atLeastOne
deriving DecidableEq

namespace Arity

/-- The requirement in words, as error messages state it. -/
def description : Arity → String
  | none => "no value"
  | one => "a single value"
  | two => "a list of two values"
  | atLeastOne => "a non-empty list"

end Arity

namespace Operator

/-- Every operator once, in the order in which they are listed to users. -/
def all : List Operator :=
  [equal, notEqual, inList, notInList, less, lessOrEqual, greater, greaterOrEqual,
    between, notBetween, beginsWith, notBeginsWith, contains, notContains,
    endsWith, notEndsWith, isEmpty, isNotEmpty, isNull, isNotNull]

theorem mem_all (op : Operator) : op ∈ all := by
  cases op <;> decide

/-- The name by which rules refer to an operator: lower-case words joined by underscores. -/
def name : Operator → String
  | equal => "equal"
  | notEqual => "not_equal"
  | inList => "in"
  | notInList => "not_in"
  | less => "less"
  | lessOrEqual => "less_or_equal"
  | greater => "greater"
  | greaterOrEqual => "greater_or_equal"
  | between => "between"
  | notBetween => "not_between"
  | beginsWith => "begins_with"
  | notBeginsWith => "not_begins_with"
  | contains => "contains"
  | notContains => "not_contains"
  | endsWith => "ends_with"
  | notEndsWith => "not_ends_with"
  | isEmpty => "is_empty"
  | isNotEmpty => "is_not_empty"
  | isNull => "is_null"
  | isNotNull => "is_not_null"

/-- The operator of a name in any letter case. -/
def ofName? (text : String) : Option Operator :=
  all.find? fun op => op.name.toList == Text.lower text

theorem ofName?_name (op : Operator) : ofName? op.name = some op := by
  cases op <;> decide +kernel

def index (op : Operator) : Nat :=
  all.idxOf op

/-- The requirement each operator places on its operand. -/
def arity : Operator → Arity
  | isEmpty | isNotEmpty | isNull | isNotNull => .none
  | between | notBetween => .two
  | inList | notInList => .atLeastOne
  | equal | notEqual | less | lessOrEqual | greater | greaterOrEqual
  | beginsWith | notBeginsWith | contains | notContains | endsWith | notEndsWith => .one

end Operator

end WhereClause
