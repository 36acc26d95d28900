import WhereClause.Tree

/-! What conditions and trees mean in the logic of three values, whatever the predicates mean. -/
namespace WhereClause

/-- The three truth values. A comparison with NULL is unknown. -/
inductive Truth where
  | no
  | unknown
  | yes
deriving DecidableEq

namespace Truth

def not : Truth → Truth
  | no => yes
  | unknown => unknown
  | yes => no

def and : Truth → Truth → Truth
  | no, _ | _, no => no
  | yes, yes => yes
  | _, _ => unknown

def or : Truth → Truth → Truth
  | yes, _ | _, yes => yes
  | no, no => no
  | _, _ => unknown

@[simp] theorem and_yes (v : Truth) : v.and yes = v := by cases v <;> rfl

@[simp] theorem or_no (v : Truth) : v.or no = v := by cases v <;> rfl

end Truth

/-- The order and equality of values. -/
inductive Order where
  | equal
  | notEqual
  | less
  | lessOrEqual
  | greater
  | greaterOrEqual
deriving DecidableEq

/-- What a predicate says about its field. All but the first have a negated form. -/
inductive Comparison where
  | order (o : Order)
  | like (negated : Bool)
  | among (negated : Bool)
  | between (negated : Bool)
  | blank (negated : Bool)
  | null (negated : Bool)
deriving DecidableEq

/-- A predicate: the field, the comparison, and the values bound to its placeholders. -/
structure Predicate where
  field : String
  comparison : Comparison
  values : List Value

/-- A condition as it is read, with the parentheses that were written. -/
inductive Condition where
  | predicate (p : Predicate)
  | parens (c : Condition)
  | not (c : Condition)
  | and (left right : Condition)
  | or (left right : Condition)

/-- The value of a condition, once every predicate has one. -/
def Condition.value (meaning : Predicate → Truth) : Condition → Truth
  | predicate p => meaning p
  | parens c => c.value meaning
  | not c => (c.value meaning).not
  | and left right => (left.value meaning).and (right.value meaning)
  | or left right => (left.value meaning).or (right.value meaning)

/-- The comparison that each operator stands for. -/
def Operator.comparison : Operator → Comparison
  | equal => .order .equal
  | notEqual => .order .notEqual
  | less => .order .less
  | lessOrEqual => .order .lessOrEqual
  | greater => .order .greater
  | greaterOrEqual => .order .greaterOrEqual
  | beginsWith | contains | endsWith => .like false
  | notBeginsWith | notContains | notEndsWith => .like true
  | inList => .among false
  | notInList => .among true
  | between => .between false
  | notBetween => .between true
  | isEmpty => .blank false
  | isNotEmpty => .blank true
  | isNull => .null false
  | isNotNull => .null true

/-- The value that a comparison is made with: for patterns, the text between the wildcards. -/
def Operator.bound : Operator → Value → Value
  | beginsWith | notBeginsWith => fun v => .text (v.toText ++ "%")
  | contains | notContains => fun v => .text ("%" ++ v.toText ++ "%")
  | endsWith | notEndsWith => fun v => .text ("%" ++ v.toText)
  | _ => id

/-- What a rule says. -/
def Rule.predicate (r : Rule) : Predicate :=
  ⟨r.field, r.operator.comparison, r.operand.values.map r.operator.bound⟩

namespace Combinator

def combine : Combinator → Truth → Truth → Truth
  | and => Truth.and
  | or => Truth.or

/-- The value of nothing combined. -/
def unit : Combinator → Truth
  | and => .yes
  | or => .no

@[simp] theorem combine_unit (combinator : Combinator) (v : Truth) :
    combinator.combine v combinator.unit = v := by
  cases combinator with
  | and => exact v.and_yes
  | or => exact v.or_no

end Combinator

namespace Tree

mutual

/-- The value of a tree, once every predicate has one: a group combines its children, and a negated
group negates that. -/
def value (meaning : Predicate → Truth) : Tree → Truth
  | rule r => meaning r.predicate
  | group combinator negated children =>
    if negated then (combined meaning combinator children).not
    else combined meaning combinator children

/-- The values of several trees combined. -/
def combined (meaning : Predicate → Truth) (combinator : Combinator) : List Tree → Truth
  | [] => combinator.unit
  | t :: rest => combinator.combine (t.value meaning) (combined meaning combinator rest)

end

end Tree

end WhereClause
