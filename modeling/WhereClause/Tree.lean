import WhereClause.Rule

/-! Trees of rules: comparisons joined by AND and OR, with negation. -/
namespace WhereClause

/-- How the children of a group are joined. -/
inductive Combinator where
  | and
  | or
deriving DecidableEq

/-- A rule, or a group of trees that may be negated. -/
inductive Tree where
  | rule (rule : Rule)
  | group (combinator : Combinator) (negated : Bool) (children : List Tree)

namespace Tree

/-- Negates a group once more, so that a second time undoes the first. A rule stays as it is. -/
def negate : Tree → Tree
  | rule r => rule r
  | group combinator negated children => group combinator (!negated) children

mutual

/-- The rules of a tree, from left to right. -/
def rules : Tree → List Rule
  | rule r => [r]
  | group _ _ children => rulesOfAll children

def rulesOfAll : List Tree → List Rule
  | [] => []
  | t :: rest => t.rules ++ rulesOfAll rest

end

def ruleCount (t : Tree) : Nat :=
  t.rules.length

mutual

/-- Equality of trees. Values are compared as values are. -/
def beq : Tree → Tree → Bool
  | rule r, rule r' => r == r'
  | group combinator negated children, group combinator' negated' children' =>
    combinator == combinator' && negated == negated' && beqAll children children'
  | _, _ => false

def beqAll : List Tree → List Tree → Bool
  | [], [] => true
  | t :: rest, t' :: rest' => t.beq t' && beqAll rest rest'
  | _, _ => false

end

instance : BEq Tree := ⟨beq⟩

theorem rulesOfAll_eq_flatMap (children : List Tree) :
    rulesOfAll children = children.flatMap rules := by
  induction children with
  | nil => rfl
  | cons t rest ih => simp [rulesOfAll, ih]

@[simp] theorem negate_negate (t : Tree) : t.negate.negate = t := by
  cases t <;> simp [negate]

end Tree

end WhereClause
