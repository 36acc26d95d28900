import WhereClause.Policy.Violation
import WhereClause.Tree

/-! Policies: which rules a tree may hold, and how many. -/
namespace WhereClause

/-- A rule needs a field, and an operand of the shape its operator requires. -/
def Rule.check (r : Rule) : Except Violation Unit :=
  if r.field.isEmpty then .error (.emptyField r.operator)
  else if r.operator.arity.accepts r.operand.shape then .ok ()
  else .error (.operandShape r.field r.operator r.operator.arity r.operand.shape)

/-- Limits on the trees that are accepted. -/
structure Policy where
  /-- The fields that may be used; if there are none, all may. -/
  allowedFields : List String
  deniedOperators : List Operator
  /-- The greatest depth of a group. The root has depth zero. -/
  maxDepth : Nat
  maxRules : Nat
deriving DecidableEq

namespace Policy

/-- Any field and any operator, with room for trees that people write. -/
def standard : Policy where
  allowedFields := []
  deniedOperators := []
  maxDepth := 16
  maxRules := 1000

/-- The greatest limits, those of a 64-bit counter. -/
def permissive : Policy where
  allowedFields := []
  deniedOperators := []
  maxDepth := 0xFFFFFFFFFFFFFFFF
  maxRules := 0xFFFFFFFFFFFFFFFF

/-- Checks a rule: its own form, then its field, then its operator. -/
def checkRule (p : Policy) (r : Rule) : Except Violation Unit := do
  r.check
  if p.allowedFields ≠ [] ∧ r.field ∉ p.allowedFields then
    .error (.fieldNotAllowed r.field p.allowedFields)
  else if r.operator ∈ p.deniedOperators then
    .error (.operatorDenied r.operator r.field)
  else .ok ()

mutual

/-- Checks a tree at a depth, after `seen` rules to its left, and returns the rules seen then. A rule
beyond the limit is not looked at. -/
def visit (p : Policy) (depth seen : Nat) : Tree → Except Violation Nat
  | .rule r =>
    if p.maxRules < seen + 1 then .error (.tooManyRules p.maxRules)
    else (p.checkRule r).map fun _ => seen + 1
  | .group _ _ children =>
    if p.maxDepth < depth then .error (.nestingTooDeep p.maxDepth depth)
    else p.visitAll (depth + 1) seen children

/-- Checks several trees at a depth from left to right. -/
def visitAll (p : Policy) (depth seen : Nat) : List Tree → Except Violation Nat
  | [] => .ok seen
  | t :: rest => do
    let seen ← p.visit depth seen t
    p.visitAll depth seen rest

end

/-- Checks a tree, and reports the first violation from the root down and from left to right. Empty
groups are no violation. -/
def check (p : Policy) (t : Tree) : Except Violation Unit :=
  (p.visit 0 0 t).map fun _ => ()

end Policy

end WhereClause
