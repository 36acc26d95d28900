import WhereClause.BuildError
import WhereClause.DeclaredType
import WhereClause.Json.Reader
import WhereClause.Tree

/-! Trees of rules in JSON documents. An object with a member `rules` is a group, and any other
object is a rule. -/
namespace WhereClause

namespace Rule

/-- The field of a rule. A member `id` stands in for a missing member `field`. -/
def readField : Option Json → Option Json → Except ReadError String
  | some (.string field), _ => .ok field
  | none, some (.string id) => .ok id
  | _, _ => .error .missingField

def readOperator : Option Json → Except ReadError Operator
  | some (.string name) =>
    match Operator.ofName? name with
    | some op => .ok op
    | none => .error (.unknownOperator name)
  | _ => .error (.unknownOperator "")

def readType : Option Json → DeclaredType
  | some (.string name) => DeclaredType.ofName name
  | _ => .inferred

/-- The value of a scalar, which the declared type must have. -/
def readValue (field : String) (type : DeclaredType) (json : Json) : Except ReadError Value :=
  match type.convert? json with
  | some value => .ok value
  | none => .error (.invalidValue field type.description)

/-- The operand of a rule. The operators on lists also take a single value without brackets. -/
def readOperand (field : String) (op : Operator) (type : DeclaredType) :
    Option Json → Except ReadError Operand
  | none | some .null => .ok .none
  | some (.array items) => return .list (← items.mapM (readValue field type))
  | some json => do
    let value ← readValue field type json
    return if op = .inList ∨ op = .notInList then .list [value] else .single value

/-- The rule that the members of an object give. -/
def ofMembers (members : List (String × Json)) : Except ReadError Rule := do
  let field ← readField (Json.member? members "field") (Json.member? members "id")
  let op ← readOperator (Json.member? members "operator")
  let type := readType (Json.member? members "type")
  let operand ← readOperand field op type (Json.member? members "value")
  return ⟨field, op, operand⟩

end Rule

namespace Tree

/-- The combinator of a group, AND unless it is given. -/
def readCombinator : Option Json → Except ReadError Combinator
  | none | some .null => .ok .and
  | some (.string name) =>
    if Text.lower name = "and".toList then .ok .and
    else if Text.lower name = "or".toList then .ok .or
    else .error (.unknownCondition name)
  | some _ => .error (.unknownCondition "")

/-- Whether a group is negated, which it is not unless it says so. -/
def readNegated : Option Json → Except ReadError Bool
  | none | some .null => .ok false
  | some (.bool negated) => .ok negated
  | some _ => .error .invalidNegation

/-- The children of a group as they stand in the document. -/
def readItems : Json → Except ReadError (List Json)
  | .array items => .ok items
  | _ => .error .expectedArray

/-- The tree of a document in which at most `levels` more groups may enclose one another. -/
def ofJsonWithin (levels : Nat) (json : Json) : Except ReadError Tree :=
  match json with
  | .object members =>
    match Json.member? members "rules" with
    | none => (Rule.ofMembers members).map rule
    | some rules =>
      match levels with
      | 0 => .error .nestingTooDeep
      | levels + 1 => do
        let combinator ← readCombinator (Json.member? members "condition")
        let negated ← readNegated (Json.member? members "not")
        let items ← readItems rules
        let children ← items.mapM (ofJsonWithin levels)
        return .group combinator negated children
  | _ => .error .expectedObject

/-- An object without a member `rules` is read as a rule at any depth. -/
theorem ofJsonWithin_rule {levels : Nat} {members : List (String × Json)}
    (h : Json.member? members "rules" = none) :
    ofJsonWithin levels (.object members) = (Rule.ofMembers members).map rule := by
  rw [ofJsonWithin.eq_def]
  dsimp only
  rw [h]

/-- No group is read beyond the last level, whatever else is wrong with it. -/
theorem ofJsonWithin_zero {members : List (String × Json)} {rules : Json}
    (h : Json.member? members "rules" = some rules) :
    ofJsonWithin 0 (.object members) = .error .nestingTooDeep := by
  rw [ofJsonWithin.eq_def]
  dsimp only
  rw [h]

/-- A group is read in the order condition, negation, rules, with one level less for its children. -/
theorem ofJsonWithin_succ {levels : Nat} {members : List (String × Json)} {rules : Json}
    (h : Json.member? members "rules" = some rules) :
    ofJsonWithin (levels + 1) (.object members) = (do
      let combinator ← readCombinator (Json.member? members "condition")
      let negated ← readNegated (Json.member? members "not")
      let items ← readItems rules
      let children ← items.mapM (ofJsonWithin levels)
      return .group combinator negated children) := by
  rw [ofJsonWithin.eq_def]
  dsimp only
  rw [h]

def ofJson (json : Json) : Except ReadError Tree :=
  ofJsonWithin maxNesting json

/-- The tree of a text, which `read?` reads as JSON. -/
def ofText (text : String) (read? : String → Option Json := Json.ofText?) : Except ReadError Tree :=
  match read? text with
  | some json => ofJson json
  | none => .error .invalidJson

/-- The tree of a text in UTF-8. -/
def ofBytes (bytes : ByteArray) (read? : String → Option Json := Json.ofText?) :
    Except ReadError Tree :=
  match String.fromUTF8? bytes with
  | some text => ofText text read?
  | none => .error .invalidJson

end Tree

end WhereClause
