import WhereClause.Json
import WhereClause.Decimal.Reading
import WhereClause.Text.Blank
import WhereClause.Text.Case
import WhereClause.Value

/-! The type a rule declares for its values, and how JSON values become values of it. -/
namespace WhereClause

/-- A declared type. Values without one keep the type they have in the document. -/
inductive DeclaredType where
  | integer
  | double
  | boolean
  | text
  | inferred
deriving DecidableEq

/-- The exact value of an integer that fits a signed word, and the nearest double otherwise. -/
def Json.Number.toValue : Json.Number → Value
  | signed i => .int i
  | unsigned n =>
    match Decimal.int64? n.toNat with
    | some i => .int i
    | none => .float (Decimal.floatOfInt n.toNat)
  | double x => .float x

/-- The number as an integer, if it was written as one. -/
def Json.Number.toInt? : Json.Number → Option Int
  | signed i => some i.toInt
  | unsigned n => some n.toNat
  | double _ => none

def Json.Number.toFloat : Json.Number → Float
  | signed i => Decimal.floatOfInt i.toInt
  | unsigned n => Decimal.floatOfInt n.toNat
  | double x => x

namespace DeclaredType

/-- The names of types. Dates and times are texts. -/
def names : List (String × DeclaredType) :=
  [("integer", integer), ("double", double), ("boolean", boolean), ("string", text),
    ("date", text), ("time", text), ("datetime", text)]

/-- The type of a name in any letter case. A name that is not known declares nothing. -/
def ofName (name : String) : DeclaredType :=
  match names.find? fun known => known.1.toList == Text.lower name with
  | some known => known.2
  | none => inferred

def description : DeclaredType → String
  | integer => "integer"
  | double => "double"
  | boolean => "boolean"
  | text => "string"
  | inferred => "scalar"

/-- The value of a scalar whose type is not declared. -/
def inferred? : Json → Option Value
  | .bool b => some (.bool b)
  | .number n => some n.toValue
  | .string s => some (.text s)
  | _ => none

/-- The integer that a number or the text of one between blanks stands for. -/
def readInt? : Json → Option Int
  | .number n => n.toInt?
  | .string s => Decimal.integer? (Text.trim s.toList)
  | _ => none

/-- The double nearest to a number or to the text of one between blanks. -/
def readFloat? : Json → Option Float
  | .number n => some n.toFloat
  | .string s => Decimal.double? (Text.trim s.toList)
  | _ => none

def integer? (json : Json) : Option Value :=
  ((readInt? json).bind Decimal.int64?).map .int

def double? (json : Json) : Option Value :=
  ((readFloat? json).filter Float.isFinite).map .float

/-- A truth value, also from the integers zero and one and from texts between blanks. -/
def boolean? : Json → Option Value
  | .bool b => some (.bool b)
  | .number n =>
    if n.toInt? = some 0 then some (.bool false)
    else if n.toInt? = some 1 then some (.bool true)
    else none
  | .string s =>
    let word := (Text.trim s.toList).map Char.toLower
    if word = "true".toList ∨ word = "1".toList then some (.bool true)
    else if word = "false".toList ∨ word = "0".toList then some (.bool false)
    else none
  | _ => none

/-- A text as it is, or the text of another scalar. -/
def text? : Json → Option Value
  | .string s => some (.text s)
  | .number n => some (.text n.toValue.toText)
  | .bool b => some (.text (Value.bool b).toText)
  | _ => none

/-- The value of a scalar as the type declares it. Null, arrays and objects have none. -/
def convert? : DeclaredType → Json → Option Value
  | integer => integer?
  | double => double?
  | boolean => boolean?
  | text => text?
  | inferred => inferred?

end DeclaredType

end WhereClause
