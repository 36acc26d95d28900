/-! JSON values, as a document gives them. -/
namespace WhereClause

/-- A number in the form its text was given: an integer that fits a 64-bit word, or a double. -/
inductive Json.Number where
  | unsigned (n : UInt64)
  | signed (i : Int64)
  | double (x : Float)
deriving DecidableEq

/-- A JSON value. The members of an object are in the order of the text. -/
inductive Json where
  | null
  | bool (b : Bool)
  | number (n : Json.Number)
  | string (s : String)
  | array (items : List Json)
  | object (members : List (String × Json))

/-- The member of a name. Of several with that name the last one counts. -/
def Json.member? (members : List (String × Json)) (name : String) : Option Json :=
  members.reverse.lookup name

end WhereClause
