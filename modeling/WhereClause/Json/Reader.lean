import WhereClause.Json.Token

/-! Reading a JSON text token by token. The open arrays and objects are a list, so any nesting is
read. -/
namespace WhereClause.Json

/-- An array or object that waits for the value being read, with what it holds so far in reverse. -/
inductive Frame where
  | array (items : List Json)
  | object (members : List (String × Json)) (name : String)

/-- What may follow the tokens read so far. -/
inductive Expected where
  /-- A value. -/
  | value (frames : List Frame)
  /-- A value or the end of the array that has just begun. -/
  | firstItem (frames : List Frame)
  /-- A name or the end of the object that has just begun. -/
  | firstName (frames : List Frame)
  /-- A name, after a comma. -/
  | name (members : List (String × Json)) (frames : List Frame)
  /-- The colon after a name. -/
  | colon (members : List (String × Json)) (name : String) (frames : List Frame)
  /-- A comma or the end of the innermost frame. If there is none, the value is the whole. -/
  | next (value : Json) (frames : List Frame)

namespace Expected

/-- Reads the first token of a value. -/
def begin? (frames : List Frame) : Token → Option Expected
  | .beginArray => some (firstItem frames)
  | .beginObject => some (firstName frames)
  | .string s => some (next (.string s) frames)
  | .scalar json => some (next json frames)
  | _ => none

def step? : Expected → Token → Option Expected
  | value frames, token => begin? frames token
  | firstItem frames, .endArray => some (next (.array []) frames)
  | firstItem frames, token => begin? (.array [] :: frames) token
  | firstName frames, .endObject => some (next (.object []) frames)
  | firstName frames, .string s => some (colon [] s frames)
  | name members frames, .string s => some (colon members s frames)
  | colon members key frames, .colon => some (value (.object members key :: frames))
  | next item (.array items :: frames), .comma => some (value (.array (item :: items) :: frames))
  | next item (.array items :: frames), .endArray =>
    some (next (.array (item :: items).reverse) frames)
  | next item (.object members key :: frames), .comma =>
    some (name ((key, item) :: members) frames)
  | next item (.object members key :: frames), .endObject =>
    some (next (.object ((key, item) :: members).reverse) frames)
  | _, _ => none

/-- The value that was read, if nothing more is needed. -/
def done? : Expected → Option Json
  | next json [] => some json
  | _ => none

end Expected

def ofText? (text : String) : Option Json := do
  let tokens ← Token.ofText? text.toList
  let last ← tokens.foldlM Expected.step? (.value [])
  last.done?

end WhereClause.Json
