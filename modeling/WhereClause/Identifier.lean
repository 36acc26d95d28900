import WhereClause.Text.Word

/-! Plain identifiers: names joined by points. -/
namespace WhereClause.Identifier

/-- The longest identifier, in bytes of UTF-8. -/
def maxBytes : Nat := 128

/-- What is wrong with one name between points: the first symbol that does not belong there. -/
def segmentFault? : List Char → Option String
  | [] => some "<empty segment>"
  | first :: rest =>
    if Text.isNameStart first then (rest.find? (!Text.isWordChar ·)).map String.singleton
    else some (String.singleton first)

/-- What is wrong with an identifier, if it is not a list of names joined by points. -/
def fault? (identifier : String) : Option String :=
  if identifier.isEmpty then some "<empty>"
  else if maxBytes < identifier.utf8ByteSize then some "<too long>"
  else (identifier.toList.splitOn '.').findSome? segmentFault?

def isValid (identifier : String) : Bool :=
  (fault? identifier).isNone

end WhereClause.Identifier
