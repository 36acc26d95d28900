/-! Comparison of texts without regard to letter case. -/
namespace WhereClause.Text

/-- The characters of a text, with its letters in lower case. Only ASCII letters have a case here. -/
def lower (text : String) : List Char :=
  text.toList.map Char.toLower

end WhereClause.Text
