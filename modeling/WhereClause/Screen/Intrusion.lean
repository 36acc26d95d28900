/-! What a screen reports about an identifier. -/
namespace WhereClause

/-- The part of an identifier that could change the meaning of the text around it. Only this part
is reported, never the identifier. -/
structure Intrusion where
  token : String
deriving DecidableEq

def Intrusion.message (i : Intrusion) : String :=
  "injection detected: `" ++ i.token ++ "`"

end WhereClause
