import WhereClause.Dialect
import WhereClause.Identifier
import WhereClause.Screen.Intrusion

/-! Screens: checks of the identifiers written into a fragment. -/
namespace WhereClause

/-- A way to check identifiers. -/
inductive Screen where
  /-- Nothing from the denylist of the dialect may occur. -/
  | denylist
  /-- Every identifier is plain. -/
  | plain
deriving DecidableEq

namespace Screen

/-- What a screen objects to in one identifier. -/
def fault? : Screen → Dialect → String → Option String
  | denylist, d, identifier => d.denied? identifier
  | plain, _, identifier => Identifier.fault? identifier

/-- Fails on the first identifier that a screen objects to. -/
def check (s : Screen) (d : Dialect) (identifiers : List String) : Except Intrusion Unit :=
  match identifiers.findSome? (s.fault? d) with
  | some token => .error ⟨token⟩
  | none => .ok ()

end Screen

end WhereClause
