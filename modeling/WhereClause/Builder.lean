import WhereClause.Policy
import WhereClause.Screen
import WhereClause.Tree.OfJson
import WhereClause.Tree.Render

/-! Building a clause: a tree is checked, written, and screened. -/
namespace WhereClause

/-- The text of a clause and the values for its placeholders, in order. -/
structure Clause where
  sql : String
  params : List Value
deriving BEq

/-- What a clause is built with. -/
structure Builder where
  dialect : Dialect
  policy : Policy := .permissive
  renderers : Renderers := .standard
  screens : List Screen := [.denylist]

namespace Builder

/-- Runs every screen in order over the identifiers of a fragment. -/
def screen (b : Builder) (f : Fragment) : Except Intrusion Unit :=
  b.screens.forM fun s => s.check b.dialect f.identifiers

/-- Builds the clause of a tree. The policy comes first, the screens last. -/
def build (b : Builder) (t : Tree) : Except BuildError Clause := do
  (b.policy.check t).mapError .invalid
  let f ← t.render b.renderers
  (b.screen f).mapError .intrusion
  return ⟨f.sql, f.params⟩

/-- Builds the clause of the tree of a text, which `read?` reads as JSON. -/
def buildText (b : Builder) (text : String) (read? : String → Option Json := Json.ofText?) :
    Except BuildError Clause := do
  let t ← (Tree.ofText text read?).mapError .unreadable
  b.build t

end Builder

end WhereClause
