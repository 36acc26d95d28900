import WhereClause.Rule.Render

/-! Renderers: each writes the rules of some operators, and a list of them shares the operators
out. -/
namespace WhereClause

/-- A way to write the rules of some operators. -/
structure Renderer where
  handles : Operator → Bool
  render : Rule → Except BuildError Fragment

/-- The standard way to write the rules of one operator. -/
def Renderer.standard (op : Operator) : Renderer :=
  ⟨(op == ·), Rule.render⟩

/-- Renderers in order of precedence. -/
structure Renderers where
  entries : List Renderer

namespace Renderers

def empty : Renderers :=
  ⟨[]⟩

/-- Adds a renderer, which has the lowest precedence. -/
def add (rs : Renderers) (r : Renderer) : Renderers :=
  ⟨rs.entries ++ [r]⟩

def addStandard (rs : Renderers) : Renderers :=
  ⟨rs.entries ++ Operator.all.map Renderer.standard⟩

def standard : Renderers :=
  empty.addStandard

def size (rs : Renderers) : Nat :=
  rs.entries.length

def isEmpty (rs : Renderers) : Bool :=
  rs.entries.isEmpty

/-- Writes a rule by the first renderer that handles its operator. -/
def render (rs : Renderers) (r : Rule) : Except BuildError Fragment :=
  match rs.entries.find? (·.handles r.operator) with
  | some renderer => renderer.render r
  | none => .error (.unsupportedOperator r.field r.operator)

end Renderers

end WhereClause
