import WhereClause.Renderers

/-! How a tree of rules is written, with parentheses only where its groups need them. -/
namespace WhereClause

def Fragment.negateIf (negated : Bool) (f : Fragment) : Fragment :=
  if negated then f.negate else f

def Fragment.parenthesizeIf (wrapped : Bool) (f : Fragment) : Fragment :=
  if wrapped then f.parenthesize else f

namespace Tree

mutual

/-- Writes a tree that stands among siblings, if `nested`, or alone. A lone child takes the place of
its group. A negation closes off its body, so it needs no parentheses of its own. -/
def renderIn (rs : Renderers) (nested : Bool) : Tree → Except BuildError Fragment
  | rule r => rs.render r
  | group _ _ [] => .error .emptyGroup
  | group _ negated [child] =>
    (child.renderIn rs (nested && !negated)).map (Fragment.negateIf negated)
  | group combinator negated (first :: second :: rest) => do
    let parts ← renderAll rs (first :: second :: rest)
    let joined := Fragment.join combinator parts
    return (joined.parenthesizeIf (nested && !negated)).negateIf negated

def renderAll (rs : Renderers) : List Tree → Except BuildError (List Fragment)
  | [] => .ok []
  | t :: rest => do
    let f ← t.renderIn rs true
    let rest ← renderAll rs rest
    return f :: rest

end

/-- Siblings are written from left to right, up to the first that fails. -/
theorem renderAll_eq_mapM (rs : Renderers) (siblings : List Tree) :
    renderAll rs siblings = siblings.mapM (renderIn rs true) := by
  induction siblings with
  | nil => rfl
  | cons t rest ih => rw [renderAll, List.mapM_cons, ih]

def render (rs : Renderers) (t : Tree) : Except BuildError Fragment :=
  t.renderIn rs false

end Tree

end WhereClause
