import WhereClause.Tree

/-! Pieces of SQL text together with the values and the identifiers written into them. -/
namespace WhereClause

/-- A condition in SQL: its text with a `?` for each value, the values in the order of their
placeholders, and the identifiers in the order in which they were written. -/
structure Fragment where
  sql : String
  params : List Value
  identifiers : List String
deriving BEq

/-- The text between the children of a group. -/
def Combinator.separator : Combinator → String
  | and => " AND "
  | or => " OR "

namespace Fragment

def empty : Fragment :=
  ⟨"", [], []⟩

/-- Writes an identifier as it is, and keeps it for the screens. -/
def field (f : Fragment) (name : String) : Fragment :=
  { f with sql := f.sql ++ name, identifiers := f.identifiers ++ [name] }

def keyword (f : Fragment) (text : String) : Fragment :=
  { f with sql := f.sql ++ text }

/-- Writes a placeholder and binds a value to it. -/
def bind (f : Fragment) (value : Value) : Fragment :=
  { f with sql := f.sql ++ "?", params := f.params ++ [value] }

/-- Writes a placeholder for each value, with commas between them. -/
def bindList (f : Fragment) : List Value → Fragment
  | [] => f
  | [value] => f.bind value
  | value :: rest => ((f.bind value).keyword ", ").bindList rest

def append (f g : Fragment) : Fragment :=
  ⟨f.sql ++ g.sql, f.params ++ g.params, f.identifiers ++ g.identifiers⟩

instance : Append Fragment := ⟨append⟩

/-- Fragments in order, with the text of a combinator between neighbours. -/
def join (combinator : Combinator) : List Fragment → Fragment
  | [] => empty
  | [f] => f
  | f :: rest => f.keyword combinator.separator ++ join combinator rest

def parenthesize (f : Fragment) : Fragment :=
  { f with sql := "(" ++ f.sql ++ ")" }

/-- The negated fragment, whose parentheses close off its body. -/
def negate (f : Fragment) : Fragment :=
  { f with sql := "NOT (" ++ f.sql ++ ")" }

@[simp] theorem params_bindList (f : Fragment) (values : List Value) :
    (f.bindList values).params = f.params ++ values := by
  fun_induction bindList f values with
  | case1 => exact (List.append_nil _).symm
  | case2 => rfl
  | case3 f value rest _ ih =>
    rw [ih]
    exact List.append_assoc f.params [value] rest

@[simp] theorem identifiers_bindList (f : Fragment) (values : List Value) :
    (f.bindList values).identifiers = f.identifiers := by
  fun_induction bindList f values with
  | case1 => rfl
  | case2 => rfl
  | case3 f value rest _ ih => rw [ih]; rfl

end Fragment

end WhereClause
