import WhereClause.Proofs.Fragment.Seam
import WhereClause.Proofs.Text.Nesting

/-! Where fragments have parentheses. A rule has those of its list, if it has one; joining adds none, and
parenthesizing and negating add one pair around the whole. -/
namespace WhereClause
open Text

/-- All fixed texts of a predicate are free of parentheses, unless it is a list of values. -/
theorem Operator.form_eq_membership_or (op : Operator) :
    ((op = .inList ∨ op = .notInList) ∧
        ∃ before ∈ ["", " NOT"], op.form = .membership (before ++ " IN (")) ∨
      ¬ (op = .inList ∨ op = .notInList) ∧ ∀ text ∈ op.form.texts, IsFlat text.toList := by
  have hall : ∀ op ∈ all, ((op = .inList ∨ op = .notInList) ∧
        ∃ before ∈ ["", " NOT"], op.form = .membership (before ++ " IN (")) ∨
      ¬ (op = .inList ∨ op = .notInList) ∧ ∀ text ∈ op.form.texts, IsFlat text.toList := by decide
  exact hall op op.mem_all

theorem Segment.isFlat_value (v : Value) : IsFlat (value v).symbols := by
  change IsFlat ['?']
  decide

theorem Segment.isFlat_list (vs : List Value) :
    IsFlat (((vs.map value).intersperse (.text ", ")).flatMap symbols) := by
  induction vs with
  | nil => decide
  | cons v rest ih =>
    have hcomma : IsFlat (Segment.text ", ").symbols := by decide
    cases rest with
    | nil => simpa using isFlat_value v
    | cons w rest =>
      rw [List.map_cons, List.map_cons, List.intersperse_cons_cons, List.flatMap_cons,
        List.flatMap_cons, ← List.map_cons]
      exact (isFlat_value v).append (hcomma.append ih)

/-- A predicate has no parentheses but those of its list. -/
theorem Operator.list_or_isFlat (op : Operator) {name : List Char} (h : IsFlat name)
    (vs : List Value) :
    ((op = .inList ∨ op = .notInList) ∧ ∃ before list, IsFlat before ∧ IsFlat list ∧
        name ++ (op.form.segments vs).flatMap Segment.symbols =
          (before ++ " IN ".toList) ++ ('(' :: list ++ [')'])) ∨
      ¬ (op = .inList ∨ op = .notInList) ∧
        IsFlat (name ++ (op.form.segments vs).flatMap Segment.symbols) := by
  refine op.form_eq_membership_or.imp ?_ ?_
  · rintro ⟨hop, before, hbefore, hform⟩
    have hflat : ∀ before ∈ ["", " NOT"], IsFlat before.toList := by decide
    have htext : (before ++ " IN (").toList = before.toList ++ " IN ".toList ++ ['('] := by
      simp
    refine ⟨hop, name ++ before.toList, _, h.append (hflat before hbefore), Segment.isFlat_list vs, ?_⟩
    rw [hform, Form.segments]
    simp [Segment.symbols, List.flatMap_append, htext]
  · rintro ⟨hop, htexts⟩
    refine ⟨hop, h.append (IsFlat.flatMap fun s hs => ?_)⟩
    cases s with
    | text text => exact htexts text (Form.mem_texts_of_mem_segments hs)
    | field name => exact absurd hs (Form.field_notMem_segments _ _ _)
    | value v => exact Segment.isFlat_value v

theorem Rule.toList_sql_of_render {r : Rule} {f : Fragment} (h : r.render = .ok f) :
    f.sql.toList = r.field.toList ++
      (r.operator.form.segments r.predicate.values).flatMap Segment.symbols := by
  rw [(traced_segments_of_render h).toList_sql, segments, List.flatMap_cons]
  rfl

namespace Fragment

theorem toList_sql_keyword_append (f g : Fragment) (text : String) :
    (f.keyword text ++ g).sql.toList = f.sql.toList ++ (text.toList ++ g.sql.toList) := by
  show ((f.sql ++ text) ++ g.sql : String).toList = _
  rw [String.toList_append, String.toList_append, List.append_assoc]

theorem toList_sql_parenthesize (f : Fragment) :
    f.parenthesize.sql.toList = '(' :: f.sql.toList ++ [')'] := by
  simp [parenthesize]

theorem toList_sql_negate (f : Fragment) :
    f.negate.sql.toList = "NOT ".toList ++ ('(' :: f.sql.toList ++ [')']) := by
  simp [negate]

/-- Siblings have in a row what each of them has, if flat texts have it and texts put together keep it. -/
theorem join_induction {motive : List Char → Prop} (flat : ∀ a, IsFlat a → motive a)
    (append : ∀ a b, motive a → motive b → motive (a ++ b)) (combinator : Combinator)
    {fs : List Fragment} (h : ∀ f ∈ fs, motive f.sql.toList) :
    motive (join combinator fs).sql.toList := by
  fun_induction join combinator fs with
  | case1 => exact flat [] (by decide)
  | case2 f => exact h f List.mem_cons_self
  | case3 f rest _ ih =>
    have hsep : IsFlat combinator.separator.toList := by cases combinator <;> decide
    have hfirst := h f List.mem_cons_self
    have hrest := ih fun g hg => h g (List.mem_cons_of_mem f hg)
    rw [toList_sql_keyword_append]
    exact append _ _ hfirst (append _ _ (flat _ hsep) hrest)

end Fragment

end WhereClause
