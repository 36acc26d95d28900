import WhereClause.Proofs.Fragment.Trace
import WhereClause.Proofs.Identifier

/-! How the text of a rule is read: a predicate with the field, the comparison and the values of the
rule. -/
namespace WhereClause

namespace Segment

def symbols : Segment → List Char
  | text s => s.toList
  | field name => name.toList
  | value _ => ['?']

theorem toList_sql (s : Segment) : s.sql.toList = s.symbols := by
  cases s with
  | text | field => rfl
  | value v => exact (by decide : "?".toList = ['?'])

end Segment

theorem Fragment.Traced.toList_sql {f : Fragment} {ss : List Segment} (h : f.Traced ss) :
    f.sql.toList = ss.flatMap Segment.symbols := by
  rw [h.sql, String.toList_join, List.flatMap_map]
  exact congrArg (fun symbols => ss.flatMap symbols) (funext Segment.toList_sql)

/-- Placeholders with commas between them are read as their values. -/
theorem Token.exists_listing {vs : List Value} (hne : vs ≠ []) : ∃ ts, Listing vs ts ∧
    ofText? (((vs.map Segment.value).intersperse (.text ", ")).flatMap Segment.symbols) vs =
      some ts := by
  induction vs with
  | nil => exact absurd rfl hne
  | cons v vs ih =>
    cases vs with
    | nil => exact ⟨_, .one v, rfl⟩
    | cons w vs =>
      obtain ⟨ts, hts, htext⟩ := ih (List.cons_ne_nil w vs)
      have hfirst : ofText? ['?'] [v] = some [value v] := rfl
      have hrest := ofText?_space.trans htext
      exact ⟨_, .cons v hts, ofText?_append_cons (c := ',') hfirst (by decide) (by decide) hrest⟩

theorem Operator.segments_eq (op : Operator) (vs : List Value) :
    ∃ text symbols more, op.form.segments vs = .text text :: more ∧ text.toList = ' ' :: symbols := by
  cases op <;> exact ⟨_, _, _, rfl, rfl⟩

theorem Operator.exists_listing (op : Operator) {negated : Bool} {vs : List Value}
    (hop : op.comparison = .among negated) (hne : vs ≠ []) :
    ∃ ts, op.comparison.Spelled vs ts ∧
      Token.ofText? ((op.form.segments vs).flatMap Segment.symbols) vs = some ts := by
  obtain ⟨ts, hts, htext⟩ := Token.exists_listing hne
  have hword : Token.ofText? [' ', 'I', 'N', ' '] [] = some [.keyword .isIn] := rfl
  have hnot : Token.ofText? [' ', 'N', 'O', 'T', ' ', 'I', 'N', ' '] [] =
      some [.keyword .not, .keyword .isIn] := rfl
  cases op with
  | inList =>
    refine ⟨_, .among false hts, ?_⟩
    have henclosed := Token.ofText?_enclosed hword htext
    simpa [Operator.form, Form.segments, Segment.symbols, notIf] using henclosed
  | notInList =>
    refine ⟨_, .among true hts, ?_⟩
    have henclosed := Token.ofText?_enclosed hnot htext
    simpa [Operator.form, Form.segments, Segment.symbols, notIf] using henclosed
  | _ => cases hop

/-- Behind the field the text of a rule spells the comparison of its operator, and a value is bound to
each of its placeholders. -/
theorem Rule.spelled_of_render {r : Rule} {f : Fragment} (h : r.render = .ok f) :
    f.params = r.predicate.values ∧ ∃ ts, r.operator.comparison.Spelled f.params ts ∧
      Token.ofText? ((r.operator.form.segments f.params).flatMap Segment.symbols) f.params =
        some ts := by
  obtain ⟨field, operator, operand⟩ := r
  cases operator with
  | equal | notEqual | less | lessOrEqual | greater | greaterOrEqual =>
    cases operand with
    | single v =>
      cases h
      exact ⟨rfl, _, .order _ v, rfl⟩
    | none | list vs => cases h
  | beginsWith | contains | endsWith | notBeginsWith | notContains | notEndsWith =>
    cases operand with
    | single v =>
      cases h
      refine ⟨?_, _, .like _ _, rfl⟩
      simp [Fragment.bind, Fragment.keyword, Fragment.field, Fragment.empty, predicate,
        Operator.bound, Operand.values]
    | none | list vs => cases h
  -- the only operators whose text has no fixed length
  | inList | notInList =>
    cases operand with
    | list vs =>
      cases vs with
      | nil => cases h
      | cons v rest =>
        have hparams : f.params = v :: rest := by
          rw [← Except.ok.inj h]
          exact Fragment.params_bindList _ _
        rw [hparams]
        exact ⟨(List.map_id _).symm, Operator.exists_listing _ rfl (List.cons_ne_nil v rest)⟩
    | none | single v => cases h
  | between | notBetween =>
    cases operand with
    | list vs =>
      rcases vs with _ | ⟨low, _ | ⟨high, _ | ⟨third, vs⟩⟩⟩
      · cases h
      · cases h
      · cases h
        exact ⟨rfl, _, .between _ low high, rfl⟩
      · cases h
    | none | single v => cases h
  | isEmpty | isNotEmpty =>
    cases operand with
    | none =>
      cases h
      exact ⟨rfl, _, .blank _, rfl⟩
    | single v | list vs => cases h
  | isNull | isNotNull =>
    cases operand with
    | none =>
      cases h
      exact ⟨rfl, _, .null _, rfl⟩
    | single v | list vs => cases h

theorem Name.mark_notMem {field : List Char} {ts : List Token} (h : Name field ts) :
    Token.mark ∉ ts := by
  induction h with
  | one word => simp
  | qualified word h ih => simp [ih]

/-- A rule whose field is a name is read as the predicate it stands for. -/
theorem Rule.exists_spelled_of_render {r : Rule} {f : Fragment} (h : r.render = .ok f)
    (hname : Name r.field.toList (Token.lex [] r.field.toList)) :
    ∃ ts, r.predicate.Spelled ts ∧ Token.ofText? f.sql.toList f.params = some ts := by
  obtain ⟨hparams, us, hus, htail⟩ := spelled_of_render h
  have hfield : Token.ofText? r.field.toList [] = some (Token.lex [] r.field.toList) :=
    Token.supply_nil hname.mark_notMem
  refine ⟨Token.lex [] r.field.toList ++ us, ?_, ?_⟩
  · have hspelled := Predicate.Spelled.mk hname hus
    rwa [String.ofList_toList, hparams] at hspelled
  · obtain ⟨text, symbols, more, hsegments, htext⟩ := r.operator.segments_eq f.params
    have hsql := (traced_of_render h).toList_sql
    rw [hsegments] at htail hsql
    simp only [List.flatMap_cons, Segment.symbols, htext, List.cons_append] at htail hsql
    rw [Token.ofText?_space] at htail
    rw [hsql]
    exact Token.ofText?_append_space hfield htail

end WhereClause
