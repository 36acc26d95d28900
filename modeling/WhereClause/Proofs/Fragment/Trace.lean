import WhereClause.Rule.Render

/-! Traces of fragments: the fixed texts, identifiers and placeholders that a text was written from.
Every sequence of writers leaves a trace, and so does every rule. -/
namespace WhereClause

/-- A piece of a fragment: fixed text, an identifier, or the placeholder of a value. -/
inductive Segment where
  | text (s : String)
  | field (name : String)
  | value (v : Value)

namespace Segment

def sql : Segment → String
  | text s => s
  | field name => name
  | value _ => "?"

def value? : Segment → Option Value
  | value v => some v
  | _ => none

def field? : Segment → Option String
  | field name => some name
  | _ => none

/-- Fixed text between segments leaves what is read off them as it is. -/
theorem filterMap_intersperse {α : Type} (read : Segment → Option α)
    (htext : ∀ s, read (.text s) = none) (s : String) (ss : List Segment) :
    (ss.intersperse (.text s)).filterMap read = ss.filterMap read := by
  induction ss with
  | nil => rfl
  | cons a rest ih =>
    cases rest with
    | nil => rfl
    | cons b rest =>
      rw [List.intersperse_cons_cons, List.filterMap_cons, List.filterMap_cons, htext, ih,
        ← List.filterMap_cons]

end Segment

/-- The text is that of the segments one after the other, and no value and no identifier is kept
but theirs, in the same order. -/
structure Fragment.Traced (f : Fragment) (ss : List Segment) : Prop where
  sql : f.sql = String.join (ss.map Segment.sql)
  params : f.params = ss.filterMap Segment.value?
  identifiers : f.identifiers = ss.filterMap Segment.field?

theorem Fragment.text_append_keyword (opening closing : String) (f : Fragment) :
    (⟨opening, [], []⟩ ++ f.keyword closing : Fragment) =
      { f with sql := opening ++ f.sql ++ closing } := by
  rw [String.append_assoc]
  rfl

namespace Fragment.Traced
variable {f g : Fragment} {a b : List Segment}

theorem empty : Fragment.empty.Traced [] := ⟨rfl, rfl, rfl⟩

theorem append (hf : f.Traced a) (hg : g.Traced b) : (f ++ g).Traced (a ++ b) where
  sql := by
    rw [List.map_append, String.join_append, ← hf.sql, ← hg.sql]
    rfl
  params := by
    rw [List.filterMap_append, ← hf.params, ← hg.params]
    rfl
  identifiers := by
    rw [List.filterMap_append, ← hf.identifiers, ← hg.identifiers]
    rfl

theorem text (s : String) : Traced ⟨s, [], []⟩ [.text s] where
  sql := by simp [Segment.sql]
  params := rfl
  identifiers := rfl

theorem field (hf : f.Traced a) (name : String) : (f.field name).Traced (a ++ [.field name]) where
  sql := by simp [Fragment.field, Segment.sql, hf.sql, String.join_append]
  params := by simp [Fragment.field, Segment.value?, hf.params]
  identifiers := by simp [Fragment.field, Segment.field?, hf.identifiers]

theorem keyword (hf : f.Traced a) (s : String) : (f.keyword s).Traced (a ++ [.text s]) where
  sql := by simp [Fragment.keyword, Segment.sql, hf.sql, String.join_append]
  params := by simp [Fragment.keyword, Segment.value?, hf.params]
  identifiers := by simp [Fragment.keyword, Segment.field?, hf.identifiers]

theorem bind (hf : f.Traced a) (v : Value) : (f.bind v).Traced (a ++ [.value v]) where
  sql := by simp [Fragment.bind, Segment.sql, hf.sql, String.join_append]
  params := by simp [Fragment.bind, Segment.value?, hf.params]
  identifiers := by simp [Fragment.bind, Segment.field?, hf.identifiers]

theorem bindList (hf : f.Traced a) (vs : List Value) :
    (f.bindList vs).Traced (a ++ (vs.map .value).intersperse (.text ", ")) := by
  induction vs generalizing f a with
  | nil => simpa [Fragment.bindList] using hf
  | cons v rest ih =>
    cases rest with
    | nil => exact hf.bind v
    | cons w rest =>
      have hnext := ih ((hf.bind v).keyword ", ")
      simpa [Fragment.bindList] using hnext

theorem mem_identifiers_iff (hf : f.Traced a) {name : String} :
    name ∈ f.identifiers ↔ .field name ∈ a := by
  rw [hf.identifiers, List.mem_filterMap]
  constructor
  · rintro ⟨s, hs, hname⟩
    cases s with
    | text | value => cases hname
    | field name => cases hname; exact hs
  · intro h
    exact ⟨_, h, rfl⟩

end Fragment.Traced

/-- One use of the writers of fragments. -/
inductive Call where
  | field (name : String)
  | keyword (text : String)
  | bind (v : Value)
  | bindList (vs : List Value)

namespace Call

def apply (f : Fragment) : Call → Fragment
  | field name => f.field name
  | keyword text => f.keyword text
  | bind v => f.bind v
  | bindList vs => f.bindList vs

/-- The segments that a call names. Several values are told apart by commas. -/
def segments : Call → List Segment
  | field name => [.field name]
  | keyword text => [.text text]
  | bind v => [.value v]
  | bindList vs => (vs.map .value).intersperse (.text ", ")

end Call

/-- The fragment that calls write one after the other. -/
def Fragment.written (calls : List Call) : Fragment :=
  calls.foldl Call.apply .empty

theorem Fragment.Traced.call {f : Fragment} {a : List Segment} (hf : f.Traced a) (call : Call) :
    (call.apply f).Traced (a ++ call.segments) := by
  cases call with
  | field name => exact hf.field name
  | keyword text => exact hf.keyword text
  | bind v => exact hf.bind v
  | bindList vs => exact hf.bindList vs

theorem Fragment.Traced.calls {f : Fragment} {a : List Segment} (hf : f.Traced a)
    (calls : List Call) : (calls.foldl Call.apply f).Traced (a ++ calls.flatMap Call.segments) := by
  induction calls generalizing f a with
  | nil => simpa using hf
  | cons call rest ih =>
    rw [List.foldl_cons, List.flatMap_cons, ← List.append_assoc]
    exact ih (hf.call call)

/-- The segments of a predicate after its field. -/
def Form.segments : Form → List Value → List Segment
  | .comparison text, vs | .pattern text _ _, vs | .test text, vs => .text text :: vs.map .value
  | .membership text, vs =>
    .text text :: (vs.map .value).intersperse (.text ", ") ++ [.text ")"]
  | .range text, vs => .text text :: (vs.map .value).intersperse (.text " AND ")

/-- A rule is written as its field and then the predicate of its operator. -/
theorem Rule.traced_of_render {r : Rule} {f : Fragment} (h : r.render = .ok f) :
    f.Traced (.field r.field :: r.operator.form.segments f.params) := by
  have hfield := Fragment.Traced.empty.field r.field
  simp only [render] at h
  split at h
  · rename_i text v hform hoperand
    cases h
    rw [hform]
    exact (hfield.keyword text).bind v
  · rename_i text before after v hform hoperand
    cases h
    rw [hform]
    exact (hfield.keyword text).bind _
  · rename_i text v rest hform hoperand
    cases h
    rw [hform]
    have hlist := ((hfield.keyword text).bindList (v :: rest)).keyword ")"
    simpa [Fragment.keyword, Fragment.field, Fragment.empty, Form.segments] using hlist
  · rename_i text low high hform hoperand
    cases h
    rw [hform]
    exact (((hfield.keyword text).bind low).keyword " AND ").bind high
  · rename_i text hform hoperand
    cases h
    rw [hform]
    exact hfield.keyword text
  · cases h

theorem Form.filterMap_field?_segments (form : Form) (vs : List Value) :
    (form.segments vs).filterMap Segment.field? = [] := by
  have hvalues : (vs.map Segment.value).filterMap Segment.field? = [] := by
    simp [Segment.field?]
  have hlist (s : String) :
      ((vs.map Segment.value).intersperse (.text s)).filterMap Segment.field? = [] :=
    (Segment.filterMap_intersperse _ (fun _ => rfl) s _).trans hvalues
  cases form with
  | comparison text | pattern text before after | test text => exact hvalues
  | membership text =>
    rw [segments, List.filterMap_append, List.filterMap_cons, hlist]
    rfl
  | range text => exact hlist " AND "

theorem Form.field_notMem_segments (form : Form) (vs : List Value) (name : String) :
    .field name ∉ form.segments vs := by
  intro h
  cases List.filterMap_eq_nil_iff.mp (form.filterMap_field?_segments vs) _ h

/-- A rule names its field and nothing else. -/
theorem Rule.identifiers_of_render {r : Rule} {f : Fragment} (h : r.render = .ok f) :
    f.identifiers = [r.field] := by
  rw [(traced_of_render h).identifiers, List.filterMap_cons, Form.filterMap_field?_segments]
  rfl

end WhereClause
