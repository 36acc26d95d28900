import WhereClause.Proofs.Decimal.Integer
import WhereClause.Proofs.Tree.Encoding
import WhereClause.Proofs.Tree.FirstDefect

/-! What a declared type promises of the values that are read. Each value comes from one scalar of the
document, and whatever the scalar was, the value has the type. -/
namespace WhereClause

namespace Json

/-- The member is a word, in any letter case. -/
def IsWord (member : Option Json) (word : String) : Prop :=
  ∃ text, member = some (.string text) ∧ Text.lower text = word.toList

/-- A truth value, a number or a text. -/
inductive IsScalar : Json → Prop where
  | bool (b : Bool) : IsScalar (.bool b)
  | number (n : Json.Number) : IsScalar (.number n)
  | string (s : String) : IsScalar (.string s)

/-- What stands for the values of a rule: the items of an array, and otherwise the member itself. -/
def scalars : Option Json → List Json
  | none | some .null => []
  | some (.array items) => items
  | some json => [json]

/-- The members of a visited value that is read as a rule. -/
def ruleMembers? (visit : Nat × Json) : Option (List (String × Json)) :=
  match visit.2 with
  | .object members => if (member? members "rules").isNone then some members else none
  | _ => none

/-- The rules of a document as they stand in it, in the order of the walk. -/
def ruleObjects (json : Json) : List (List (String × Json)) :=
  (json.visits 0).filterMap ruleMembers?

end Json

/-- What a scalar gives without a declared type: the value it stands for, or a double in place of an
integer beyond 64 bits with a sign. -/
inductive Value.Keeps : Json → Value → Prop where
  | same {json : Json} {v : Value} (h : v.Encodes json) : Keeps json v
  | beyond {n : UInt64} (h : Int64.maxValue.toInt < n.toNat) :
    Keeps (.number (.unsigned n)) (.float (Decimal.floatOfInt n.toNat))

/-- What the members of an object promise of the values of its rule. -/
structure Rule.Typed (members : List (String × Json)) (r : Rule) : Prop where
  integer (h : Json.IsWord (Json.member? members "type") "integer") :
    ∀ v ∈ r.operand.values, ∃ i, v = .int i
  double (h : Json.IsWord (Json.member? members "type") "double") :
    ∀ v ∈ r.operand.values, ∃ x, v = .float x ∧ x.isFinite = true
  boolean (h : Json.IsWord (Json.member? members "type") "boolean") :
    ∀ v ∈ r.operand.values, ∃ b, v = .bool b
  text (h : ∃ word ∈ ["string", "date", "time", "datetime"],
      Json.IsWord (Json.member? members "type") word) :
    ∀ v ∈ r.operand.values, ∃ s, v = .text s
  inferred (h : ∀ word ∈ ["integer", "double", "boolean", "string", "date", "time", "datetime"],
      ¬ Json.IsWord (Json.member? members "type") word) :
    List.Forall₂ Value.Keeps (Json.scalars (Json.member? members "value")) r.operand.values
  /-- Each value is converted from its own scalar, by the declared type alone. -/
  each : List.Forall₂
    (fun json v => (readType (Json.member? members "type")).convert? json = some v)
    (Json.scalars (Json.member? members "value")) r.operand.values
  list {items : List Json} (h : Json.member? members "value" = some (.array items)) :
    ∃ vs, r.operand = .list vs ∧ vs.length = items.length
  scalar : ∀ json ∈ Json.scalars (Json.member? members "value"), json.IsScalar

namespace DeclaredType
variable {type : DeclaredType} {json : Json} {v : Value}

theorem isScalar_of_convert? (h : type.convert? json = some v) : json.IsScalar := by
  cases json with
  | bool b => exact .bool b
  | number n => exact .number n
  | string s => exact .string s
  | null | array | object => cases type <;> cases h

theorem exists_int_of_convert? (h : integer.convert? json = some v) : ∃ i, v = .int i := by
  obtain ⟨i, -, rfl⟩ := Option.map_eq_some_iff.mp h
  exact ⟨i, rfl⟩

theorem exists_float_of_convert? (h : double.convert? json = some v) :
    ∃ x, v = .float x ∧ x.isFinite = true := by
  obtain ⟨x, hx, rfl⟩ := Option.map_eq_some_iff.mp h
  exact ⟨x, rfl, (Option.filter_eq_some_iff.mp hx).2⟩

theorem exists_bool_of_convert? (h : boolean.convert? json = some v) : ∃ b, v = .bool b := by
  cases json with
  | bool b => exact ⟨b, (Option.some.inj h).symm⟩
  | number n =>
    simp only [convert?, boolean?] at h
    split_ifs at h <;> exact ⟨_, (Option.some.inj h).symm⟩
  | string s =>
    simp only [convert?, boolean?] at h
    split_ifs at h <;> exact ⟨_, (Option.some.inj h).symm⟩
  | null | array | object => cases h

theorem exists_text_of_convert? (h : text.convert? json = some v) : ∃ s, v = .text s := by
  cases json with
  | string s => exact ⟨s, (Option.some.inj h).symm⟩
  | number n => exact ⟨_, (Option.some.inj h).symm⟩
  | bool b => exact ⟨_, (Option.some.inj h).symm⟩
  | null | array | object => cases h

/-- Nothing but the integers beyond 64 bits with a sign becomes what it is not. -/
theorem keeps_of_convert? (h : inferred.convert? json = some v) : Value.Keeps json v := by
  cases json with
  | bool b => cases h; exact .same (.bool b)
  | string s => cases h; exact .same (.text s)
  | number n =>
    cases n with
    | signed i => cases h; exact .same (.signed i)
    | double x => cases h; exact .same (.float x)
    | unsigned n =>
      obtain rfl := Option.some.inj h
      rw [Json.Number.toValue]
      cases hword : Decimal.int64? n.toNat with
      | some i => exact .same (.unsigned (Decimal.int64?_eq_some_iff.mp hword))
      | none =>
        have hrange := Decimal.int64?_eq_none_iff.mp hword
        have hmin := Int64.toInt_minValue_lt_zero
        exact .beyond (by omega)
  | null | array | object => cases h

end DeclaredType

namespace Rule
variable {member : Option Json} {word : String} {members : List (String × Json)} {r : Rule}

/-- A word for a type declares it. -/
theorem readType_of_isWord {type : DeclaredType} (h : Json.IsWord member word)
    (hname : (word, type) ∈ DeclaredType.names) : readType member = type := by
  obtain ⟨text, rfl, hlower⟩ := h
  rw [readType, DeclaredType.ofName, hlower]
  have hall : ∀ known ∈ DeclaredType.names,
      DeclaredType.names.find? (fun other => other.1.toList == known.1.toList) = some known := by
    decide
  rw [hall _ hname]

theorem readType_eq_text (h : ∃ word ∈ ["string", "date", "time", "datetime"], Json.IsWord member word) :
    readType member = .text := by
  obtain ⟨word, hword, h⟩ := h
  have hall : ∀ word ∈ ["string", "date", "time", "datetime"],
      (word, DeclaredType.text) ∈ DeclaredType.names := by decide
  exact readType_of_isWord h (hall word hword)

/-- Any other member declares nothing. -/
theorem readType_eq_inferred (h : ∀ known ∈ DeclaredType.names, ¬ Json.IsWord member known.1) :
    readType member = .inferred := by
  unfold readType
  split
  · rename_i text
    have hnone : DeclaredType.names.find? (fun known => known.1.toList == Text.lower text) = none := by
      rw [List.find?_eq_none]
      intro known hknown he
      exact h known hknown ⟨text, rfl, (eq_of_beq he).symm⟩
    rw [DeclaredType.ofName, hnone]
  · rfl

theorem readValue_eq_ok_iff {field : String} {type : DeclaredType} {json : Json} {v : Value} :
    readValue field type json = .ok v ↔ type.convert? json = some v := by
  rw [readValue]
  cases type.convert? json <;> simp

/-- The values of an operand are those of the scalars, one by one, and an array gives a list. -/
theorem values_of_readOperand {field : String} {op : Operator} {type : DeclaredType}
    {value : Option Json} {operand : Operand} (h : readOperand field op type value = .ok operand) :
    List.Forall₂ (fun json v => type.convert? json = some v) (Json.scalars value) operand.values ∧
      ∀ items, value = some (.array items) → ∃ vs, operand = .list vs := by
  have hsingle {json : Json} (h : (do
      let value ← readValue field type json
      return if op = Operator.inList ∨ op = Operator.notInList then Operand.list [value]
        else .single value) = Except.ok operand) :
      List.Forall₂ (fun json v => type.convert? json = some v) [json] operand.values := by
    obtain ⟨v, hv, hoperand⟩ := Traversal.bind_eq_ok_iff.mp h
    obtain rfl := Except.ok.inj hoperand
    rw [readValue_eq_ok_iff] at hv
    split <;> exact .cons hv .nil
  cases value with
  | none => cases h; exact ⟨.nil, fun _ h => by cases h⟩
  | some json =>
    cases json with
    | null => cases h; exact ⟨.nil, fun _ h => by cases h⟩
    | array items =>
      obtain ⟨vs, hvs, hoperand⟩ := Traversal.bind_eq_ok_iff.mp h
      obtain rfl := Except.ok.inj hoperand
      refine ⟨(Traversal.mapM_eq_ok_iff.mp hvs).imp fun json v => readValue_eq_ok_iff.mp, ?_⟩
      rintro _ ⟨⟩
      exact ⟨vs, rfl⟩
    | bool | number | string | object => exact ⟨hsingle h, fun _ h => by cases h⟩

/-- What a declared type promises of every value that is converted, it promises of the rule. -/
theorem typed_of_ofMembers (hread : ofMembers members = .ok r) : r.Typed members := by
  obtain ⟨field, -, hread⟩ := Traversal.bind_eq_ok_iff.mp hread
  obtain ⟨op, -, hread⟩ := Traversal.bind_eq_ok_iff.mp hread
  obtain ⟨operand, hoperand, hrule⟩ := Traversal.bind_eq_ok_iff.mp hread
  obtain rfl := Except.ok.inj hrule
  obtain ⟨heach, hlist⟩ := values_of_readOperand hoperand
  have hvalue {type : DeclaredType} {P : Value → Prop}
      (htype : readType (Json.member? members "type") = type)
      (hconvert : ∀ {json v}, type.convert? json = some v → P v) : ∀ v ∈ operand.values, P v := by
    intro v hv
    obtain ⟨json, -, hjson⟩ := Traversal.exists_mem_of_forall₂ heach hv
    rw [htype] at hjson
    exact hconvert hjson
  exact {
    integer := fun h => hvalue (readType_of_isWord h (by decide)) DeclaredType.exists_int_of_convert?
    double := fun h => hvalue (readType_of_isWord h (by decide)) DeclaredType.exists_float_of_convert?
    boolean := fun h => hvalue (readType_of_isWord h (by decide)) DeclaredType.exists_bool_of_convert?
    text := fun h => hvalue (readType_eq_text h) DeclaredType.exists_text_of_convert?
    inferred := fun h => by
      have hnone : readType (Json.member? members "type") = .inferred := readType_eq_inferred
        fun known hknown => h known.1 (List.mem_map_of_mem (f := Prod.fst) hknown)
      rw [hnone] at heach
      exact heach.imp fun _ _ => DeclaredType.keeps_of_convert?
    each := heach
    list := fun {items} h => by
      obtain ⟨vs, rfl⟩ := hlist items h
      rw [h] at heach
      exact ⟨vs, rfl, heach.length_eq.symm⟩
    scalar := fun json hjson => by
      obtain ⟨v, -, hv⟩ := Traversal.exists_mem_of_forall₂ heach.flip hjson
      exact DeclaredType.isScalar_of_convert? hv }

end Rule

namespace Tree

/-- The rules of a tree that is read are typed by the objects they were read from, in order. -/
theorem typed_of_ofJsonWithin {levels : Nat} {json : Json} {t : Tree}
    (h : ofJsonWithin levels json = .ok t) (enclosing : Nat) :
    List.Forall₂ (fun members r => Rule.Typed members r)
      ((json.visits enclosing).filterMap Json.ruleMembers?) t.rules := by
  refine ofJsonWithin_induction (motive := fun _ json t => ∀ enclosing,
    List.Forall₂ (fun members r => Rule.Typed members r)
      ((json.visits enclosing).filterMap Json.ruleMembers?) t.rules) ?rule ?group h enclosing
  case rule =>
    intro _ members r hrules hr enclosing
    have hitems : (Json.object members).items = [] := by rw [Json.items, hrules]
    have hmembers : Json.ruleMembers? (enclosing, .object members) = some members := by
      simp [Json.ruleMembers?, hrules]
    rw [Json.visits_eq, hitems, List.flatMap_nil, List.filterMap_cons_some hmembers, rules]
    exact .cons (Rule.typed_of_ofMembers hr) .nil
  case group =>
    intro _ members items combinator negated children hrules _ _ hchildren enclosing
    have hitems : (Json.object members).items = items := by rw [Json.items, hrules]
    have hmembers : Json.ruleMembers? (enclosing, .object members) = none := by
      simp [Json.ruleMembers?, hrules]
    rw [Json.visits_eq, hitems, List.filterMap_cons_none hmembers, rules, rulesOfAll_eq_flatMap]
    clear hrules hitems
    -- The rules of each item stand side by side, and so do those of all of them.
    induction hchildren with
    | nil => exact .nil
    | cons hchild _ ih =>
      rw [List.flatMap_cons, List.flatMap_cons, List.filterMap_append]
      exact List.rel_append (hchild _) ih

/-- The rules of a document are typed by the objects that declare them, one rule for each object and in
the order of the document. A document that is one rule is typed by itself. -/
theorem typed_of_ofJson {json : Json} {t : Tree} (h : ofJson json = .ok t) :
    List.Forall₂ (fun members r => Rule.Typed members r) json.ruleObjects t.rules ∧
      ∀ members, json = .object members → Json.member? members "rules" = none →
        ∃ r, t = .rule r ∧ r.Typed members := by
  refine ⟨typed_of_ofJsonWithin h 0, ?_⟩
  rintro members rfl hrules
  rw [ofJson, ofJsonWithin_rule hrules] at h
  cases hr : Rule.ofMembers members with
  | error e => rw [hr] at h; cases h
  | ok r =>
    rw [hr] at h
    cases h
    exact ⟨r, rfl, Rule.typed_of_ofMembers hr⟩

/-- Integers in a list, one of them as a text between blanks and under a type in another letter case, and
beside it an integer beyond 64 bits with a sign that has no declared type. -/
theorem typed_of_ofJson_mixed :
    let listed := [("field", .string "a"), ("type", .string "INTEGER"), ("operator", .string "in"),
      ("value", .array [.string " -7\u3000", .number (.signed 5), .number (.unsigned 9)])]
    let beyond := [("id", .string "b"), ("operator", .string "less"),
      ("value", .number (.unsigned 9223372036854775808))]
    let json := Json.object [("rules", .array [.object listed, .object beyond])]
    let r : Rule := ⟨"a", .inList, .list [.int (-7), .int 5, .int 9]⟩
    let r' : Rule := ⟨"b", .less, .single (.float (Decimal.floatOfInt 9223372036854775808))⟩
    ofJson json = .ok (.group .and false [.rule r, .rule r']) ∧
      List.Forall₂ (fun members r => Rule.Typed members r) json.ruleObjects [r, r'] ∧
      ofJson (.object listed) = .ok (.rule r) ∧ r.Typed listed := by
  intro listed beyond json r r'
  have hgroup : ofJson json = .ok (.group .and false [.rule r, .rule r']) := rfl
  have hrule : ofJson (.object listed) = .ok (.rule r) := rfl
  obtain ⟨_, ⟨⟩, htyped⟩ := (typed_of_ofJson hrule).2 listed rfl rfl
  exact ⟨hgroup, (typed_of_ofJson hgroup).1, hrule, htyped⟩

end Tree

end WhereClause
