import WhereClause.Proofs.Traversal
import WhereClause.Tree.OfJson

/-! What is reported about a document: the first defect on a walk through its groups, and of the defects
of one value the one that is looked for first. A document without a defect is a tree. -/
namespace WhereClause
open Traversal

namespace Json

/-- What stands in a group. Nothing does where the member `rules` is missing or is not an array. -/
def items : Json → List Json
  | object members =>
    match member? members "rules" with
    | some (array items) => items
    | _ => []
  | _ => []

theorem mem_of_member? {members : List (String × Json)} {name : String} {value : Json}
    (h : member? members name = some value) : (name, value) ∈ members := by
  obtain ⟨before, after, hsplit, -⟩ := List.lookup_eq_some_iff.mp h
  rw [← List.mem_reverse, hsplit]
  simp

theorem sizeOf_lt_of_mem_items {json item : Json} (h : item ∈ json.items) :
    sizeOf item < sizeOf json := by
  cases json with
  | object members =>
    rw [items] at h
    split at h
    · rename_i items hrules
      have hmembers := List.sizeOf_lt_of_mem (mem_of_member? hrules)
      have hitem := List.sizeOf_lt_of_mem h
      simp only [Prod.mk.sizeOf_spec, array.sizeOf_spec] at hmembers
      rw [object.sizeOf_spec]
      omega
    · cases h
  | null | bool | number | string | array => cases h

/-- The walk through a document, each value with the number of groups around it. A group comes before
what stands in it. -/
def visits (enclosing : Nat) (json : Json) : List (Nat × Json) :=
  (enclosing, json) :: json.items.attach.flatMap fun item => visits (enclosing + 1) item.val
termination_by json
decreasing_by exact sizeOf_lt_of_mem_items item.property

theorem visits_eq (enclosing : Nat) (json : Json) :
    json.visits enclosing = (enclosing, json) :: json.items.flatMap (visits (enclosing + 1)) := by
  rw [visits]
  congr 1
  conv_rhs => rw [← List.attach_map_subtype_val json.items, List.flatMap_map]

/-- The first that is found in a walk is found in the value itself or in the walk through an item. -/
theorem findSome?_visits {α : Type} (f : Nat × Json → Option α) (enclosing : Nat) (json : Json) :
    (json.visits enclosing).findSome? f = (f (enclosing, json)).or
      (json.items.findSome? fun item => (item.visits (enclosing + 1)).findSome? f) := by
  rw [visits_eq, List.findSome?_cons, findSome?_flatMap]
  cases f (enclosing, json) <;> rfl

/-- The text of a member that is a string. -/
def text? : Option Json → Option String
  | some (string s) => some s
  | _ => none

/-- The member is missing or null, or a word for AND or OR in any letter case. -/
def isCombinator : Option Json → Bool
  | none | some null => true
  | member => (text? member).any fun word => ["and", "or"].any fun known => Text.lower word = known.toList

/-- The member is missing or null, or a truth value. -/
def isNegation : Option Json → Bool
  | none | some null | some (bool _) => true
  | _ => false

def isArray : Json → Bool
  | array _ => true
  | _ => false

/-- The member is the name of an operator in any letter case. -/
def isOperator (member : Option Json) : Bool :=
  (text? member).any fun word => Operator.all.any fun op => Text.lower word = op.name.toList

/-- The member is missing or null, or a value of a type, or an array of such values. -/
def isOperand (type : DeclaredType) : Option Json → Bool
  | none | some null => true
  | some (array items) => items.all fun item => (type.convert? item).isSome
  | some json => (type.convert? json).isSome

/-- The error, unless a condition holds. -/
def require (condition : Bool) (error : ReadError) : Option ReadError :=
  if condition then none else some error

/-- The first defect of a group within a number of groups, what stands in it aside. -/
def groupDefect? (enclosing : Nat) (members : List (String × Json)) (rules : Json) :
    Option ReadError :=
  let condition := member? members "condition"
  (require (enclosing < 64) .nestingTooDeep).or <|
    (require (isCombinator condition) (.unknownCondition ((text? condition).getD ""))).or <|
    (require (isNegation (member? members "not")) .invalidNegation).or <|
    require rules.isArray .expectedArray

/-- The first defect of a rule. A member `id` counts if there is no member `field`. -/
def ruleDefect? (members : List (String × Json)) : Option ReadError :=
  let field := text? ((member? members "field").or (member? members "id"))
  let operator := member? members "operator"
  let type := (text? (member? members "type")).elim .inferred DeclaredType.ofName
  (require field.isSome .missingField).or <|
    (require (isOperator operator) (.unknownOperator ((text? operator).getD ""))).or <|
    require (isOperand type (member? members "value")) (.invalidValue (field.getD "") type.description)

/-- The first defect of a value, what stands in it aside. An object is a group if it has a member `rules`,
and else a rule. -/
def defect? (visit : Nat × Json) : Option ReadError :=
  match visit.2 with
  | object members =>
    match member? members "rules" with
    | some rules => groupDefect? visit.1 members rules
    | none => ruleDefect? members
  | _ => some .expectedObject

end Json

namespace Rule
open Json

theorem readField_eq (field id : Option Json) :
    readField field id = match text? (field.or id) with
      | some name => .ok name
      | none => .error .missingField := by
  cases field with
  | some json => cases json <;> rfl
  | none =>
    cases id with
    | some json => cases json <;> rfl
    | none => rfl

theorem readType_eq (member : Option Json) :
    readType member = (text? member).elim .inferred DeclaredType.ofName := by
  cases member with
  | some json => cases json <;> rfl
  | none => rfl

theorem failure?_readOperator (member : Option Json) : failure? (readOperator member) =
    require (isOperator member) (.unknownOperator ((text? member).getD "")) := by
  have hstring (word : String) : failure? (readOperator (some (.string word))) =
      require (isOperator (some (.string word))) (.unknownOperator word) := by
    have hknown : isOperator (some (.string word)) = (Operator.ofName? word).isSome := by
      rw [Operator.ofName?, List.isSome_find?]
      refine List.any_congr rfl fun op => ?_
      rw [beq_eq_decide]
      exact decide_eq_decide.mpr eq_comm
    rw [readOperator, hknown]
    cases Operator.ofName? word <;> rfl
  cases member with
  | none => rfl
  | some json =>
    cases json with
    | string word => exact hstring word
    | null | bool | number | array | object => rfl

theorem failure?_readValue (field : String) (type : DeclaredType) (json : Json) :
    failure? (readValue field type json) =
      require (type.convert? json).isSome (.invalidValue field type.description) := by
  rw [readValue]
  cases type.convert? json <;> rfl

theorem findSome?_require {α : Type} (items : List α) (condition : α → Bool) (error : ReadError) :
    (items.findSome? fun item => require (condition item) error) =
      require (items.all condition) error := by
  induction items with
  | nil => rfl
  | cons item rest ih =>
    rw [List.findSome?_cons, ih, List.all_cons]
    cases condition item <;> rfl

theorem failure?_readOperand (field : String) (op : Operator) (type : DeclaredType)
    (member : Option Json) : failure? (readOperand field op type member) =
      require (isOperand type member) (.invalidValue field type.description) := by
  have hsingle (json : Json) : failure? (do
      let value ← readValue field type json
      return if op = .inList ∨ op = .notInList then Operand.list [value] else .single value) =
        require (type.convert? json).isSome (.invalidValue field type.description) := by
    rw [← failure?_readValue]
    cases readValue field type json <;> rfl
  cases member with
  | none => rfl
  | some json =>
    cases json with
    | null => rfl
    | array items =>
      rw [isOperand, ← findSome?_require]
      simp only [← failure?_readValue]
      rw [← failure?_mapM, readOperand]
      cases items.mapM (readValue field type) <;> rfl
    | bool | number | string | object => exact hsingle _

/-- A rule is refused for its field, its operator, and its values, in this order. -/
theorem failure?_ofMembers (members : List (String × Json)) :
    failure? (ofMembers members) = ruleDefect? members := by
  rw [ofMembers, ruleDefect?, readField_eq]
  dsimp only
  cases text? ((member? members "field").or (member? members "id")) with
  | none => rfl
  | some field =>
    have hoperand (op : Operator) (_ : readOperator (member? members "operator") = .ok op) :
        failure? (do
          let operand ← readOperand field op (readType (member? members "type"))
            (member? members "value")
          return (⟨field, op, operand⟩ : Rule)) =
        require (isOperand (readType (member? members "type")) (member? members "value"))
          (.invalidValue field (readType (member? members "type")).description) := by
      rw [← failure?_readOperand field op]
      cases readOperand field op _ _ <;> rfl
    rw [← readType_eq, ← failure?_readOperator]
    exact failure?_bind (x := readOperator (member? members "operator")) hoperand

end Rule

namespace Tree
open Json

theorem failure?_readCombinator (member : Option Json) : failure? (readCombinator member) =
    require (isCombinator member) (.unknownCondition ((text? member).getD "")) := by
  have hstring (word : String) : failure? (readCombinator (some (.string word))) =
      require (isCombinator (some (.string word))) (.unknownCondition word) := by
    have hknown : isCombinator (some (.string word)) =
        (decide (Text.lower word = "and".toList) || decide (Text.lower word = "or".toList)) := by
      simp [isCombinator, text?]
    rw [readCombinator, hknown]
    by_cases hand : Text.lower word = "and".toList
    · rw [if_pos hand, decide_eq_true hand]
      rfl
    · rw [if_neg hand, decide_eq_false hand, Bool.false_or]
      by_cases hor : Text.lower word = "or".toList
      · rw [if_pos hor, decide_eq_true hor]
        rfl
      · rw [if_neg hor, decide_eq_false hor]
        rfl
  cases member with
  | none => rfl
  | some json =>
    cases json with
    | string word => exact hstring word
    | null | bool | number | array | object => rfl

theorem failure?_readNegated (member : Option Json) :
    failure? (readNegated member) = require (isNegation member) .invalidNegation := by
  cases member with
  | none => rfl
  | some json => cases json <;> rfl

theorem failure?_readItems (rules : Json) :
    failure? (readItems rules) = require rules.isArray .expectedArray := by
  cases rules <;> rfl

theorem items_of_readItems {members : List (String × Json)} {rules : Json} {items : List Json}
    (hrules : member? members "rules" = some rules) (hitems : readItems rules = .ok items) :
    (Json.object members).items = items := by
  cases rules with
  | array _ =>
    cases hitems
    rw [Json.items, hrules]
  | null | bool | number | string | object => cases hitems

/-- The groups around a value and the levels that are left for it make up the whole height. -/
theorem failure?_ofJsonWithin {levels enclosing : Nat} (hlevels : enclosing + levels = 64)
    (json : Json) :
    failure? (ofJsonWithin levels json) = (json.visits enclosing).findSome? defect? := by
  induction levels using Nat.strongRecOn generalizing enclosing json with
  | ind levels ih =>
    rw [findSome?_visits]
    cases json with
    | object members =>
      cases hrules : member? members "rules" with
      | none =>
        have hdefect : defect? (enclosing, .object members) = ruleDefect? members := by
          simp [defect?, hrules]
        have hitems : (Json.object members).items = [] := by
          simp [items, hrules]
        rw [ofJsonWithin_rule hrules, failure?_map, Rule.failure?_ofMembers, hdefect, hitems,
          List.findSome?_nil, Option.or_none]
      | some rules =>
        have hdefect : defect? (enclosing, .object members) =
            groupDefect? enclosing members rules := by
          simp [defect?, hrules]
        cases levels with
        | zero =>
          have hdeep : ¬ enclosing < 64 := by omega
          rw [ofJsonWithin_zero hrules, hdefect, groupDefect?, decide_eq_false hdeep]
          rfl
        | succ levels =>
          have hroom : enclosing < 64 := by omega
          have hbelow : enclosing + 1 + levels = 64 := by omega
          have hread (combinator : Combinator) (negated : Bool) : failure? (do
              let items ← readItems rules
              let children ← items.mapM (ofJsonWithin levels)
              return group combinator negated children) =
              (require rules.isArray .expectedArray).or ((Json.object members).items.findSome?
                fun item => (item.visits (enclosing + 1)).findSome? defect?) := by
            rw [← failure?_readItems]
            refine failure?_bind fun items hitems => ?_
            simp only [items_of_readItems hrules hitems,
              ← ih levels (Nat.lt_succ_self levels) hbelow]
            rw [← failure?_mapM]
            cases items.mapM (ofJsonWithin levels) <;> rfl
          rw [ofJsonWithin_succ hrules, hdefect, groupDefect?, decide_eq_true hroom,
            failure?_bind fun _ _ => failure?_bind fun _ _ => hread _ _, failure?_readCombinator,
            failure?_readNegated]
          simp only [Option.or_assoc]
          rfl
    | null | bool | number | string | array => simp [ofJsonWithin, failure?, defect?]

/-- A document is read exactly if nothing on the walk through it has a defect, and else the first defect
is reported. Null, arrays and objects are defects as values, whatever type is declared. -/
theorem ofJson_first_defect (json : Json) :
    (∀ e, ofJson json = .error e ↔ ∃ passed visit later, json.visits 0 = passed ++ visit :: later ∧
      (∀ other ∈ passed, defect? other = none) ∧ defect? visit = some e) ∧
    ((∃ t, ofJson json = .ok t) ↔ ∀ visit ∈ json.visits 0, defect? visit = none) ∧
    ∀ type : DeclaredType, type.convert? .null = none ∧
      (∀ items, type.convert? (.array items) = none) ∧
      ∀ members, type.convert? (.object members) = none := by
  have hfirst : failure? (ofJson json) = (json.visits 0).findSome? defect? :=
    failure?_ofJsonWithin (Nat.zero_add 64) json
  obtain ⟨herror, hok⟩ := iff_of_failure?_eq_findSome? hfirst
  refine ⟨herror, hok, fun type => ?_⟩
  cases type <;> exact ⟨rfl, fun _ => rfl, fun _ => rfl⟩

/-- After a rule that is whole stands a group with a condition that is not known, a negation that is none
and a rule without a field. The condition comes first, and the number behind the group is not looked at.
Of a list of integers the text of one is converted, and a word is a defect of the rule. -/
theorem ofJson_first_defect_crowded :
    let whole : Json := .object [("id", .string "a"), ("operator", .string "Is_Null")]
    let group (condition : String) (negated : Json) (item : Json) : Json := .object
      [("rules", .array [item]), ("not", negated), ("condition", .string condition)]
    let json : Json := .object [("rules", .array
      [whole, group "xor" (.number (.unsigned 1)) (.object []), .number (.unsigned 3)])]
    let typed (last : Json) : Json := .object [("field", .string "n"), ("operator", .string "in"),
      ("type", .string "Integer"), ("value", .array [.number (.unsigned 3), last])]
    (ofJson json = .error (.unknownCondition "xor") ∧
      ∃ passed visit later, json.visits 0 = passed ++ visit :: later ∧
        (∀ other ∈ passed, defect? other = none) ∧
        defect? visit = some (.unknownCondition "xor")) ∧
    (ofJson (group "Or" .null whole) = .ok (.group .or false [.rule ⟨"a", .isNull, .none⟩]) ∧
      ∀ visit ∈ (group "Or" .null whole).visits 0, defect? visit = none) ∧
    (ofJson (typed (.string "\t-7 ")) = .ok (.rule ⟨"n", .inList, .list [.int 3, .int (-7)]⟩) ∧
      ∀ visit ∈ (typed (.string "\t-7 ")).visits 0, defect? visit = none) ∧
    ofJson (typed (.string "seven")) = .error (.invalidValue "n" "integer") ∧
      ∃ passed visit later, (typed (.string "seven")).visits 0 = passed ++ visit :: later ∧
        (∀ other ∈ passed, defect? other = none) ∧
        defect? visit = some (.invalidValue "n" "integer") := by
  intro whole group json typed
  have hrefused : ofJson json = .error (.unknownCondition "xor") := rfl
  have hread : ofJson (group "Or" .null whole) =
      .ok (.group .or false [.rule ⟨"a", .isNull, .none⟩]) := rfl
  have hconverted : ofJson (typed (.string "\t-7 ")) =
      .ok (.rule ⟨"n", .inList, .list [.int 3, .int (-7)]⟩) := rfl
  have hword : ofJson (typed (.string "seven")) = .error (.invalidValue "n" "integer") := rfl
  exact ⟨⟨hrefused, ((ofJson_first_defect _).1 _).mp hrefused⟩,
    ⟨hread, (ofJson_first_defect _).2.1.mp ⟨_, hread⟩⟩,
    ⟨hconverted, (ofJson_first_defect _).2.1.mp ⟨_, hconverted⟩⟩,
    hword, ((ofJson_first_defect _).1 _).mp hword⟩

end Tree

end WhereClause
