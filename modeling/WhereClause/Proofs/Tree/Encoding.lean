import WhereClause.Proofs.Tree.Height

/-! The JSON documents that stand for a tree, and what is read from them. A document may leave defaults
out, write words in any letter case and non-negative integers in either form, and add members that no
reader looks at; whatever it does, the tree comes back. -/
namespace WhereClause

/-- The scalars that stand for a value whose type is not declared. -/
inductive Value.Encodes : Value → Json → Prop where
  | bool (b : Bool) : Encodes (.bool b) (.bool b)
  | text (s : String) : Encodes (.text s) (.string s)
  | float (x : Float) : Encodes (.float x) (.number (.double x))
  | signed (i : Int64) : Encodes (.int i) (.number (.signed i))
  | unsigned {i : Int64} {n : UInt64} (h : i.toInt = n.toNat) :
    Encodes (.int i) (.number (.unsigned n))

/-- The members `value` that stand for an operand. -/
inductive Operand.Encodes : Operand → Option Json → Prop where
  | absent : Encodes .none .none
  | null : Encodes .none (some .null)
  | single {v : Value} {json : Json} (h : v.Encodes json) : Encodes (.single v) (some json)
  | list {vs : List Value} {items : List Json} (h : List.Forall₂ Value.Encodes vs items) :
    Encodes (.list vs) (some (.array items))

/-- The word for a combinator, in lower case. -/
def Combinator.name : Combinator → String
  | and => "and"
  | or => "or"

/-- The members `condition` that stand for a combinator. -/
inductive Combinator.Encodes : Combinator → Option Json → Prop where
  | absent : Encodes .and none
  | null : Encodes .and (some .null)
  | word {combinator : Combinator} {word : String} (h : Text.lower word = combinator.name.toList) :
    Encodes combinator (some (.string word))

/-- The members `not` that say whether a group is negated. -/
inductive EncodesNegated : Bool → Option Json → Prop where
  | absent : EncodesNegated false none
  | null : EncodesNegated false (some .null)
  | bool (negated : Bool) : EncodesNegated negated (some (.bool negated))

/-- The members of an object that stands for a rule. Others may be there too, an `id` for one. -/
structure Rule.Encodes (r : Rule) (members : List (String × Json)) : Prop where
  rules : Json.member? members "rules" = none
  type : Json.member? members "type" = none
  field : Json.member? members "field" = some (.string r.field)
  operator : ∃ word, Json.member? members "operator" = some (.string word) ∧
    Text.lower word = r.operator.name.toList
  value : r.operand.Encodes (Json.member? members "value")

/-- The documents that stand for a tree. Only the members named here are looked at in a group. -/
inductive Tree.Encodes : Tree → Json → Prop where
  | rule {r : Rule} {members : List (String × Json)} (h : r.Encodes members) :
    Encodes (.rule r) (.object members)
  | group {combinator : Combinator} {negated : Bool} {children : List Tree} {items : List Json}
    {members : List (String × Json)}
    (combinator_encodes : combinator.Encodes (Json.member? members "condition"))
    (negated_encodes : EncodesNegated negated (Json.member? members "not"))
    (rules : Json.member? members "rules" = some (.array items))
    (children_encode : List.Forall₂ Encodes children items) :
    Encodes (.group combinator negated children) (.object members)

theorem Value.Encodes.convert?_eq {v : Value} {json : Json} (h : v.Encodes json) :
    DeclaredType.inferred.convert? json = some v := by
  cases h with
  | bool | text | float | signed => rfl
  | @unsigned i n h =>
    have hfits : Decimal.int64? n.toNat = some i := by
      rw [← h, Decimal.int64?, if_pos ⟨i.minValue_le_toInt, i.toInt_le⟩, Int64.ofInt_toInt]
    show some (Json.Number.toValue (.unsigned n)) = _
    rw [Json.Number.toValue, hfits]

theorem Operator.lower_name (op : Operator) : Text.lower op.name = op.name.toList := by
  cases op <;> rfl

theorem Operator.ofName?_of_lower {op : Operator} {word : String}
    (h : Text.lower word = op.name.toList) : ofName? word = some op := by
  rw [← ofName?_name op, ofName?, ofName?, h, lower_name]

/-- The operand as it is read: the operators on lists take a single value for a list of one. -/
def Operand.boxed (op : Operator) : Operand → Operand
  | single v => if op = .inList ∨ op = .notInList then list [v] else single v
  | operand => operand

namespace Rule

def boxed (r : Rule) : Rule :=
  { r with operand := r.operand.boxed r.operator }

theorem readValue_of_encodes {v : Value} {json : Json} (field : String) (h : v.Encodes json) :
    readValue field .inferred json = .ok v := by
  rw [readValue, h.convert?_eq]

theorem readOperand_of_encodes {operand : Operand} {member : Option Json} (field : String)
    (op : Operator) (h : operand.Encodes member) :
    readOperand field op .inferred member = .ok (operand.boxed op) := by
  cases h with
  | absent => rfl
  | null => rfl
  | @single v json h =>
    have hnull : json ≠ .null := by rintro rfl; cases h
    have harray : ∀ items, json ≠ .array items := by rintro items rfl; cases h
    rw [readOperand, readValue_of_encodes field h]
    · rfl
    · exact hnull
    · exact harray
  | @list vs items h =>
    have hvalues : items.mapM (readValue field .inferred) = .ok vs :=
      Traversal.mapM_eq_ok_iff.mpr (h.flip.imp fun _ _ h => readValue_of_encodes field h)
    rw [readOperand, hvalues]
    rfl

theorem ofMembers_of_encodes {r : Rule} {members : List (String × Json)} (h : r.Encodes members) :
    ofMembers members = .ok r.boxed := by
  obtain ⟨word, hword, hlower⟩ := h.operator
  have hfield : readField (Json.member? members "field") (Json.member? members "id") = .ok r.field := by
    rw [h.field, readField]
  have hop : readOperator (Json.member? members "operator") = .ok r.operator := by
    rw [hword, readOperator, Operator.ofName?_of_lower hlower]
  have hoperand := readOperand_of_encodes r.field r.operator h.value
  simp only [ofMembers, hfield, hop, h.type, readType, bind, Except.bind, hoperand]
  rfl

end Rule

namespace Tree

theorem readCombinator_of_encodes {combinator : Combinator} {member : Option Json}
    (h : combinator.Encodes member) : readCombinator member = .ok combinator := by
  cases h with
  | absent => rfl
  | null => rfl
  | word h =>
    rw [readCombinator, h]
    cases combinator <;> rfl

theorem readNegated_of_encodes {negated : Bool} {member : Option Json}
    (h : EncodesNegated negated member) : readNegated member = .ok negated := by
  cases h <;> rfl

/-- What is read of a document at a level: the tree, unless its groups go deeper. -/
def readWithin (levels : Nat) (t : Tree) : Except ReadError Tree :=
  if t.height ≤ levels then .ok (t.mapRules Rule.boxed) else .error .nestingTooDeep

theorem mapM_of_encodes {levels : Nat} {children : List Tree} {items : List Json}
    (h : List.Forall₂ (fun t json => ofJsonWithin levels json = t.readWithin levels) children items) :
    items.mapM (ofJsonWithin levels) = if heightOfAll children ≤ levels
      then .ok (mapRulesOfAll Rule.boxed children) else .error .nestingTooDeep := by
  induction h with
  | nil => rw [heightOfAll, if_pos (Nat.zero_le levels)]; rfl
  | @cons t json children items ht _ ih =>
    rw [List.mapM_cons, ht, ih, readWithin, heightOfAll, mapRulesOfAll]
    by_cases hfirst : t.height ≤ levels
    · by_cases hrest : heightOfAll children ≤ levels
      · rw [if_pos hfirst, if_pos hrest, if_pos (Nat.max_le.mpr ⟨hfirst, hrest⟩)]
        rfl
      · rw [if_pos hfirst, if_neg hrest, if_neg fun h => hrest (Nat.max_le.mp h).2]
        rfl
    · rw [if_neg hfirst, if_neg fun h => hfirst (Nat.max_le.mp h).1]
      rfl

/-- A document is read at any level, and refused for nothing but the depth of its groups. -/
theorem ofJsonWithin_of_encodes {t : Tree} {json : Json} (h : t.Encodes json) (levels : Nat) :
    ofJsonWithin levels json = t.readWithin levels := by
  induction t using Tree.induction generalizing json levels with
  | rule r =>
    cases h with
    | rule h =>
      rw [ofJsonWithin_rule h.rules, Rule.ofMembers_of_encodes h, readWithin, height,
        if_pos (Nat.zero_le levels)]
      rfl
  | group combinator negated children ih =>
    cases h with
    | group hcombinator hnegated hrules hchildren =>
      have hcombinator := readCombinator_of_encodes hcombinator
      have hnegated := readNegated_of_encodes hnegated
      rw [readWithin, height]
      cases levels with
      | zero => rw [ofJsonWithin_zero hrules, if_neg (Nat.not_succ_le_zero _)]
      | succ levels =>
        have hitems := (List.forall₂_and_left _ _).mpr ⟨ih, hchildren⟩
        have hread := mapM_of_encodes (hitems.imp fun t json h => h.1 h.2 levels)
        rw [ofJsonWithin_group hrules hcombinator hnegated, hread, mapRules]
        simp only [Nat.add_le_add_iff_right]
        split <;> rfl

end Tree

def Value.toJson : Value → Json
  | bool b => .bool b
  | int i => .number (.signed i)
  | float x => .number (.double x)
  | text s => .string s

def Operand.toJson : Operand → Json
  | none => .null
  | single v => v.toJson
  | list vs => .array (vs.map Value.toJson)

def Rule.toJson (r : Rule) : Json :=
  .object [("field", .string r.field), ("operator", .string r.operator.name),
    ("value", r.operand.toJson)]

namespace Tree

mutual

/-- A document that leaves nothing out. -/
def toJson : Tree → Json
  | rule r => r.toJson
  | group combinator negated children =>
    .object [("condition", .string combinator.name), ("not", .bool negated),
      ("rules", .array (toJsonOfAll children))]

def toJsonOfAll : List Tree → List Json
  | [] => []
  | t :: rest => t.toJson :: toJsonOfAll rest

end

end Tree

theorem Value.encodes_toJson (v : Value) : v.Encodes v.toJson := by
  cases v with
  | bool b => exact .bool b
  | int i => exact .signed i
  | float x => exact .float x
  | text s => exact .text s

theorem Operand.encodes_toJson (operand : Operand) : operand.Encodes (some operand.toJson) := by
  cases operand with
  | none => exact .null
  | single v => exact .single v.encodes_toJson
  | list vs =>
    refine .list (List.forall₂_map_right_iff.mpr (List.forall₂_same.mpr ?_))
    exact fun v _ => v.encodes_toJson

namespace Tree

theorem encodes_toJson (t : Tree) : t.Encodes t.toJson := by
  induction t using Tree.induction with
  | rule r =>
    have hop := r.operator.lower_name
    exact .rule ⟨rfl, rfl, rfl, ⟨r.operator.name, rfl, hop⟩, r.operand.encodes_toJson⟩
  | group combinator negated children ih =>
    have hitems : List.Forall₂ Encodes children (toJsonOfAll children) := by
      induction children with
      | nil => exact .nil
      | cons t rest ihrest =>
        exact .cons (ih t List.mem_cons_self) (ihrest fun t ht => ih t (List.mem_cons_of_mem _ ht))
    exact .group (.word (by cases combinator <;> rfl)) (.bool negated) rfl hitems

/-- Every tree has documents that stand for it. Whichever of them is read, the tree comes back, with
single values boxed where an operator needs a list; only trees of more than 64 levels are refused. -/
theorem ofJson_of_encodes : (∀ t : Tree, t.Encodes t.toJson) ∧
    ∀ (t : Tree) (json : Json), t.Encodes json →
      (t.height ≤ 64 → ofJson json = .ok (t.mapRules Rule.boxed)) ∧
      (64 < t.height → ofJson json = .error .nestingTooDeep) := by
  refine ⟨encodes_toJson, fun t json h => ?_⟩
  have hread : ofJson json = t.readWithin 64 := ofJsonWithin_of_encodes h maxNesting
  rw [hread, readWithin]
  exact ⟨fun hlow => if_pos hlow, fun hhigh => if_neg (Nat.not_le.mpr hhigh)⟩

/-- A document with its members out of order, its words in mixed case, an integer in either form, a single
value for a list, and members that are not looked at; and groups in one another up to the limit. -/
theorem ofJson_of_encodes_loose :
    let t : Tree := .group .or true [
      .rule ⟨"a", .notBetween, .list [.int 1, .int (-2)]⟩,
      .rule ⟨"b", .inList, .single (.text "x")⟩,
      .group .and false []]
    let json : Json := .object [("type", .string "integer"), ("not", .bool true), ("rules", .array [
      .object [("id", .null), ("value", .array [.number (.unsigned 1), .number (.signed (-2))]),
        ("operator", .string "Not_Between"), ("field", .string "a")],
      .object [("condition", .bool true), ("field", .string "b"), ("operator", .string "IN"),
        ("value", .string "x")],
      .object [("field", .string "c"), ("rules", .array []), ("not", .null)]]),
      ("condition", .string "Or")]
    let nested (n : Nat) : Tree :=
      n.repeat (fun t => .group .and true [t]) (.rule ⟨"a", .isNull, .none⟩)
    t.Encodes json ∧ ofJson json = .ok (.group .or true [
      .rule ⟨"a", .notBetween, .list [.int 1, .int (-2)]⟩,
      .rule ⟨"b", .inList, .list [.text "x"]⟩,
      .group .and false []]) ∧
    ofJson (nested 64).toJson = .ok (nested 64) ∧
    ofJson (nested 65).toJson = .error .nestingTooDeep := by
  intro t json nested
  have hencodes : t.Encodes json := by
    refine .group (.word rfl) (.bool true) rfl (.cons (.rule ?_) (.cons (.rule ?_) (.cons ?_ .nil)))
    · exact ⟨rfl, rfl, rfl, ⟨_, rfl, rfl⟩, .list (.cons (.unsigned rfl) (.cons (.signed _) .nil))⟩
    · exact ⟨rfl, rfl, rfl, ⟨_, rfl, rfl⟩, .single (.text "x")⟩
    · exact .group .absent .null rfl .nil
  have hheight (n : Nat) : (nested n).height = n := by
    induction n with
    | zero => rfl
    | succ n ih =>
      rw [show nested (n + 1) = .group .and true [nested n] from rfl, height, heightOfAll, heightOfAll,
        ih, Nat.max_zero]
  refine ⟨hencodes, (ofJson_of_encodes.2 t json hencodes).1 (by decide), ?_, ?_⟩
  · exact (ofJson_of_encodes.2 _ _ (ofJson_of_encodes.1 (nested 64))).1 (Nat.le_of_eq (hheight 64))
  · exact (ofJson_of_encodes.2 _ _ (ofJson_of_encodes.1 (nested 65))).2 (Nat.le_of_eq (hheight 65).symm)

end Tree

end WhereClause
