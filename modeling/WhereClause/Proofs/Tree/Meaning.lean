import WhereClause.Proofs.Tree.Spelling

/-! What a written tree means: read as SQL it is one condition, which has the value of the tree. -/
namespace WhereClause
variable {meaning : Predicate → Truth}

theorem Condition.value_negateIf (c : Condition) (negated : Bool) :
    (c.negateIf negated).value meaning =
      if negated then (c.value meaning).not else c.value meaning := by
  cases negated <;> rfl

theorem Condition.value_parensIf (c : Condition) (wrapped : Bool) :
    (c.parensIf wrapped).value meaning = c.value meaning := by
  cases wrapped <;> rfl

theorem Combinator.value_condition (combinator : Combinator) (c d : Condition) :
    (combinator.condition c d).value meaning =
      combinator.combine (c.value meaning) (d.value meaning) := by
  cases combinator <;> rfl

/-- A chain has the combined value of the trees whose conditions it joins. -/
theorem Combinator.value_chain (combinator : Combinator) {children : List Tree} {c : Condition}
    {cs : List Condition}
    (h : List.Forall₂ (fun t c => c.value meaning = t.value meaning) children (c :: cs)) :
    (combinator.chain c cs).value meaning = Tree.combined meaning combinator children := by
  induction cs generalizing c children with
  | nil =>
    obtain ⟨t, rest, ht, hrest, rfl⟩ := List.forall₂_cons_right_iff.mp h
    rw [List.forall₂_nil_right_iff.mp hrest, Tree.combined, Tree.combined, combine_unit]
    exact ht
  | cons d cs ih =>
    obtain ⟨t, rest, ht, hrest, rfl⟩ := List.forall₂_cons_right_iff.mp h
    rw [chain, value_condition, ih hrest, ht, Tree.combined]

namespace Tree

/-- A tree has the value of the condition that it is written as. -/
theorem WrittenAs.value_eq {nested : Bool} {t : Tree} {c : Condition} (h : t.WrittenAs nested c)
    (meaning : Predicate → Truth) : c.value meaning = t.value meaning := by
  induction t using Tree.induction generalizing nested c with
  | rule r =>
    cases h
    rfl
  | group combinator negated children ih =>
    cases h with
    | lone _ _ _ hchild =>
      rw [Condition.value_negateIf, ih _ List.mem_cons_self hchild, value, combined, combined,
        Combinator.combine_unit]
    | siblings _ _ _ hall =>
      have hvalues := ((List.forall₂_and_left _ _).mpr ⟨ih, hall⟩).imp fun t c ht => ht.1 ht.2
      rw [Condition.value_negateIf, Condition.value_parensIf, combinator.value_chain hvalues, value]

end Tree

/-- The fragment is read as a condition of the level, and that has the given value. -/
def Fragment.Says (f : Fragment) (level : Level) (value : (Predicate → Truth) → Truth) : Prop :=
  ∃ ts c, Token.ofText? f.sql.toList f.params = some ts ∧ Derives level c ts ∧
    ∀ meaning, c.value meaning = value meaning

theorem Tree.says_of_renderIn {nested : Bool} {t : Tree} {f : Fragment}
    (h : t.renderIn .standard nested = .ok f)
    (hnames : ∀ r ∈ t.rules, Name r.field.toList (Token.lex [] r.field.toList)) :
    f.Says (level nested) fun m => t.value m := by
  obtain ⟨c, hc, ts, hts, hderives⟩ := exists_writtenAs_of_renderIn h hnames
  exact ⟨ts, c, hts, hderives, hc.value_eq⟩

/-- Written trees mean what the trees mean. If the screens accept every field, the text with its
values reads as one condition of SQL, and as no other, in each of the dialects. Whatever truth values
the predicates have, that condition has the value of the tree. -/
theorem Tree.reads_of_render {d : Dialect} (hd : d ∈ Dialect.known) {t : Tree} {f : Fragment}
    (h : t.render .standard = .ok f)
    (hfields : ∀ r ∈ t.rules, Screen.plain.fault? d r.field = none ∧
      Screen.denylist.fault? d r.field = none) :
    ∃ c : Condition, c.Read f.sql f.params ∧ (∀ c' : Condition, c'.Read f.sql f.params → c' = c) ∧
      ∀ meaning, c.value meaning = t.value meaning := by
  have hnames (r : Rule) (hr : r ∈ t.rules) : Name r.field.toList (Token.lex [] r.field.toList) :=
    Identifier.name_of_accepted hd (hfields r hr).1 (hfields r hr).2
  obtain ⟨ts, c, hts, hc, hv⟩ := says_of_renderIn h hnames
  have hread : c.Read f.sql f.params := ⟨ts, hts, hc⟩
  exact ⟨c, hread, fun c' hc' => hc'.unique hread, hv⟩

/-- The meaning of a negated group beside a range in a group of its own. -/
theorem Tree.reads_of_render_nested :
    let t : Tree := .group .and false [
      .group .or true [.rule ⟨"a", .equal, .single (.int 1)⟩, .rule ⟨"b", .isNull, .none⟩],
      .group .and false [.group .or false [.rule ⟨"t.c", .between, .list [.int 2, .int 3]⟩,
        .rule ⟨"d", .notInList, .list [.int 4, .int 5]⟩]]]
    let f : Fragment := ⟨"NOT (a = ? OR b IS NULL) AND (t.c BETWEEN ? AND ? OR d NOT IN (?, ?))",
      [.int 1, .int 2, .int 3, .int 4, .int 5], ["a", "b", "t.c", "d"]⟩
    Dialect.sqlite ∈ Dialect.known ∧ t.render .standard = .ok f ∧
      (∀ r ∈ t.rules, Screen.plain.fault? .sqlite r.field = none ∧
        Screen.denylist.fault? .sqlite r.field = none) ∧
      ∃ c : Condition, c.Read f.sql f.params ∧
        (∀ c' : Condition, c'.Read f.sql f.params → c' = c) ∧
        ∀ meaning, c.value meaning = t.value meaning := by
  have hsqlite : Dialect.sqlite ∈ Dialect.known := by decide
  refine ⟨hsqlite, rfl, by decide +kernel, ?_⟩
  exact Tree.reads_of_render hsqlite rfl (by decide +kernel)

end WhereClause
