import WhereClause.Policy
import WhereClause.Proofs.Tree.Rendering

/-! Trees of which every rule can be written. Only a group without children can still be in the way,
at whatever depth it stands. -/
namespace WhereClause

/-- A rule is written exactly if its operator accepts its operand. -/
theorem Rule.exists_render_iff (r : Rule) :
    (∃ f, r.render = .ok f) ↔ r.operator.arity.accepts r.operand.shape = true := by
  obtain ⟨field, operator, operand⟩ := r
  cases operator with
  | equal | notEqual | less | lessOrEqual | greater | greaterOrEqual | beginsWith | notBeginsWith
  | contains | notContains | endsWith | notEndsWith | isEmpty | isNotEmpty | isNull | isNotNull =>
    cases operand <;> simp [render, Operator.form, Operator.arity, Arity.accepts, Operand.shape]
  | inList | notInList =>
    cases operand with
    | list vs =>
      cases vs <;> simp [render, Operator.form, Operator.arity, Arity.accepts, Operand.shape]
    | none | single v => simp [render, Operator.form, Operator.arity, Arity.accepts, Operand.shape]
  | between | notBetween =>
    cases operand with
    | list vs =>
      rcases vs with _ | ⟨low, _ | ⟨high, _ | ⟨third, vs⟩⟩⟩ <;>
        simp [render, Operator.form, Operator.arity, Arity.accepts, Operand.shape]
    | none | single v => simp [render, Operator.form, Operator.arity, Arity.accepts, Operand.shape]

namespace Tree

/-- Somewhere in the tree, at any depth, a group has no children. -/
inductive HasEmptyGroup : Tree → Prop where
  | here (combinator : Combinator) (negated : Bool) : HasEmptyGroup (.group combinator negated [])
  | within {combinator : Combinator} {negated : Bool} {children : List Tree} {t : Tree}
      (ht : t ∈ children) (h : HasEmptyGroup t) : HasEmptyGroup (.group combinator negated children)

variable {rs : Renderers}

theorem hasEmptyGroup_cons_iff {combinator : Combinator} {negated : Bool} {t : Tree}
    {rest : List Tree} : HasEmptyGroup (.group combinator negated (t :: rest)) ↔
      ∃ child ∈ t :: rest, child.HasEmptyGroup := by
  constructor
  · intro h
    cases h with
    | within ht h => exact ⟨_, ht, h⟩
  · rintro ⟨child, ht, h⟩
    exact .within ht h

/-- Every way to write the tree fails for want of a rule, or every way succeeds. -/
def EmptyOrWritten (rs : Renderers) (t : Tree) : Prop :=
  (t.HasEmptyGroup ∧ ∀ nested, t.renderIn rs nested = .error .emptyGroup) ∨
    ¬ t.HasEmptyGroup ∧ ∀ nested, ∃ f, t.renderIn rs nested = .ok f

theorem renderAll_emptyOrWritten {siblings : List Tree}
    (h : ∀ t ∈ siblings, t.EmptyOrWritten rs) :
    ((∃ t ∈ siblings, t.HasEmptyGroup) ∧ renderAll rs siblings = .error .emptyGroup) ∨
      (¬ ∃ t ∈ siblings, t.HasEmptyGroup) ∧ ∃ fs, renderAll rs siblings = .ok fs := by
  induction siblings with
  | nil => exact Or.inr ⟨by simp, [], rfl⟩
  | cons t rest ih =>
    have hrest := ih fun t ht => h t (List.mem_cons_of_mem _ ht)
    simp only [List.exists_mem_cons_iff, not_or]
    rw [renderAll]
    rcases h t List.mem_cons_self with ⟨he, hf⟩ | ⟨he, hf⟩
    · exact Or.inl ⟨Or.inl he, by rw [hf true]; rfl⟩
    · obtain ⟨f, hf⟩ := hf true
      rw [hf]
      rcases hrest with ⟨he', hrest⟩ | ⟨he', fs, hrest⟩
      · exact Or.inl ⟨Or.inr he', by rw [hrest]; rfl⟩
      · exact Or.inr ⟨⟨he, he'⟩, f :: fs, by rw [hrest]; rfl⟩

/-- If every rule can be written, nothing but an empty group keeps the tree from being written. -/
theorem emptyOrWritten_of_rules {t : Tree} (h : ∀ r ∈ t.rules, ∃ f, rs.render r = .ok f) :
    t.EmptyOrWritten rs := by
  induction t using Tree.induction with
  | rule r =>
    refine Or.inr ⟨(nomatch ·), fun _ => ?_⟩
    exact h r List.mem_cons_self
  | group combinator negated children ih =>
    have hchildren : ∀ t ∈ children, t.EmptyOrWritten rs := by
      intro t ht
      exact ih t ht fun r hr => h r (mem_rules_group.mpr ⟨t, ht, hr⟩)
    rcases children with _ | ⟨child, _ | ⟨second, rest⟩⟩
    · exact Or.inl ⟨.here combinator negated, fun _ => rfl⟩
    · have hiff : HasEmptyGroup (.group combinator negated [child]) ↔ child.HasEmptyGroup := by
        simp [hasEmptyGroup_cons_iff]
      rw [EmptyOrWritten, hiff]
      refine (hchildren child List.mem_cons_self).imp ?_ ?_
      · rintro ⟨he, hf⟩
        exact ⟨he, fun nested => by rw [renderIn, hf]; rfl⟩
      · rintro ⟨he, hf⟩
        refine ⟨he, fun nested => ?_⟩
        obtain ⟨f, hf⟩ := hf (nested && !negated)
        exact ⟨f.negateIf negated, by rw [renderIn, hf]; rfl⟩
    · rw [EmptyOrWritten, hasEmptyGroup_cons_iff]
      refine (renderAll_emptyOrWritten hchildren).imp ?_ ?_
      · rintro ⟨he, hf⟩
        exact ⟨he, fun nested => by rw [renderIn, hf]; rfl⟩
      · rintro ⟨he, fs, hf⟩
        exact ⟨he, fun nested => ⟨_, by rw [renderIn, hf]; rfl⟩⟩

end Tree

end WhereClause
