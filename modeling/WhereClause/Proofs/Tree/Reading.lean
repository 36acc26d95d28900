import WhereClause.Proofs.Traversal
import WhereClause.Tree.OfJson

/-! What reading a document can produce: a rule from an object without a member `rules`, and a group
from one whose items are read with one level less. -/
namespace WhereClause.Tree

variable {levels : Nat} {members : List (String × Json)} {items : List Json} {rules : Json}
  {combinator : Combinator} {negated : Bool}

theorem readItems_eq_ok_iff : readItems rules = .ok items ↔ rules = .array items := by
  cases rules <;> simp [readItems]

/-- Once its own members are read, a group is read as its items are. -/
theorem ofJsonWithin_group (hrules : Json.member? members "rules" = some (.array items))
    (hcombinator : readCombinator (Json.member? members "condition") = .ok combinator)
    (hnegated : readNegated (Json.member? members "not") = .ok negated) :
    ofJsonWithin (levels + 1) (.object members) =
      (items.mapM (ofJsonWithin levels)).map (group combinator negated) := by
  rw [ofJsonWithin_succ hrules, hcombinator, hnegated]
  rfl

/-- Induction over the documents that are read, with the tree that each of them gives. -/
theorem ofJsonWithin_induction {motive : Nat → Json → Tree → Prop}
    (rule : ∀ levels members r, Json.member? members "rules" = none →
      Rule.ofMembers members = .ok r → motive levels (.object members) (.rule r))
    (group : ∀ levels members items combinator negated children,
      Json.member? members "rules" = some (.array items) →
      readCombinator (Json.member? members "condition") = .ok combinator →
      readNegated (Json.member? members "not") = .ok negated →
      List.Forall₂ (motive levels) items children →
      motive (levels + 1) (.object members) (.group combinator negated children))
    {json : Json} {t : Tree} (h : ofJsonWithin levels json = .ok t) : motive levels json t := by
  induction levels using Nat.strongRecOn generalizing json t with
  | ind levels ih =>
    cases json with
    | object members =>
      cases hrules : Json.member? members "rules" with
      | none =>
        rw [ofJsonWithin_rule hrules] at h
        cases hr : Rule.ofMembers members with
        | error e => rw [hr] at h; cases h
        | ok r =>
          rw [hr] at h
          cases h
          exact rule levels members r hrules hr
      | some rules =>
        cases levels with
        | zero => rw [ofJsonWithin_zero hrules] at h; cases h
        | succ levels =>
          rw [ofJsonWithin_succ hrules] at h
          simp only [Traversal.bind_eq_ok_iff, pure, Except.pure, Except.ok.injEq, readItems_eq_ok_iff,
            Traversal.mapM_eq_ok_iff] at h
          obtain ⟨combinator, hcombinator, negated, hnegated, items, rfl, children, hchildren, rfl⟩ := h
          refine group levels members items combinator negated children hrules hcombinator hnegated ?_
          exact hchildren.imp fun json t ht => ih levels (Nat.lt_succ_self _) ht
    | null | bool | number | string | array => simp [ofJsonWithin] at h

end WhereClause.Tree
