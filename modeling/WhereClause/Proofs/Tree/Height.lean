import WhereClause.Proofs.Tree.Preorder
import WhereClause.Proofs.Tree.Reading

/-! How deep the groups of a tree stand in one another. A walk tells it by the depths of the groups,
and what a document may hold is bounded by it. -/
namespace WhereClause.Tree

mutual

/-- The greatest number of groups that enclose one another. -/
def height : Tree → Nat
  | rule _ => 0
  | group _ _ children => heightOfAll children + 1

def heightOfAll : List Tree → Nat
  | [] => 0
  | t :: rest => max t.height (heightOfAll rest)

end

theorem heightOfAll_le_iff {siblings : List Tree} {n : Nat} :
    heightOfAll siblings ≤ n ↔ ∀ t ∈ siblings, t.height ≤ n := by
  induction siblings with
  | nil => simp [heightOfAll]
  | cons t rest ih => rw [heightOfAll, Nat.max_le, ih, List.forall_mem_cons]

theorem height_le_heightOfAll {siblings : List Tree} {t : Tree} (ht : t ∈ siblings) :
    t.height ≤ heightOfAll siblings :=
  heightOfAll_le_iff.mp (Nat.le_refl _) t ht

/-- The height bounds the depths that a walk comes to, from whatever depth it starts. -/
theorem height_le_iff (t : Tree) (depth n : Nat) :
    t.height ≤ n ↔ ∀ found, .group found ∈ t.nodes depth → found < depth + n := by
  induction t using Tree.induction generalizing depth n with
  | rule r => simp [height, nodes]
  | group combinator negated children ih =>
    rw [height, nodes]
    cases n with
    | zero =>
      refine ⟨fun h => absurd h (Nat.not_succ_le_zero _), fun h => ?_⟩
      exact absurd (h depth List.mem_cons_self) (Nat.lt_irrefl _)
    | succ n =>
      rw [Nat.add_le_add_iff_right, heightOfAll_le_iff, nodesOfAll_eq_flatMap]
      have hchildren : (∀ t ∈ children, t.height ≤ n) ↔
          ∀ found, .group found ∈ children.flatMap (nodes (depth + 1)) → found < depth + 1 + n := by
        simp only [List.mem_flatMap]
        constructor
        · rintro h found ⟨t, ht, hfound⟩
          exact (ih t ht (depth + 1) n).mp (h t ht) found hfound
        · intro h t ht
          exact (ih t ht (depth + 1) n).mpr fun found hfound => h found ⟨t, ht, hfound⟩
      rw [hchildren, Nat.add_assoc, Nat.add_comm 1 n]
      simp [List.mem_cons, or_imp, forall_and]

/-- No tree that is read from a document is higher than the levels it may have. -/
theorem height_le_of_ofJsonWithin {levels : Nat} {json : Json} {t : Tree}
    (h : ofJsonWithin levels json = .ok t) : t.height ≤ levels := by
  refine ofJsonWithin_induction (motive := fun levels _ t => t.height ≤ levels) ?_ ?_ h
  · intro levels members r _ _
    exact Nat.zero_le levels
  · intro levels members items combinator negated children hrules _ _ hchildren
    clear hrules
    rw [height, Nat.add_le_add_iff_right]
    induction hchildren with
    | nil => exact Nat.zero_le levels
    | cons ht _ ih => exact Nat.max_le.mpr ⟨ht, ih⟩

/-- The levels bound the tree whatever a reader makes of the text. -/
theorem height_le_of_ofText {text : String} {read? : String → Option Json} {t : Tree}
    (h : ofText text read? = .ok t) : t.height ≤ maxNesting := by
  rw [ofText] at h
  cases hjson : read? text with
  | none => rw [hjson] at h; cases h
  | some json =>
    rw [hjson] at h
    exact height_le_of_ofJsonWithin h

end WhereClause.Tree
