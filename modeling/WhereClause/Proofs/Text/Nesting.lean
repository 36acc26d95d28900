import Mathlib.Data.List.Infix

/-! How deep the parentheses of a text are nested. The depth is taken after each beginning of the text,
and the list of an IN may go one deeper than the text around it. -/
namespace WhereClause.Text
variable {a b p : List Char} {m n : Nat}

/-- The opening parentheses less the closing ones. -/
def surplus (a : List Char) : Int :=
  a.count '(' - a.count ')'

/-- The text has no parentheses at all. -/
def IsFlat (a : List Char) : Prop :=
  '(' ∉ a ∧ ')' ∉ a

instance (a : List Char) : Decidable (IsFlat a) :=
  inferInstanceAs (Decidable (_ ∧ _))

/-- The text breaks off within the list of an IN. -/
def EndsInList (a : List Char) : Prop :=
  ∃ before list, IsFlat list ∧ a = before ++ " IN (".toList ++ list

/-- Parentheses match, and no more than a number of them are open at once. An IN may open one more for
its list. -/
structure Nested (n : Nat) (a : List Char) : Prop where
  closed : surplus a = 0
  within : ∀ p, p <+: a → 0 ≤ surplus p ∧ (surplus p ≤ n ∨ EndsInList p ∧ surplus p ≤ n + 1)

@[simp] theorem surplus_nil : surplus [] = 0 := rfl

@[simp] theorem surplus_append (a b : List Char) : surplus (a ++ b) = surplus a + surplus b := by
  simp only [surplus, List.count_append]
  omega

@[simp] theorem surplus_cons_opening (a : List Char) : surplus ('(' :: a) = 1 + surplus a :=
  surplus_append ['('] a

@[simp] theorem surplus_enclosed (a : List Char) : surplus ('(' :: a ++ [')']) = surplus a := by
  have hclosing : surplus [')'] = -1 := rfl
  rw [surplus_append, surplus_cons_opening, hclosing]
  omega

theorem IsFlat.surplus (h : IsFlat a) : surplus a = 0 := by
  rw [Text.surplus, List.count_eq_zero.mpr h.1, List.count_eq_zero.mpr h.2]
  rfl

theorem IsFlat.of_prefix (h : IsFlat a) (hp : p <+: a) : IsFlat p :=
  ⟨fun hmem => h.1 (hp.subset hmem), fun hmem => h.2 (hp.subset hmem)⟩

theorem IsFlat.append (ha : IsFlat a) (hb : IsFlat b) : IsFlat (a ++ b) :=
  ⟨by simp [ha.1, hb.1], by simp [ha.2, hb.2]⟩

theorem IsFlat.flatMap {α : Type} {f : α → List Char} {l : List α} (h : ∀ x ∈ l, IsFlat (f x)) :
    IsFlat (l.flatMap f) := by
  simp only [IsFlat, List.mem_flatMap, not_exists, not_and]
  exact ⟨fun x hx => (h x hx).1, fun x hx => (h x hx).2⟩

theorem EndsInList.append_left (h : EndsInList p) (a : List Char) : EndsInList (a ++ p) := by
  obtain ⟨before, list, hlist, rfl⟩ := h
  exact ⟨a ++ before, list, hlist, by simp⟩

/-- A beginning of two texts ends within the first or within the second. -/
theorem prefix_append_cases (h : p <+: a ++ b) : p <+: a ∨ ∃ q, q <+: b ∧ p = a ++ q := by
  rcases List.prefix_or_prefix_of_prefix h (List.prefix_append a b) with h' | ⟨q, rfl⟩
  · exact Or.inl h'
  · exact Or.inr ⟨q, (List.prefix_append_right_inj a).mp h, rfl⟩

theorem prefix_enclosed (h : p <+: '(' :: a ++ [')']) :
    p = [] ∨ (∃ q, q <+: a ∧ p = '(' :: q) ∨ p = '(' :: a ++ [')'] := by
  rcases List.prefix_concat_iff.mp h with h | h
  · exact Or.inr (Or.inr h)
  · exact (List.prefix_cons_iff.mp h).imp_right fun ⟨q, he, hq⟩ => Or.inl ⟨q, hq, he⟩

theorem IsFlat.nested (h : IsFlat a) : Nested 0 a where
  closed := h.surplus
  within p hp := by simp [(h.of_prefix hp).surplus]

namespace Nested

theorem mono (h : Nested m a) (hle : m ≤ n) : Nested n a where
  closed := h.closed
  within p hp := by
    obtain ⟨hpos, hbound⟩ := h.within p hp
    exact ⟨hpos, hbound.imp (fun h => by omega) fun ⟨hlist, h⟩ => ⟨hlist, by omega⟩⟩

theorem append (ha : Nested n a) (hb : Nested n b) : Nested n (a ++ b) where
  closed := by rw [surplus_append, ha.closed, hb.closed, Int.add_zero]
  within p hp := by
    rcases prefix_append_cases hp with hp | ⟨q, hq, rfl⟩
    · exact ha.within p hp
    · obtain ⟨hpos, hbound⟩ := hb.within q hq
      rw [surplus_append, ha.closed, Int.zero_add]
      exact ⟨hpos, hbound.imp_right fun ⟨hlist, h⟩ => ⟨hlist.append_left a, h⟩⟩

/-- A pair of parentheses around a text adds one level. -/
theorem enclose (h : Nested n a) : Nested (n + 1) ('(' :: a ++ [')']) where
  closed := by rw [surplus_enclosed, h.closed]
  within p hp := by
    rcases prefix_enclosed hp with rfl | ⟨q, hq, rfl⟩ | rfl
    · rw [surplus_nil]
      omega
    · obtain ⟨hpos, hbound⟩ := h.within q hq
      rw [surplus_cons_opening]
      refine ⟨by omega, hbound.imp (fun h => by omega) fun ⟨hlist, h⟩ => ⟨?_, by omega⟩⟩
      exact hlist.append_left ['(']
    · rw [surplus_enclosed, h.closed]
      omega

/-- The list of an IN stands one deeper than the text before it. -/
theorem list (ha : IsFlat a) (hb : IsFlat b) :
    Nested 0 ((a ++ " IN ".toList) ++ ('(' :: b ++ [')'])) := by
  have hflat : IsFlat (a ++ " IN ".toList) := ha.append (by decide)
  refine ⟨by rw [surplus_append, hflat.surplus, surplus_enclosed, hb.surplus, Int.add_zero], ?_⟩
  intro p hp
  rcases prefix_append_cases hp with hp | ⟨q, hq, rfl⟩
  · exact hflat.nested.within p hp
  · rw [surplus_append, hflat.surplus, Int.zero_add]
    rcases prefix_enclosed hq with rfl | ⟨list, hlist, rfl⟩ | rfl
    · exact ⟨Int.le_refl 0, Or.inl (Int.le_refl 0)⟩
    · have hflat := hb.of_prefix hlist
      rw [surplus_cons_opening, hflat.surplus]
      exact ⟨by decide, Or.inr ⟨⟨a, list, hflat, by simp⟩, by decide⟩⟩
    · rw [surplus_enclosed, hb.surplus]
      exact ⟨Int.le_refl 0, Or.inl (Int.le_refl 0)⟩

end Nested

end WhereClause.Text
