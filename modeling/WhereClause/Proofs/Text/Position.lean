import Mathlib.Data.List.DropRight
import WhereClause.Text.Word

/-! Positions of a text. The scan from the left carries along what stands before a position, and a look
backwards from there finds the same, so that an occurrence of a word is a split of the text in three. -/
namespace WhereClause.Text

/-- What stands before a position, looked for backwards: a run reaches back to the nearest gap. -/
def Before.lookBack (passed : List Char) : Before :=
  match (passed.rtakeWhile isWordChar).head? with
  | none => gap
  | some c => run c.isDigit

theorem Before.pass_lookBack (passed : List Char) (c : Char) :
    (lookBack passed).pass c = lookBack (passed ++ [c]) := by
  cases hc : isWordChar c with
  | false =>
    have hgap : (passed ++ [c]).rtakeWhile isWordChar = [] := by
      rw [List.rtakeWhile_concat, if_neg (Bool.eq_false_iff.mp hc)]
    simp only [pass, hc, lookBack, hgap]
    rfl
  | true =>
    have hrun : (passed ++ [c]).rtakeWhile isWordChar = passed.rtakeWhile isWordChar ++ [c] := by
      rw [List.rtakeWhile_concat, if_pos hc]
    simp only [pass, hc, lookBack, hrun, List.head?_append]
    cases (passed.rtakeWhile isWordChar).head? <;> rfl

/-- What is carried along from the beginning of a text is what a look backwards finds. -/
theorem Before.foldl_pass_gap (passed : List Char) : passed.foldl pass gap = lookBack passed := by
  induction passed using List.reverseRecOn with
  | nil => rfl
  | append_singleton passed c ih => rw [List.foldl_concat, ih, pass_lookBack]

variable {text word rest : List Char} {before : Before}

theorem mem_positions_iff {start : Before} : (before, rest) ∈ positions start text ↔
    ∃ passed, text = passed ++ rest ∧ before = passed.foldl Before.pass start := by
  induction text generalizing start with
  | nil =>
    rw [positions, List.mem_singleton, Prod.mk.injEq]
    constructor
    · rintro ⟨rfl, rfl⟩
      exact ⟨[], rfl, rfl⟩
    · rintro ⟨passed, hsplit, rfl⟩
      obtain ⟨rfl, rfl⟩ := List.append_eq_nil_iff.mp hsplit.symm
      exact ⟨rfl, rfl⟩
  | cons c text ih =>
    rw [positions, List.mem_cons, Prod.mk.injEq, ih]
    constructor
    · rintro (⟨rfl, rfl⟩ | ⟨passed, rfl, rfl⟩)
      · exact ⟨[], rfl, rfl⟩
      · exact ⟨c :: passed, rfl, rfl⟩
    · rintro ⟨passed, hsplit, rfl⟩
      cases passed with
      | nil => exact Or.inl ⟨rfl, hsplit.symm⟩
      | cons x passed =>
        obtain ⟨rfl, rfl⟩ := List.cons_eq_cons.mp hsplit
        exact Or.inr ⟨passed, rfl, rfl⟩

theorem wordStandsAt_iff : wordStandsAt word (before, rest) = true ↔ before.allowsWord = true ∧
    ∃ behind, rest = word ++ behind ∧ behind.head?.all (!isWordChar ·) = true := by
  rw [wordStandsAt, Bool.and_eq_true, Bool.and_eq_true, and_assoc, List.isPrefixOf_iff_prefix]
  refine and_congr_right fun _ => ⟨?_, ?_⟩
  · rintro ⟨⟨behind, rfl⟩, hend⟩
    rw [List.drop_left] at hend
    exact ⟨behind, rfl, hend⟩
  · rintro ⟨behind, rfl, hend⟩
    rw [List.drop_left]
    exact ⟨List.prefix_append word behind, hend⟩

/-- The scan for a word splits a text at it: a word may begin behind what is passed, and no word symbol
follows. -/
theorem containsWord_iff_split : containsWord text word = true ↔ word ≠ [] ∧
    ∃ passed behind, text = passed ++ (word ++ behind) ∧
      (Before.lookBack passed).allowsWord = true ∧ behind.head?.all (!isWordChar ·) = true := by
  rw [containsWord, Bool.and_eq_true, decide_eq_true_eq, List.any_eq_true]
  refine and_congr_right fun _ => ⟨?_, ?_⟩
  · rintro ⟨⟨before, rest⟩, hmem, hword⟩
    obtain ⟨passed, rfl, rfl⟩ := mem_positions_iff.mp hmem
    obtain ⟨hbefore, behind, rfl, hend⟩ := wordStandsAt_iff.mp hword
    rw [Before.foldl_pass_gap] at hbefore
    exact ⟨passed, behind, rfl, hbefore, hend⟩
  · rintro ⟨passed, behind, rfl, hbefore, hend⟩
    refine ⟨(Before.lookBack passed, word ++ behind), ?_, ?_⟩
    · exact mem_positions_iff.mpr ⟨passed, rfl, (Before.foldl_pass_gap passed).symm⟩
    · exact wordStandsAt_iff.mpr ⟨hbefore, behind, rfl, hend⟩

end WhereClause.Text
