import WhereClause.Renderers

/-! Which renderer writes a rule. Standard renderers write any rule alike, so that a list of them
is as good as the set of operators it covers. -/
namespace WhereClause.Renderers

/-- Standard renderers write the rules of the operators they cover, in the one standard way. -/
theorem render_map_standard (ops : List Operator) (r : Rule) :
    (⟨ops.map Renderer.standard⟩ : Renderers).render r =
      if r.operator ∈ ops then r.render else .error (.unsupportedOperator r.field r.operator) := by
  induction ops with
  | nil => rfl
  | cons op rest ih =>
    simp only [render, List.map_cons, List.find?_cons] at ih ⊢
    by_cases h : op = r.operator
    · have hh : (Renderer.standard op).handles r.operator = true := beq_iff_eq.mpr h
      rw [hh, if_pos (by simp [h])]
      rfl
    · have hh : (Renderer.standard op).handles r.operator = false := beq_false_of_ne h
      rw [hh, ih]
      simp [Ne.symm h]

@[simp] theorem render_standard (r : Rule) : standard.render r = r.render :=
  (render_map_standard Operator.all r).trans (if_pos (Operator.mem_all r.operator))

end WhereClause.Renderers
