import WhereClause.Proofs.Policy.Walk
import WhereClause.Proofs.Rule.Reading
import WhereClause.Proofs.Tree.EmptyGroup

/-! The shape of an operand, judged twice: when a rule is checked and when it is written. Both go by the
requirement of the operator, and the writer refuses a rule for nothing else. -/
namespace WhereClause

/-- How many values an operand holds that meets a requirement. Only a list may hold any number. -/
def Arity.count : Arity → Shape → Nat
  | none, _ => 0
  | one, _ => 1
  | two, _ => 2
  | atLeastOne, .list length => length
  | atLeastOne, _ => 0

theorem Operand.length_values_of_accepts {arity : Arity} {operand : Operand}
    (h : arity.accepts operand.shape = true) : operand.values.length = arity.count operand.shape := by
  cases arity with
  | none =>
    cases operand with
    | none => rfl
    | single v | list vs => cases h
  | one =>
    cases operand with
    | single v => rfl
    | none | list vs => cases h
  | two =>
    cases operand with
    | list vs => exact beq_iff_eq.mp h
    | none | single v => cases h
  | atLeastOne =>
    cases operand with
    | list vs => rfl
    | none | single v => cases h

namespace Rule
variable {r : Rule}

/-- A rule has as many values as its operator takes. Patterns change a value, but not their number. -/
theorem length_params_of_render {f : Fragment} (h : r.render = .ok f) :
    f.params.length = r.operator.arity.count r.operand.shape := by
  have haccepts := r.exists_render_iff.mp ⟨f, h⟩
  rw [(spelled_of_render h).1, predicate, List.length_map]
  exact Operand.length_values_of_accepts haccepts

theorem eq_of_render_eq_error {e : BuildError} (h : r.render = .error e) :
    e = .unsupportedShape r.field r.operator r.operator.arity r.operand.shape := by
  simp only [render] at h
  split at h
  all_goals cases h
  rfl

/-- The writer has one ground to refuse a rule, and one error for it. -/
theorem render_eq_error_iff {e : BuildError} : r.render = .error e ↔
    r.operator.arity.accepts r.operand.shape = false ∧
      e = .unsupportedShape r.field r.operator r.operator.arity r.operand.shape := by
  have haccepts := r.exists_render_iff
  cases hr : r.render with
  | ok f =>
    have hshape := haccepts.mp ⟨f, hr⟩
    simp [hshape]
  | error found =>
    have hshape : r.operator.arity.accepts r.operand.shape = false := by
      rw [← Bool.not_eq_true, ← haccepts, hr]
      rintro ⟨f, hf⟩
      cases hf
    rw [eq_of_render_eq_error hr, hshape, Except.error.injEq]
    exact ⟨fun h => ⟨rfl, h.symm⟩, fun h => h.2.symm⟩

/-- Beside a field that is missing, the check of a rule has the same ground. -/
theorem check_eq_error_iff (hfield : r.field ≠ "") {v : Violation} : r.check = .error v ↔
    r.operator.arity.accepts r.operand.shape = false ∧
      v = .operandShape r.field r.operator r.operator.arity r.operand.shape := by
  have hempty : ¬ r.field.isEmpty = true := by simpa using hfield
  rw [check, if_neg hempty]
  cases r.operator.arity.accepts r.operand.shape with
  | true => simp
  | false => simp [eq_comm]

end Rule

/-- A standard renderer, whichever operator it is for, writes a rule exactly if the operator of the rule
takes its operand; for a rule with a field, exactly if the check lets it pass. Both refusals name the
same field, operator, requirement and shape, and there is no other. What is written binds as many
values as the operator takes. -/
theorem Renderer.standard_agrees_with_check (op : Operator) (r : Rule) :
    ((∃ f, (standard op).render r = .ok f) ↔ r.operator.arity.accepts r.operand.shape = true) ∧
    (∀ e, (standard op).render r = .error e ↔ r.operator.arity.accepts r.operand.shape = false ∧
      e = .unsupportedShape r.field r.operator r.operator.arity r.operand.shape) ∧
    (r.field ≠ "" → ((∃ f, (standard op).render r = .ok f) ↔ r.check = .ok ()) ∧
      ∀ v, r.check = .error v ↔ r.operator.arity.accepts r.operand.shape = false ∧
        v = .operandShape r.field r.operator r.operator.arity r.operand.shape) ∧
    ∀ f, (standard op).render r = .ok f →
      f.params.length = r.operator.arity.count r.operand.shape := by
  refine ⟨r.exists_render_iff, fun e => Rule.render_eq_error_iff, fun hfield => ⟨?_, fun v => ?_⟩, ?_⟩
  · have hcheck := r.check_eq_ok_iff
    rw [hcheck, and_iff_right hfield]
    exact r.exists_render_iff
  · exact Rule.check_eq_error_iff hfield
  · intro f hf
    exact Rule.length_params_of_render hf

/-- A list of three for two bounds is refused twice on the same ground. With one bound less it is
written, by the renderer of any operator. -/
theorem Renderer.standard_agrees_with_check_between :
    let r (vs : List Value) : Rule := ⟨"a", .notBetween, .list vs⟩
    let two := r [.int 1, .int 2]
    let three := r [.int 1, .int 2, .int 3]
    (two.field ≠ "" ∧ ((∃ f, (standard .inList).render two = .ok f) ↔ two.check = .ok ()) ∧
      (standard .inList).render two = .ok ⟨"a NOT BETWEEN ? AND ?", [.int 1, .int 2], ["a"]⟩ ∧
      [Value.int 1, .int 2].length = two.operator.arity.count two.operand.shape) ∧
    (standard .notBetween).render three =
      .error (.unsupportedShape "a" .notBetween .two (.list 3)) ∧
    three.check = .error (.operandShape "a" .notBetween .two (.list 3)) := by
  intro r two three
  have hwritten : (standard .inList).render two =
      .ok ⟨"a NOT BETWEEN ? AND ?", [.int 1, .int 2], ["a"]⟩ := rfl
  have hname : "a" ≠ "" := by decide
  obtain ⟨_, _, hagrees, hcount⟩ := standard_agrees_with_check .inList two
  obtain ⟨_, hrefused, hchecked, _⟩ := standard_agrees_with_check .notBetween three
  refine ⟨⟨hname, (hagrees hname).1, hwritten, hcount _ hwritten⟩, ?_, ?_⟩
  · exact (hrefused _).mpr ⟨rfl, rfl⟩
  · exact ((hchecked hname).2 _).mpr ⟨rfl, rfl⟩

end WhereClause
