import Mathlib.Data.List.Enum
import WhereClause.Proofs.Policy.Walk
import WhereClause.Proofs.Traversal

/-! What a policy reports about a tree: the first violation on a walk that numbers the rules. -/
namespace WhereClause
open Traversal

/-- What a walk comes to, with the depth of a group and the number of a rule, counted from one. -/
inductive Visit where
  | group (depth : Nat)
  | rule (number : Nat) (r : Rule)

namespace Visit

def rule? : Visit → Option (Rule × Nat)
  | group _ => none
  | rule number r => some (r, number)

/-- The groups and rules that follow a number of rules. -/
def ofNodes (seen : Nat) : List Node → List Visit
  | [] => []
  | .group depth :: rest => group depth :: ofNodes seen rest
  | .rule r :: rest => rule (seen + 1) r :: ofNodes (seen + 1) rest

theorem group_mem_ofNodes_iff {depth seen : Nat} {nodes : List Node} :
    group depth ∈ ofNodes seen nodes ↔ .group depth ∈ nodes := by
  induction nodes generalizing seen with
  | nil => simp [ofNodes]
  | cons node rest ih => cases node <;> simp [ofNodes, ih]

/-- The numbers of the rules are those of their places among the rules. -/
theorem filterMap_ofNodes (seen : Nat) (nodes : List Node) :
    (ofNodes seen nodes).filterMap rule? = (nodes.filterMap Node.rule?).zipIdx (seen + 1) := by
  induction nodes generalizing seen with
  | nil => rfl
  | cons node rest ih =>
    cases node with
    | group depth => exact ih seen
    | rule r =>
      rw [ofNodes, List.filterMap_cons, List.filterMap_cons, Node.rule?, rule?, List.zipIdx_cons, ih]

end Visit

/-- The walk through a tree from its root at depth zero, each group before its children. -/
def Tree.visits (t : Tree) : List Visit :=
  Visit.ofNodes 0 (t.nodes 0)

theorem Tree.rule_mem_visits_iff {t : Tree} {r : Rule} {number : Nat} :
    .rule number r ∈ t.visits ↔ (r, number) ∈ t.rules.zipIdx 1 := by
  rw [← t.filterMap_nodes 0, ← Visit.filterMap_ofNodes, ← visits, List.mem_filterMap]
  constructor
  · intro h
    exact ⟨_, h, rfl⟩
  · rintro ⟨visit, hvisit, he⟩
    cases visit with
    | group depth => cases he
    | rule number r => cases he; exact hvisit

namespace Policy
variable {p : Policy} {t : Tree}

/-- What is wrong with a visit, if anything is. A rule beyond the limit is not looked at. -/
def violation? (p : Policy) : Visit → Option Violation
  | .group depth =>
    if p.maxDepth < depth then some (.nestingTooDeep p.maxDepth depth) else none
  | .rule number r =>
    if p.maxRules < number then some (.tooManyRules p.maxRules)
    else match p.checkRule r with
      | .error v => some v
      | .ok () => none

/-- A walk ends at the first violation, or goes through with the number of rules it has met. -/
theorem foldlM_step_eq (p : Policy) (nodes : List Node) (seen : Nat) :
    nodes.foldlM p.step seen =
      match (Visit.ofNodes seen nodes).findSome? p.violation? with
      | some v => .error v
      | none => .ok (seen + (nodes.filterMap Node.rule?).length) := by
  induction nodes generalizing seen with
  | nil => rfl
  | cons node rest ih =>
    rw [List.foldlM_cons]
    cases node with
    | group depth =>
      rw [step, Visit.ofNodes, List.findSome?_cons, violation?]
      by_cases h : p.maxDepth < depth
      · rw [if_pos h, if_pos h]
        rfl
      · rw [if_neg h, if_neg h]
        exact ih seen
    | rule r =>
      rw [step, Visit.ofNodes, List.findSome?_cons, violation?]
      by_cases h : p.maxRules < seen + 1
      · rw [if_pos h, if_pos h]
        rfl
      · rw [if_neg h, if_neg h]
        cases p.checkRule r with
        | error v => rfl
        | ok u =>
          have hlen : seen + ((Node.rule r :: rest).filterMap Node.rule?).length =
              seen + 1 + (rest.filterMap Node.rule?).length := by
            rw [List.filterMap_cons, Node.rule?, List.length_cons]
            omega
          rw [hlen]
          exact ih (seen + 1)

theorem failure?_check (p : Policy) (t : Tree) :
    failure? (p.check t) = t.visits.findSome? p.violation? := by
  rw [check_eq_foldlM, foldlM_step_eq, Tree.visits]
  cases (Visit.ofNodes 0 (t.nodes 0)).findSome? p.violation? <;> rfl

theorem check_eq_error_iff (v : Violation) : p.check t = .error v ↔
    ∃ passed visit later, t.visits = passed ++ visit :: later ∧
      (∀ other ∈ passed, p.violation? other = none) ∧ p.violation? visit = some v :=
  (iff_of_failure?_eq_findSome? (failure?_check p t)).1 v

theorem check_eq_ok_iff_forall :
    p.check t = .ok () ↔ ∀ visit ∈ t.visits, p.violation? visit = none := by
  have hpassed := (iff_of_failure?_eq_findSome? (failure?_check p t)).2
  exact ⟨fun h => hpassed.mp ⟨(), h⟩, fun h => (hpassed.mpr h).elim fun _ h => h⟩

theorem violation?_group_eq_none_iff {depth : Nat} :
    p.violation? (.group depth) = none ↔ depth ≤ p.maxDepth := by
  simp [violation?]

theorem violation?_rule_eq_none_iff {number : Nat} {r : Rule} :
    p.violation? (.rule number r) = none ↔ number ≤ p.maxRules ∧ p.checkRule r = .ok () := by
  rw [violation?]
  by_cases h : p.maxRules < number
  · simp [h, Nat.not_le.mpr h]
  · rw [if_neg h]
    cases p.checkRule r with
    | error v => simp
    | ok u => simp [Nat.not_lt.mp h]

/-- The rules pass with their numbers exactly if there are not too many of them and each passes. -/
theorem forall_rule_mem_visits_iff : (∀ number r, .rule number r ∈ t.visits →
      p.violation? (.rule number r) = none) ↔
    t.ruleCount ≤ p.maxRules ∧ ∀ r ∈ t.rules, p.checkRule r = .ok () := by
  have hplaces : (∀ number r, .rule number r ∈ t.visits → p.violation? (.rule number r) = none) ↔
      ∀ x ∈ t.rules.zipIdx 1, x.2 ≤ p.maxRules ∧ p.checkRule x.1 = .ok () := by
    simp only [Tree.rule_mem_visits_iff, violation?_rule_eq_none_iff]
    exact ⟨fun h x hx => h x.2 x.1 hx, fun h number r hr => h (r, number) hr⟩
  rw [hplaces, List.forall_mem_zipIdx, Tree.ruleCount, List.forall_mem_iff_getElem]
  constructor
  · intro h
    refine ⟨?_, fun i hi => (h i hi).2⟩
    by_contra hlen
    have hlast := (h (t.rules.length - 1) (by omega)).1
    omega
  · rintro ⟨hlen, h⟩ i hi
    exact ⟨by omega, h i hi⟩

/-- A tree passes exactly if no group is too deep, the rules are not too many, and each rule passes. -/
theorem check_eq_ok_iff : p.check t = .ok () ↔
    (∀ depth, .group depth ∈ t.nodes 0 → depth ≤ p.maxDepth) ∧ t.ruleCount ≤ p.maxRules ∧
      ∀ r ∈ t.rules, p.checkRule r = .ok () := by
  rw [check_eq_ok_iff_forall, ← forall_rule_mem_visits_iff]
  constructor
  · intro h
    refine ⟨fun depth hdepth => ?_, fun number r hr => h _ hr⟩
    have hvisit : .group depth ∈ t.visits := Visit.group_mem_ofNodes_iff.mpr hdepth
    exact violation?_group_eq_none_iff.mp (h _ hvisit)
  · rintro ⟨hgroups, hrules⟩ visit hvisit
    cases visit with
    | group depth =>
      rw [Tree.visits, Visit.group_mem_ofNodes_iff] at hvisit
      exact violation?_group_eq_none_iff.mpr (hgroups depth hvisit)
    | rule number r => exact hrules number r hvisit

theorem checkRule_ne_nestingTooDeep (p : Policy) (r : Rule) (limit depth : Nat) :
    p.checkRule r ≠ .error (.nestingTooDeep limit depth) := by
  intro h
  rw [checkRule, Rule.check] at h
  split at h
  · cases h
  · split at h
    · simp only [bind, Except.bind] at h
      split at h
      · cases h
      · split at h <;> cases h
    · cases h

/-- A group that is too deep is so by one level: the groups around it were not. -/
theorem eq_of_visit_eq_error {depth seen limit found : Nat} (hdepth : depth ≤ p.maxDepth + 1)
    (h : p.visit depth seen t = .error (.nestingTooDeep limit found)) :
    limit = p.maxDepth ∧ found = p.maxDepth + 1 := by
  induction t using Tree.induction generalizing depth seen with
  | rule r =>
    rw [visit] at h
    split at h
    · cases h
    · cases hc : p.checkRule r with
      | error v =>
        rw [hc] at h
        cases h
        exact absurd hc (p.checkRule_ne_nestingTooDeep r limit found)
      | ok u =>
        rw [hc] at h
        cases h
  | group combinator negated children ih =>
    rw [visit] at h
    split at h
    · cases h
      exact ⟨rfl, by omega⟩
    · have hnext : depth + 1 ≤ p.maxDepth + 1 := by omega
      induction children generalizing seen with
      | nil => cases h
      | cons t rest ihrest =>
        rw [visitAll] at h
        cases ht : p.visit (depth + 1) seen t with
        | error v =>
          rw [ht] at h
          cases h
          exact ih t List.mem_cons_self hnext ht
        | ok seen' =>
          rw [ht] at h
          exact ihrest (fun t ht => ih t (List.mem_cons_of_mem _ ht)) h

/-- A policy reports the first violation on the walk through a tree, and passes the tree if there is
none: that is, if no group is too deep, the rules are not too many, and each rule passes on its own. A
group that is reported is one level too deep. -/
theorem check_eq_first_violation (p : Policy) (t : Tree) :
    (∀ v, p.check t = .error v ↔ ∃ passed visit later, t.visits = passed ++ visit :: later ∧
      (∀ other ∈ passed, p.violation? other = none) ∧ p.violation? visit = some v) ∧
    (p.check t = .ok () ↔ ∀ visit ∈ t.visits, p.violation? visit = none) ∧
    (p.check t = .ok () ↔ (∀ depth, .group depth ∈ t.nodes 0 → depth ≤ p.maxDepth) ∧
      t.ruleCount ≤ p.maxRules ∧ ∀ r ∈ t.rules, p.checkRule r = .ok ()) ∧
    ∀ limit depth, p.check t = .error (.nestingTooDeep limit depth) →
      limit = p.maxDepth ∧ depth = p.maxDepth + 1 := by
  refine ⟨fun v => check_eq_error_iff v, check_eq_ok_iff_forall, check_eq_ok_iff, ?_⟩
  intro limit depth h
  rw [check] at h
  cases hv : p.visit 0 0 t with
  | error v =>
    rw [hv] at h
    cases h
    exact eq_of_visit_eq_error (Nat.zero_le _) hv
  | ok seen =>
    rw [hv] at h
    cases h

/-- The second rule is without a value, but it is one too many, and that comes first. To its right
stands a group that is too deep: it is reported once two rules are allowed and the second is whole.
With two rules allowed the missing value is what comes first. -/
theorem check_eq_first_violation_crowded :
    let p (maxRules : Nat) : Policy := { Policy.standard with maxDepth := 1, maxRules := maxRules }
    let t (operand : Operand) : Tree := .group .and false [
      .group .or true [.rule ⟨"a", .isNull, .none⟩, .rule ⟨"b", .equal, operand⟩],
      .group .and false [.group .and false [.group .or false []]]]
    ((p 1).check (t .none) = .error (.tooManyRules 1) ∧
      ∃ passed visit later, (t .none).visits = passed ++ visit :: later ∧
        (∀ other ∈ passed, (p 1).violation? other = none) ∧
        (p 1).violation? visit = some (.tooManyRules 1)) ∧
    ((p 2).check (t .none) = .error (.operandShape "b" .equal .one .none) ∧
      ∃ passed visit later, (t .none).visits = passed ++ visit :: later ∧
        (∀ other ∈ passed, (p 2).violation? other = none) ∧
        (p 2).violation? visit = some (.operandShape "b" .equal .one .none)) ∧
    (p 2).check (t (.single (.int 1))) = .error (.nestingTooDeep 1 2) ∧
      1 = (p 2).maxDepth ∧ 2 = (p 2).maxDepth + 1 := by
  intro p t
  have hmany : (p 1).check (t .none) = .error (.tooManyRules 1) := rfl
  have hdeep : (p 2).check (t (.single (.int 1))) = .error (.nestingTooDeep 1 2) := rfl
  have hshape : (p 2).check (t .none) = .error (.operandShape "b" .equal .one .none) := rfl
  exact ⟨⟨hmany, ((check_eq_first_violation _ _).1 _).mp hmany⟩,
    ⟨hshape, ((check_eq_first_violation _ _).1 _).mp hshape⟩, hdeep,
    (check_eq_first_violation _ _).2.2.2 1 2 hdeep⟩

end Policy

end WhereClause
