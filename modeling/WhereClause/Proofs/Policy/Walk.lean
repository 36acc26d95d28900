import WhereClause.Policy
import WhereClause.Proofs.Tree.Preorder

/-! The check of a policy as one walk over the groups and rules of a tree. Only the number of rules
seen so far passes from one to the next, so each rule is looked at on its own. -/
namespace WhereClause

theorem Rule.check_eq_ok_iff (r : Rule) : r.check = .ok () ↔
    r.field ≠ "" ∧ r.operator.arity.accepts r.operand.shape = true := by
  rw [check]
  by_cases h : r.field = ""
  · simp [h]
  · simp [h]

namespace Policy

/-- One step of the walk, after a number of rules. -/
def step (p : Policy) (seen : Nat) : Node → Except Violation Nat
  | .group depth => if p.maxDepth < depth then .error (.nestingTooDeep p.maxDepth depth) else .ok seen
  | .rule r =>
    if p.maxRules < seen + 1 then .error (.tooManyRules p.maxRules)
    else (p.checkRule r).map fun _ => seen + 1

/-- A tree is visited as its groups and rules are, one after the other. -/
theorem visit_eq_foldlM (p : Policy) (depth seen : Nat) (t : Tree) :
    p.visit depth seen t = (t.nodes depth).foldlM p.step seen := by
  induction t using Tree.induction generalizing depth seen with
  | rule r => exact (bind_pure (p.step seen (.rule r))).symm
  | group combinator negated children ih =>
    -- For any number of rules seen, since each sibling begins where the one before it stopped.
    have hchildren (seen : Nat) : p.visitAll (depth + 1) seen children =
        (Tree.nodesOfAll (depth + 1) children).foldlM p.step seen := by
      induction children generalizing seen with
      | nil => rfl
      | cons t rest ihrest =>
        rw [visitAll, Tree.nodesOfAll, List.foldlM_append, ih t List.mem_cons_self]
        refine bind_congr fun seen => ihrest (fun t ht => ih t (List.mem_cons_of_mem _ ht)) seen
    rw [visit, Tree.nodes, List.foldlM_cons, step]
    split
    · rfl
    · exact hchildren seen

theorem check_eq_foldlM (p : Policy) (t : Tree) :
    p.check t = ((t.nodes 0).foldlM p.step 0).map fun _ => () := by
  rw [check, visit_eq_foldlM]

variable {p : Policy} {g : Rule → Rule} {t : Tree}

theorem check_eq_ok_iff_exists :
    p.check t = .ok () ↔ ∃ seen, (t.nodes 0).foldlM p.step 0 = .ok seen := by
  rw [check_eq_foldlM]
  cases (t.nodes 0).foldlM p.step 0 with
  | error v => simp [Except.map]
  | ok seen => simp [Except.map]

theorem checkRule_eq_ok_iff (p : Policy) (r : Rule) : p.checkRule r = .ok () ↔
    r.check = .ok () ∧ (p.allowedFields = [] ∨ r.field ∈ p.allowedFields) ∧
      r.operator ∉ p.deniedOperators := by
  rw [checkRule]
  cases r.check with
  | error v => simp [bind, Except.bind]
  | ok u =>
    have hor : (p.allowedFields = [] ∨ r.field ∈ p.allowedFields) ↔
        ¬ (p.allowedFields ≠ [] ∧ r.field ∉ p.allowedFields) := by tauto
    rw [hor]
    by_cases hfield : p.allowedFields ≠ [] ∧ r.field ∉ p.allowedFields
    · simp [bind, Except.bind, hfield]
    · simp only [bind, Except.bind, if_neg hfield]
      by_cases hop : r.operator ∈ p.deniedOperators
      · simp [hop]
      · simp [hop, hfield]

theorem step_rule_eq_ok_iff {seen next : Nat} {r : Rule} : p.step seen (.rule r) = .ok next ↔
    seen < p.maxRules ∧ p.checkRule r = .ok () ∧ seen + 1 = next := by
  rw [step]
  by_cases h : p.maxRules < seen + 1
  · rw [if_pos h]
    exact ⟨nofun, fun hlt => absurd hlt.1 (by omega)⟩
  · have hlt : seen < p.maxRules := by omega
    rw [if_neg h]
    cases p.checkRule r with
    | error v => simp [Except.map]
    | ok u => simp [Except.map, hlt]

theorem foldlM_cons_eq_ok_iff {node : Node} {rest : List Node} {seen last : Nat} :
    (node :: rest).foldlM p.step seen = .ok last ↔
      ∃ next, p.step seen node = .ok next ∧ rest.foldlM p.step next = .ok last := by
  rw [List.foldlM_cons, Traversal.bind_eq_ok_iff]

/-- A walk that goes through has passed each rule it met. -/
theorem checkRule_of_foldlM {nodes : List Node} {seen last : Nat}
    (h : nodes.foldlM p.step seen = .ok last) {r : Rule} (hr : .rule r ∈ nodes) :
    p.checkRule r = .ok () := by
  induction nodes generalizing seen with
  | nil => cases hr
  | cons node rest ih =>
    obtain ⟨next, hstep, hrest⟩ := foldlM_cons_eq_ok_iff.mp h
    rcases List.mem_cons.mp hr with rfl | hr
    · exact (step_rule_eq_ok_iff.mp hstep).2.1
    · exact ih hrest hr

theorem checkRule_of_check (h : p.check t = .ok ()) {r : Rule} (hr : r ∈ t.rules) :
    p.checkRule r = .ok () := by
  obtain ⟨last, hlast⟩ := check_eq_ok_iff_exists.mp h
  rw [← t.filterMap_nodes 0, List.mem_filterMap] at hr
  obtain ⟨node, hnode, he⟩ := hr
  cases node with
  | group depth => cases he
  | rule r' =>
    cases he
    exact checkRule_of_foldlM hlast hnode

/-- Rules that are judged alike make no difference to the walk. -/
theorem check_mapRules (h : ∀ r, p.checkRule (g r) = p.checkRule r) :
    p.check (t.mapRules g) = p.check t := by
  have hstep (seen : Nat) (node : Node) : p.step seen (node.mapRule g) = p.step seen node := by
    cases node with
    | group depth => rfl
    | rule r => rw [Node.mapRule, step, step, h]
  rw [check_eq_foldlM, check_eq_foldlM, Tree.nodes_mapRules, List.foldlM_map]
  simp only [hstep]

theorem step_mapRule (h : ∀ r, p.checkRule r = .ok () → p.checkRule (g r) = .ok ()) {node : Node}
    {seen next : Nat} (hs : p.step seen node = .ok next) :
    p.step seen (node.mapRule g) = .ok next := by
  cases node with
  | group depth => exact hs
  | rule r =>
    obtain ⟨hseen, hc, rfl⟩ := step_rule_eq_ok_iff.mp hs
    exact step_rule_eq_ok_iff.mpr ⟨hseen, h r hc, rfl⟩

theorem foldlM_map_mapRule (h : ∀ r, p.checkRule r = .ok () → p.checkRule (g r) = .ok ())
    {nodes : List Node} {seen last : Nat} (hw : nodes.foldlM p.step seen = .ok last) :
    (nodes.map (Node.mapRule g)).foldlM p.step seen = .ok last := by
  induction nodes generalizing seen with
  | nil => exact hw
  | cons node rest ih =>
    obtain ⟨next, hstep, hrest⟩ := foldlM_cons_eq_ok_iff.mp hw
    exact foldlM_cons_eq_ok_iff.mpr ⟨next, step_mapRule h hstep, ih hrest⟩

/-- Rules that pass whenever the rules in whose place they stand do let the walk through. -/
theorem check_mapRules_of_check (h : ∀ r, p.checkRule r = .ok () → p.checkRule (g r) = .ok ())
    (hc : p.check t = .ok ()) : p.check (t.mapRules g) = .ok () := by
  obtain ⟨last, hlast⟩ := check_eq_ok_iff_exists.mp hc
  refine check_eq_ok_iff_exists.mpr ⟨last, ?_⟩
  rw [Tree.nodes_mapRules]
  exact foldlM_map_mapRule h hlast

end Policy

end WhereClause
