import WhereClause.Proofs.Tree.Rendering

/-! Trees as lists of what a walk comes to, and trees with their rules replaced one by one. A walk
through the tree with other rules meets the same groups. -/
namespace WhereClause

/-- What a walk through a tree comes to: a group at its depth, or a rule. -/
inductive Node where
  | group (depth : Nat)
  | rule (r : Rule)

namespace Node

def rule? : Node → Option Rule
  | group _ => none
  | rule r => some r

def mapRule (g : Rule → Rule) : Node → Node
  | group depth => group depth
  | rule r => rule (g r)

end Node

namespace Tree

mutual

/-- The groups and rules of a tree at a depth, each group before its children. -/
def nodes (depth : Nat) : Tree → List Node
  | rule r => [.rule r]
  | group _ _ children => .group depth :: nodesOfAll (depth + 1) children

def nodesOfAll (depth : Nat) : List Tree → List Node
  | [] => []
  | t :: rest => t.nodes depth ++ nodesOfAll depth rest

end

theorem nodesOfAll_eq_flatMap (depth : Nat) (siblings : List Tree) :
    nodesOfAll depth siblings = siblings.flatMap (nodes depth) := by
  induction siblings with
  | nil => rfl
  | cons t rest ih => rw [nodesOfAll, List.flatMap_cons, ih]

mutual

/-- The tree with each of its rules replaced. -/
def mapRules (g : Rule → Rule) : Tree → Tree
  | rule r => rule (g r)
  | group combinator negated children => group combinator negated (mapRulesOfAll g children)

def mapRulesOfAll (g : Rule → Rule) : List Tree → List Tree
  | [] => []
  | t :: rest => t.mapRules g :: mapRulesOfAll g rest

end

theorem mapRulesOfAll_eq_map (g : Rule → Rule) (siblings : List Tree) :
    mapRulesOfAll g siblings = siblings.map (mapRules g) := by
  induction siblings with
  | nil => rfl
  | cons t rest ih => rw [mapRulesOfAll, List.map_cons, ih]

/-- The rules are what a walk meets, groups left out. -/
theorem filterMap_nodes (t : Tree) (depth : Nat) :
    (t.nodes depth).filterMap Node.rule? = t.rules := by
  induction t using Tree.induction generalizing depth with
  | rule r => rfl
  | group combinator negated children ih =>
    rw [nodes, rules, nodesOfAll_eq_flatMap, rulesOfAll_eq_flatMap, List.filterMap_cons,
      List.filterMap_flatMap]
    exact List.flatMap_congr fun t ht => ih t ht (depth + 1)

theorem nodes_mapRules (g : Rule → Rule) (t : Tree) (depth : Nat) :
    (t.mapRules g).nodes depth = (t.nodes depth).map (Node.mapRule g) := by
  induction t using Tree.induction generalizing depth with
  | rule r => rfl
  | group combinator negated children ih =>
    rw [mapRules, nodes, nodes, nodesOfAll_eq_flatMap, nodesOfAll_eq_flatMap, mapRulesOfAll_eq_map,
      List.flatMap_map, List.map_cons, List.map_flatMap]
    exact congrArg _ (List.flatMap_congr fun t ht => ih t ht (depth + 1))

theorem rules_mapRules (g : Rule → Rule) (t : Tree) : (t.mapRules g).rules = t.rules.map g := by
  rw [← filterMap_nodes t 0, ← filterMap_nodes _ 0, nodes_mapRules, List.filterMap_map,
    List.map_filterMap]
  refine List.filterMap_congr fun node _ => ?_
  cases node <;> rfl

end Tree

end WhereClause
