import WhereClause.Proofs.Tree.Rendering

/-! Trees without superfluous groups. A group of one child adds nothing but its negation, and a
negation that the child can take over needs no group of its own. What is written stays the same. -/
namespace WhereClause.Tree

/-- Whether a tree is a group without a negation, which can take over the one around it. -/
def isOpen : Tree → Bool
  | rule _ => false
  | group _ negated _ => !negated

/-- What stands for a group of one child: the child, with the negation of the group if it is open. -/
def ofLone (combinator : Combinator) (negated : Bool) : Tree → Tree
  | group inner false children => group inner negated children
  | child => if negated then group combinator true [child] else child

/-- The group of some children, or what stands for it. -/
def collapse (combinator : Combinator) (negated : Bool) : List Tree → Tree
  | [child] => child.ofLone combinator negated
  | children => group combinator negated children

mutual

/-- The tree without superfluous groups, from the leaves upwards. -/
def normalise : Tree → Tree
  | rule r => rule r
  | group combinator negated children => collapse combinator negated (normaliseAll children)

def normaliseAll : List Tree → List Tree
  | [] => []
  | t :: rest => t.normalise :: normaliseAll rest

end

theorem normaliseAll_eq_map (siblings : List Tree) : normaliseAll siblings = siblings.map normalise := by
  induction siblings with
  | nil => rfl
  | cons t rest ih => rw [normaliseAll, List.map_cons, ih]

/-- No group is superfluous: a group of one child negates what cannot be negated itself. -/
inductive Normal : Tree → Prop where
  | rule (r : Rule) : Normal (.rule r)
  | negation (combinator : Combinator) {child : Tree} (hopen : child.isOpen = false)
      (h : Normal child) : Normal (.group combinator true [child])
  | siblings (combinator : Combinator) (negated : Bool) {children : List Tree}
      (hlen : 2 ≤ children.length) (h : ∀ t ∈ children, Normal t) :
      Normal (.group combinator negated children)

theorem ofLone_of_not_isOpen {child : Tree} (h : child.isOpen = false) (combinator : Combinator)
    (negated : Bool) :
    child.ofLone combinator negated = if negated then group combinator true [child] else child := by
  cases child with
  | rule r => rfl
  | group inner within children =>
    cases within with
    | false => cases h
    | true => rfl

theorem collapse_of_two_le {children : List Tree} (hlen : 2 ≤ children.length)
    (combinator : Combinator) (negated : Bool) :
    collapse combinator negated children = group combinator negated children := by
  rcases children with _ | ⟨first, _ | ⟨second, rest⟩⟩
  · rfl
  · simp at hlen
  · rfl

theorem exists_of_isOpen {t : Tree} (h : t.isOpen = true) :
    ∃ combinator children, t = group combinator false children := by
  cases t with
  | rule r => cases h
  | group combinator negated children =>
    cases negated with
    | false => exact ⟨combinator, children, rfl⟩
    | true => cases h

theorem Normal.ofLone {child : Tree} (h : child.Normal) (combinator : Combinator) (negated : Bool) :
    (child.ofLone combinator negated).Normal := by
  by_cases hopen : child.isOpen = true
  · obtain ⟨inner, children, rfl⟩ := exists_of_isOpen hopen
    cases h with
    | siblings _ _ hlen h => exact .siblings inner negated hlen h
  · rw [Bool.not_eq_true] at hopen
    rw [ofLone_of_not_isOpen hopen]
    cases negated with
    | false => exact h
    | true => exact .negation combinator hopen h

variable {rs : Renderers}

/-- A tree that can be written has a normal form without superfluous groups. -/
theorem normal_normalise {nested : Bool} {t : Tree} {f : Fragment}
    (h : t.renderIn rs nested = .ok f) : t.normalise.Normal := by
  refine renderIn_induction (motive := fun _ t _ => t.normalise.Normal) ?_ ?_ ?_ h
  · intro _ r _ _
    exact .rule r
  · intro _ combinator negated child _ hchild
    exact hchild.ofLone combinator negated
  · intro _ combinator negated children fs hlen hall
    have hnormal : ∀ t ∈ children.map normalise, t.Normal := by
      clear hlen
      induction hall with
      | nil => simp
      | cons ht _ ih => exact List.forall_mem_cons.mpr ⟨ht, ih⟩
    have hlen' : 2 ≤ (children.map normalise).length := by rwa [List.length_map]
    rw [normalise, normaliseAll_eq_map, collapse_of_two_le hlen']
    exact .siblings combinator negated hlen' hnormal

theorem renderAll_congr {siblings siblings' : List Tree}
    (h : List.Forall₂ (fun t t' => t.renderIn rs true = t'.renderIn rs true) siblings siblings') :
    renderAll rs siblings = renderAll rs siblings' := by
  induction h with
  | nil => rfl
  | cons ht _ ih => rw [renderAll, renderAll, ht, ih]

/-- How a group is written depends on its children only by what is written for them. -/
theorem renderIn_group_congr {children children' : List Tree}
    (h : List.Forall₂ (fun t t' => ∀ nested, t.renderIn rs nested = t'.renderIn rs nested) children
      children') (combinator : Combinator) (negated nested : Bool) :
    (group combinator negated children).renderIn rs nested =
      (group combinator negated children').renderIn rs nested := by
  have hall := renderAll_congr (h.imp fun t t' ht => ht true)
  cases h with
  | nil => rfl
  | cons hfirst hrest =>
    cases hrest with
    | nil => rw [renderIn, renderIn, hfirst]
    | cons hsecond hrest => rw [renderIn, renderIn, hall]

theorem map_negateIf_false (result : Except BuildError Fragment) :
    result.map (Fragment.negateIf false) = result := by
  cases result <;> rfl

/-- An open group of one child is written as one group, with the negation around it as its own. -/
theorem renderIn_ofLone (combinator : Combinator) (negated nested : Bool) (child : Tree) :
    (child.ofLone combinator negated).renderIn rs nested =
      (group combinator negated [child]).renderIn rs nested := by
  rw [renderIn]
  by_cases hopen : child.isOpen = true
  · obtain ⟨inner, children, rfl⟩ := exists_of_isOpen hopen
    rw [ofLone]
    rcases children with _ | ⟨first, _ | ⟨second, rest⟩⟩
    · rfl
    · rw [renderIn, renderIn, map_negateIf_false, Bool.not_false, Bool.and_true]
    · rw [renderIn, renderIn, Bool.not_false, Bool.and_true]
      cases renderAll rs (first :: second :: rest) with
      | error e => rfl
      | ok fs => rfl
  · rw [Bool.not_eq_true] at hopen
    rw [ofLone_of_not_isOpen hopen]
    cases negated with
    | false => simp [map_negateIf_false]
    | true => rw [if_pos rfl, renderIn]

/-- Nothing is written for a superfluous group, and nothing else is refused. -/
theorem renderIn_normalise (t : Tree) (nested : Bool) :
    t.normalise.renderIn rs nested = t.renderIn rs nested := by
  induction t using Tree.induction generalizing nested with
  | rule r => rfl
  | group combinator negated children ih =>
    have hchildren : List.Forall₂ (fun t t' => ∀ nested, t.renderIn rs nested = t'.renderIn rs nested)
        (children.map normalise) children :=
      List.forall₂_map_left_iff.mpr (List.forall₂_same.mpr ih)
    rw [← renderIn_group_congr hchildren, normalise, normaliseAll_eq_map]
    rcases children.map normalise with _ | ⟨first, _ | ⟨second, rest⟩⟩
    · rfl
    · exact renderIn_ofLone combinator negated nested first
    · rfl

theorem rules_ofLone (combinator : Combinator) (negated : Bool) (child : Tree) :
    (child.ofLone combinator negated).rules = child.rules := by
  by_cases hopen : child.isOpen = true
  · obtain ⟨inner, children, rfl⟩ := exists_of_isOpen hopen
    rfl
  · rw [Bool.not_eq_true] at hopen
    rw [ofLone_of_not_isOpen hopen]
    cases negated with
    | false => rfl
    | true => exact List.append_nil _

/-- All rules stay, in their order. -/
theorem rules_normalise (t : Tree) : t.normalise.rules = t.rules := by
  induction t using Tree.induction with
  | rule r => rfl
  | group combinator negated children ih =>
    have hrules : rulesOfAll (children.map normalise) = rulesOfAll children := by
      rw [rulesOfAll_eq_flatMap, rulesOfAll_eq_flatMap, List.flatMap_map]
      exact List.flatMap_congr ih
    rw [normalise, normaliseAll_eq_map, rules, ← hrules]
    rcases children.map normalise with _ | ⟨first, _ | ⟨second, rest⟩⟩
    · rfl
    · rw [collapse, rules_ofLone]
      exact (List.append_nil _).symm
    · rfl

end WhereClause.Tree
