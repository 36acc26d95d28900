import WhereClause.Proofs.Traversal
import WhereClause.Tree.Render

/-! What writing a tree can produce. Each law about written trees is one induction over the three
ways in which a fragment comes about: from a rule, from a lone child, and from siblings. -/
namespace WhereClause.Tree

/-- Induction over trees whose hypothesis covers every child of a group. -/
@[elab_as_elim]
theorem induction {motive : Tree → Prop} (rule : ∀ r, motive (.rule r))
    (group : ∀ combinator negated children, (∀ t ∈ children, motive t) →
      motive (.group combinator negated children)) (t : Tree) : motive t := by
  refine Tree.rec (motive_2 := fun children => ∀ t ∈ children, motive t) rule group ?_ ?_ t
  · intro t ht
    cases ht
  · intro child rest hc hr t ht
    rcases List.mem_cons.mp ht with rfl | ht
    · exact hc
    · exact hr t ht

/-- The rules of a group are those of its children. -/
theorem mem_rules_group {combinator : Combinator} {negated : Bool} {children : List Tree} {r : Rule} :
    r ∈ (group combinator negated children).rules ↔ ∃ t ∈ children, r ∈ t.rules := by
  rw [rules, rulesOfAll_eq_flatMap, List.mem_flatMap]

variable {rs : Renderers}

/-- Siblings are written exactly when each of them is. -/
theorem renderAll_eq_ok_iff {siblings : List Tree} {fs : List Fragment} :
    renderAll rs siblings = .ok fs ↔
      List.Forall₂ (fun t f => t.renderIn rs true = .ok f) siblings fs := by
  rw [renderAll_eq_mapM, Traversal.mapM_eq_ok_iff]

/-- Induction over written trees. A lone child is written in the place of its group, and siblings
are written as siblings whatever stands around their group. -/
theorem renderIn_induction {motive : Bool → Tree → Fragment → Prop}
    (rule : ∀ nested r f, rs.render r = .ok f → motive nested (.rule r) f)
    (lone : ∀ nested combinator negated child f, motive (nested && !negated) child f →
      motive nested (.group combinator negated [child]) (f.negateIf negated))
    (siblings : ∀ nested combinator negated children fs, 2 ≤ children.length →
      List.Forall₂ (motive true) children fs →
      motive nested (.group combinator negated children)
        (((Fragment.join combinator fs).parenthesizeIf (nested && !negated)).negateIf negated))
    {nested : Bool} {t : Tree} {f : Fragment} (h : t.renderIn rs nested = .ok f) :
    motive nested t f := by
  induction t using Tree.induction generalizing nested f with
  | rule r => exact rule nested r f (by rwa [renderIn] at h)
  | group combinator negated children ih =>
    match children with
    | [] => cases h
    | [child] =>
      rw [renderIn] at h
      cases hc : child.renderIn rs (nested && !negated) with
      | error e => rw [hc] at h; cases h
      | ok g =>
        rw [hc] at h
        cases h
        exact lone nested combinator negated child g (ih child List.mem_cons_self hc)
    | first :: second :: rest =>
      rw [renderIn] at h
      cases hs : renderAll rs (first :: second :: rest) with
      | error e => rw [hs] at h; cases h
      | ok fs =>
        rw [hs] at h
        cases h
        refine siblings nested combinator negated _ fs (by simp) ?_
        have hall := (List.forall₂_and_left _ _).mpr ⟨ih, renderAll_eq_ok_iff.mp hs⟩
        exact hall.imp fun t f ht => ht.1 ht.2

end WhereClause.Tree
