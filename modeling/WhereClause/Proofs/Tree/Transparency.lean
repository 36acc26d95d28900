import WhereClause.Proofs.Fragment.Provenance
import WhereClause.Proofs.Tree.NormalForm

/-! Groups of one child leave no mark on what is written, wherever they stand: neither the group itself
nor its combinator, in whatever way the rules are written. -/
namespace WhereClause.Tree

/-- The trees differ in nothing but the combinators of groups of one child. -/
inductive SameButLone : Tree → Tree → Prop where
  | rule (r : Rule) : SameButLone (.rule r) (.rule r)
  | lone (combinator combinator' : Combinator) (negated : Bool) {child child' : Tree}
      (h : SameButLone child child') :
      SameButLone (.group combinator negated [child]) (.group combinator' negated [child'])
  | group (combinator : Combinator) (negated : Bool) {children children' : List Tree}
      (h : List.Forall₂ SameButLone children children') :
      SameButLone (.group combinator negated children) (.group combinator negated children')

variable {rs : Renderers} {t t' : Tree}

/-- A combinator without a second child to join is never looked at. -/
theorem SameButLone.renderIn_eq (h : t.SameButLone t') (nested : Bool) :
    t.renderIn rs nested = t'.renderIn rs nested := by
  induction t using Tree.induction generalizing t' nested with
  | rule r =>
    cases h with
    | rule => rfl
  | group combinator negated children ih =>
    cases h with
    | lone _ combinator' _ hchild => rw [renderIn, renderIn, ih _ List.mem_cons_self hchild]
    | group _ _ hchildren =>
      have hboth := (List.forall₂_and_left _ _).mpr ⟨ih, hchildren⟩
      exact renderIn_group_congr (hboth.imp fun t t' ht => ht.1 ht.2) combinator negated nested

/-- The normal form of a tree is written like the tree, alone and among siblings, and is refused with
the same error; a tree that can be written has one without superfluous groups. Groups of one child may
have any combinator. No renderer can tell the difference. -/
theorem render_normalise (rs : Renderers) (t : Tree) :
    t.normalise.render rs = t.render rs ∧
    (∀ nested, t.normalise.renderIn rs nested = t.renderIn rs nested) ∧
    (∀ f, t.render rs = .ok f → t.normalise.Normal) ∧
    ∀ t', t.SameButLone t' → t'.render rs = t.render rs := by
  refine ⟨renderIn_normalise t false, renderIn_normalise t, fun f hf => normal_normalise hf, ?_⟩
  intro t' h
  exact (h.renderIn_eq false).symm

/-- Four groups of one child between siblings, a negation among them, and renderers that are not the
standard ones; and a group without children at the bottom, which is refused all the same. -/
theorem render_normalise_nested :
    let t (c c' : Combinator) (bottom : Tree) : Tree := .group .and false [
      .group c false [.group c' false [.group .or false [
        .rule ⟨"a", .equal, .single (.int 1)⟩, .rule ⟨"b", .isNull, .none⟩]]],
      .group c' true [.group c false [.group .or false [.rule ⟨"c", .isNull, .none⟩, bottom]]]]
    let last : Tree := .rule ⟨"d", .isNull, .none⟩
    let f : Fragment := ⟨"(LOWER(a) = LOWER(?) OR b IS NULL) AND NOT (c IS NULL OR d IS NULL)",
      [.int 1], ["a", "b", "c", "d"]⟩
    (t .and .or last).normalise = .group .and false [
      .group .or false [.rule ⟨"a", .equal, .single (.int 1)⟩, .rule ⟨"b", .isNull, .none⟩],
      .group .or true [.rule ⟨"c", .isNull, .none⟩, last]] ∧
    (t .and .or last).normalise.render .caselessFirst = .ok f ∧
    (t .and .or last).SameButLone (t .or .and last) ∧
    (t .or .and last).render .caselessFirst = .ok f ∧
    (t .and .or (.group .or true [])).normalise.render .caselessFirst = .error .emptyGroup := by
  intro t last f
  have hsame : (t .and .or last).SameButLone (t .or .and last) := by
    refine .group .and false (.cons ?_ (.cons ?_ .nil))
    · exact .lone _ _ false (.lone _ _ false (.group .or false (.cons (.rule _) (.cons (.rule _) .nil))))
    · exact .lone _ _ true (.lone _ _ false (.group .or false (.cons (.rule _) (.cons (.rule _) .nil))))
  have hwritten : (t .and .or last).render .caselessFirst = .ok f := rfl
  have hrefused : (t .and .or (.group .or true [])).render .caselessFirst = .error .emptyGroup := rfl
  refine ⟨rfl, ?_, hsame, ?_, ?_⟩
  · exact (render_normalise .caselessFirst _).1.trans hwritten
  · exact ((render_normalise .caselessFirst _).2.2.2 _ hsame).trans hwritten
  · exact (render_normalise .caselessFirst _).1.trans hrefused

end WhereClause.Tree
