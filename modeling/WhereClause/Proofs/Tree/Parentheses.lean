import WhereClause.Proofs.Dialect.Denylist
import WhereClause.Proofs.Fragment.Parentheses
import WhereClause.Proofs.Text.Matching

/-! The parentheses of a written tree: they match, none of them is to spare, and their number can be told
from the tree. A group gets a pair for its negation, or for standing among siblings. -/
namespace WhereClause
open Text

namespace Tree

/-- What a group shows to what is inside it: whether it is negated, and how many children it has. -/
structure Outline where
  negated : Bool
  size : Nat

/-- A group in its place, with the groups around it from the nearest outwards. -/
structure Site where
  group : Outline
  around : List Outline

/-- The group is nothing but its child. -/
def Outline.isTransparent (o : Outline) : Bool :=
  !o.negated && o.size == 1

/-- The nearest group around that is more than its child has other children too. -/
def amongSiblings (around : List Outline) : Bool :=
  (around.dropWhile Outline.isTransparent).head?.any (2 ≤ ·.size)

/-- The children of the group are joined among other children, with no NOT to hold them together. -/
def Site.isWrapped (s : Site) : Bool :=
  !s.group.negated && decide (2 ≤ s.group.size) && amongSiblings s.around

mutual

/-- The groups of a tree in their places, within some groups around it. -/
def sites (around : List Outline) : Tree → List Site
  | rule _ => []
  | group _ negated children =>
    ⟨⟨negated, children.length⟩, around⟩ :: sitesOfAll (⟨negated, children.length⟩ :: around) children

def sitesOfAll (around : List Outline) : List Tree → List Site
  | [] => []
  | t :: rest => t.sites around ++ sitesOfAll around rest

end

theorem sitesOfAll_eq_flatMap (around : List Outline) (siblings : List Tree) :
    sitesOfAll around siblings = siblings.flatMap (sites around) := by
  induction siblings with
  | nil => rfl
  | cons t rest ih => rw [sitesOfAll, List.flatMap_cons, ih]

/-- The pairs of parentheses that a tree needs: one for each negation, one for each list of an IN, and
one for each group whose children stand among others. -/
def pairs (around : List Outline) (t : Tree) : Nat :=
  (t.sites around).countP (·.group.negated) +
    t.rules.countP (fun r => r.operator = .inList ∨ r.operator = .notInList) +
    (t.sites around).countP Site.isWrapped

theorem pairs_rule (around : List Outline) (r : Rule) :
    (rule r).pairs around = if r.operator = .inList ∨ r.operator = .notInList then 1 else 0 := by
  simp [pairs, sites, rules, List.countP_cons]

/-- A group needs the pairs of its children, and at most one of its own. -/
theorem pairs_group (around : List Outline) (combinator : Combinator) (negated : Bool)
    (children : List Tree) :
    (group combinator negated children).pairs around =
      (if negated then 1 else 0) +
        (if Site.isWrapped ⟨⟨negated, children.length⟩, around⟩ then 1 else 0) +
        (children.map (pairs (⟨negated, children.length⟩ :: around))).sum := by
  have hsum : (children.map (pairs (⟨negated, children.length⟩ :: around))).sum =
      (sitesOfAll (⟨negated, children.length⟩ :: around) children).countP (·.group.negated) +
        (rulesOfAll children).countP (fun r => r.operator = .inList ∨ r.operator = .notInList) +
        (sitesOfAll (⟨negated, children.length⟩ :: around) children).countP Site.isWrapped := by
    rw [sitesOfAll_eq_flatMap, rulesOfAll_eq_flatMap, List.countP_flatMap, List.countP_flatMap,
      List.countP_flatMap, ← List.sum_map_add, ← List.sum_map_add]
    rfl
  rw [hsum, pairs, sites, rules, List.countP_cons, List.countP_cons]
  dsimp only
  omega

theorem amongSiblings_lone (negated : Bool) (around : List Outline) :
    amongSiblings (⟨negated, 1⟩ :: around) = (amongSiblings around && !negated) := by
  cases negated with
  | false => simp [amongSiblings, Outline.isTransparent]
  | true => simp [amongSiblings, Outline.isTransparent]

theorem amongSiblings_of_two_le (negated : Bool) {size : Nat} (hsize : 2 ≤ size)
    (around : List Outline) : amongSiblings (⟨negated, size⟩ :: around) = true := by
  have hone : size ≠ 1 := by omega
  simp [amongSiblings, Outline.isTransparent, hone, hsize]

end Tree

namespace Fragment
variable {f : Fragment}

theorem count_opening_join (combinator : Combinator) (fs : List Fragment) :
    (join combinator fs).sql.toList.count '(' = (fs.map (·.sql.toList.count '(')).sum := by
  fun_induction join combinator fs with
  | case1 => rfl
  | case2 f => simp
  | case3 f rest _ ih =>
    have hsep : combinator.separator.toList.count '(' = 0 := by cases combinator <;> decide
    rw [toList_sql_keyword_append, List.count_append, List.count_append, hsep, ih, Nat.zero_add,
      List.map_cons, List.sum_cons]

theorem count_opening_parenthesizeIf (wrapped : Bool) (f : Fragment) :
    (f.parenthesizeIf wrapped).sql.toList.count '(' =
      (if wrapped then 1 else 0) + f.sql.toList.count '(' := by
  cases wrapped with
  | false => exact (Nat.zero_add _).symm
  | true =>
    show f.parenthesize.sql.toList.count '(' = _
    rw [toList_sql_parenthesize]
    simp [Nat.add_comm]

theorem count_opening_negateIf (negated : Bool) (f : Fragment) :
    (f.negateIf negated).sql.toList.count '(' =
      (if negated then 1 else 0) + f.sql.toList.count '(' := by
  cases negated with
  | false => exact (Nat.zero_add _).symm
  | true =>
    show f.negate.sql.toList.count '(' = _
    rw [toList_sql_negate]
    simp [Nat.add_comm]

theorem sparing_join (combinator : Combinator) {fs : List Fragment}
    (h : ∀ f ∈ fs, Sparing f.sql.toList) : Sparing (join combinator fs).sql.toList :=
  join_induction (motive := Sparing) (fun _ ha => ha.sparing) (fun _ _ ha hb => ha.append hb)
    combinator h

/-- Siblings are not enclosed together: the first of them ends where the combinator begins. -/
theorem not_isEnclosed_join (combinator : Combinator) {fs : List Fragment} (hlen : 2 ≤ fs.length)
    (h : ∀ f ∈ fs, Sparing f.sql.toList) : ¬ IsEnclosed (join combinator fs).sql.toList := by
  match fs with
  | [] => simp at hlen
  | [f] => simp at hlen
  | f :: g :: rest =>
    have hsep : ∃ word, combinator.separator.toList = ' ' :: word := by
      cases combinator <;> exact ⟨_, rfl⟩
    obtain ⟨word, hsep⟩ := hsep
    have hfirst := (h f List.mem_cons_self).balanced
    rw [join, toList_sql_keyword_append, hsep, List.cons_append]
    · exact hfirst.not_isEnclosed_append _
    · exact List.cons_ne_nil g rest

/-- A pair around a fragment is not to spare if the fragment is not enclosed as it is. Among siblings it
may be; alone it is enclosed only by its NOT, and so not as a whole. -/
theorem sparing_close (h : Sparing f.sql.toList) (hopen : ¬ IsEnclosed f.sql.toList)
    (nested negated : Bool) :
    Sparing ((f.parenthesizeIf (nested && !negated)).negateIf negated).sql.toList ∧
      (nested = false →
        ¬ IsEnclosed ((f.parenthesizeIf (nested && !negated)).negateIf negated).sql.toList) := by
  cases negated with
  | true =>
    have hnot : IsFlat "NOT ".toList := by decide
    have hword : IsFlat "NOT".toList := by decide
    rw [Bool.not_true, Bool.and_false]
    show Sparing f.negate.sql.toList ∧ (_ → ¬ IsEnclosed f.negate.sql.toList)
    rw [toList_sql_negate]
    refine ⟨hnot.sparing.append (h.enclose hopen), fun _ => ?_⟩
    exact hword.balanced.not_isEnclosed_append _
  | false =>
    cases nested with
    | false => exact ⟨h, fun _ => hopen⟩
    | true =>
      show Sparing f.parenthesize.sql.toList ∧ _
      rw [toList_sql_parenthesize]
      exact ⟨h.enclose hopen, nofun⟩

end Fragment

namespace Rule
variable {r : Rule} {f : Fragment}

/-- The text of a rule has no pair to spare, and the first thing after its field is a blank. -/
theorem sparing_of_render (h : r.render = .ok f) (hflat : IsFlat r.field.toList) :
    Sparing f.sql.toList ∧ ¬ IsEnclosed f.sql.toList := by
  rw [toList_sql_of_render h]
  constructor
  · rcases r.operator.list_or_isFlat hflat r.predicate.values with
      ⟨-, before, list, hbefore, hlist, htext⟩ | ⟨-, htext⟩
    · have hword : IsFlat " IN ".toList := by decide
      have hopen : ¬ IsEnclosed list := by
        rintro ⟨inside, rfl, -⟩
        exact hlist.1 List.mem_cons_self
      rw [htext]
      exact (hbefore.append hword).sparing.append (hlist.sparing.enclose hopen)
    · exact htext.sparing
  · obtain ⟨text, symbols, more, hsegments, htext⟩ := r.operator.segments_eq r.predicate.values
    rw [hsegments, List.flatMap_cons, Segment.symbols, htext, List.cons_append]
    exact hflat.balanced.not_isEnclosed_append _

theorem count_opening_of_render (h : r.render = .ok f) (hflat : IsFlat r.field.toList) :
    f.sql.toList.count '(' =
      if r.operator = .inList ∨ r.operator = .notInList then 1 else 0 := by
  rw [toList_sql_of_render h]
  rcases r.operator.list_or_isFlat hflat r.predicate.values with
    ⟨hop, before, list, hbefore, hlist, htext⟩ | ⟨hop, htext⟩
  · have hword : IsFlat " IN ".toList := by decide
    have hnone := List.count_eq_zero.mpr (hbefore.append hword).1
    have hlist := List.count_eq_zero.mpr hlist.1
    rw [htext, if_pos hop, List.count_append, hnone, List.count_append, List.count_cons, hlist]
    rfl
  · rw [if_neg hop, List.count_eq_zero.mpr htext.1]

end Rule

namespace Tree
variable {nested : Bool} {t : Tree} {f : Fragment}

theorem sparing_of_renderIn (h : t.renderIn .standard nested = .ok f)
    (hflat : ∀ r ∈ t.rules, IsFlat r.field.toList) :
    Sparing f.sql.toList ∧ (nested = false → ¬ IsEnclosed f.sql.toList) := by
  refine renderIn_induction (motive := fun nested t f => (∀ r ∈ t.rules, IsFlat r.field.toList) →
    Sparing f.sql.toList ∧ (nested = false → ¬ IsEnclosed f.sql.toList)) ?_ ?_ ?_ h hflat
  · intro _ r f hr hflat
    rw [Renderers.render_standard] at hr
    exact (Rule.sparing_of_render hr (hflat r List.mem_cons_self)).imp_right fun h _ => h
  · intro nested combinator negated child f ih hflat
    have hchild := ih fun r hr => hflat r (mem_rules_group.mpr ⟨child, List.mem_cons_self, hr⟩)
    cases negated with
    | false =>
      rw [Bool.not_false, Bool.and_true] at hchild
      exact hchild
    | true =>
      rw [Bool.not_true, Bool.and_false] at hchild
      have hclosed := Fragment.sparing_close hchild.1 (hchild.2 rfl) false true
      exact hclosed.imp_right fun hopen _ => hopen rfl
  · intro nested combinator negated children fs hlen hall hflat
    have hsparing : ∀ f ∈ fs, Sparing f.sql.toList := by
      intro f hf
      obtain ⟨t, ht, hsparing⟩ := Traversal.exists_mem_of_forall₂ hall hf
      exact (hsparing fun r hr => hflat r (mem_rules_group.mpr ⟨t, ht, hr⟩)).1
    have hopen := Fragment.not_isEnclosed_join combinator (hall.length_eq ▸ hlen) hsparing
    exact Fragment.sparing_close (Fragment.sparing_join combinator hsparing) hopen nested negated

/-- The opening parentheses of a written tree are those that it needs where it stands. -/
theorem count_opening_of_renderIn (h : t.renderIn .standard nested = .ok f)
    (hflat : ∀ r ∈ t.rules, IsFlat r.field.toList) {around : List Outline}
    (hnested : amongSiblings around = nested) : f.sql.toList.count '(' = t.pairs around := by
  refine renderIn_induction (motive := fun nested t f => (∀ r ∈ t.rules, IsFlat r.field.toList) →
    ∀ around, amongSiblings around = nested → f.sql.toList.count '(' = t.pairs around)
    ?_ ?_ ?_ h hflat around hnested
  · intro _ r f hr hflat around _
    rw [Renderers.render_standard] at hr
    rw [pairs_rule, Rule.count_opening_of_render hr (hflat r List.mem_cons_self)]
  · rintro _ combinator negated child f ih hflat around rfl
    have hchild := ih (fun r hr => hflat r (mem_rules_group.mpr ⟨child, List.mem_cons_self, hr⟩))
      (⟨negated, 1⟩ :: around) (amongSiblings_lone negated around)
    rw [Fragment.count_opening_negateIf, hchild, pairs_group]
    simp [Site.isWrapped]
  · rintro _ combinator negated children fs hlen hall hflat around rfl
    have hsum : fs.map (·.sql.toList.count '(') =
        children.map (pairs (⟨negated, children.length⟩ :: around)) := by
      have hinner := amongSiblings_of_two_le negated hlen around
      generalize (⟨negated, children.length⟩ : Outline) :: around = inner at hinner
      have hboth := (List.forall₂_and_left _ _).mpr
        ⟨fun t ht r hr => hflat r (mem_rules_group.mpr ⟨t, ht, hr⟩), hall⟩
      clear hlen hall hflat
      induction hboth with
      | nil => rfl
      | cons ht _ ih => rw [List.map_cons, List.map_cons, ih, ht.2 ht.1 inner hinner]
    rw [Fragment.count_opening_negateIf, Fragment.count_opening_parenthesizeIf,
      Fragment.count_opening_join, hsum, pairs_group]
    simp [Site.isWrapped, hlen, Bool.and_comm, Nat.add_assoc]

end Tree

/-- An identifier that the denylist of a database lets pass has no parentheses. -/
theorem Dialect.isFlat_of_denied?_eq_none {d : Dialect} (hd : d ∈ known) {name : String}
    (h : d.denied? name = none) : IsFlat name.toList := by
  have htokens : ∀ d ∈ known, "(" ∈ d.deniedTokens ∧ ")" ∈ d.deniedTokens := by decide
  have hnone {c : Char} (hc : c.toLower = c) (htoken : String.singleton c ∈ d.deniedTokens) :
      c ∉ name.toList := by
    intro hmem
    have habsent := ((denied?_eq_none_iff d name).mp h).1 _ htoken
    have hlower : c ∈ lower name := by
      rw [← hc]
      exact List.mem_map_of_mem hmem
    rw [← Bool.not_eq_true, contains_iff_infix, String.toList_singleton,
      List.singleton_infix_iff] at habsent
    exact habsent hlower
  exact ⟨hnone rfl (htokens d hd).1, hnone rfl (htokens d hd).2⟩

namespace Tree

/-- In the text of a tree whose fields have no parentheses, as none has that the denylist of a database
lets pass, all parentheses match. No pair stands directly in another one, and none encloses the whole.
There is one pair for each negated group, one for each IN, and one for each group of several children
that is not negated and stands among others, groups of one child left aside. -/
theorem matched_of_render :
    (∀ (t : Tree) (f : Fragment), t.render .standard = .ok f →
      (∀ r ∈ t.rules, IsFlat r.field.toList) →
      (∀ p, p <+: f.sql.toList → p.count ')' ≤ p.count '(') ∧
      f.sql.toList.count '(' = f.sql.toList.count ')' ∧
      (∀ i j, Matched f.sql.toList i j → ¬ Matched f.sql.toList (i + 1) (j - 1)) ∧
      ¬ Matched f.sql.toList 0 (f.sql.toList.length - 1) ∧
      {pair : Nat × Nat | Matched f.sql.toList pair.1 pair.2}.ncard =
        (t.sites []).countP (·.group.negated) +
          t.rules.countP (fun r => r.operator = .inList ∨ r.operator = .notInList) +
          (t.sites []).countP Site.isWrapped) ∧
    ∀ d ∈ Dialect.known, ∀ name, d.denied? name = none → IsFlat name.toList := by
  refine ⟨fun t f h hflat => ?_, fun d hd name => Dialect.isFlat_of_denied?_eq_none hd⟩
  obtain ⟨hsparing, hopen⟩ := sparing_of_renderIn h hflat
  obtain ⟨hclosed, hwithin⟩ := hsparing.balanced
  refine ⟨fun p hp => ?_, ?_, fun i j => hsparing.not_matched, ?_, ?_⟩
  · have hpos := hwithin p hp
    rw [surplus] at hpos
    omega
  · rw [surplus] at hclosed
    omega
  · exact fun hwhole => hopen rfl (isEnclosed_of_matched hwhole)
  · rw [hsparing.balanced.ncard_matched]
    exact count_opening_of_renderIn h hflat rfl

/-- A NOT around siblings and one around a group of one child, a list, and groups of one child between a
group and its siblings: four pairs, and seven groups. -/
theorem matched_of_render_chained :
    let t : Tree := .group .or false [.group .and true [
      .group .and false [.group .or false [.group .or false [
        .rule ⟨"a", .isNull, .none⟩, .rule ⟨"b", .notInList, .list [.int 1, .int 2]⟩]]],
      .group .and true [.group .or false [.rule ⟨"c", .equal, .single (.int 3)⟩]]]]
    let a := "NOT ((a IS NULL OR b NOT IN (?, ?)) AND NOT (c = ?))".toList
    (∃ f, t.render .standard = .ok f ∧ f.sql.toList = a) ∧
      (∀ r ∈ t.rules, IsFlat r.field.toList) ∧
      (t.sites []).length = 7 ∧
      {pair : Nat × Nat | Matched a pair.1 pair.2}.ncard = 2 + 1 + 1 ∧
      Matched a 28 33 ∧ ¬ Matched a 29 32 ∧ ¬ Matched a 0 (a.length - 1) ∧
      Dialect.postgres ∈ Dialect.known ∧ Dialect.postgres.denied? "a.b" = none ∧
      IsFlat "a.b".toList := by
  intro t a
  have hwritten : ∃ f, t.render .standard = .ok f ∧ f.sql.toList = a := ⟨_, rfl, rfl⟩
  have hflat : ∀ r ∈ t.rules, IsFlat r.field.toList := by decide
  obtain ⟨f, hf, hsql⟩ := hwritten
  obtain ⟨_, _, hsingle, hwhole, hcount⟩ := matched_of_render.1 t f hf hflat
  rw [hsql] at hsingle hwhole hcount
  have hlist : Matched a 28 33 :=
    ⟨a.take 28, "?, ?".toList, a.drop 34, rfl, rfl, rfl, IsFlat.balanced (by decide)⟩
  have hknown : Dialect.postgres ∈ Dialect.known := by decide
  have hpassed : Dialect.postgres.denied? "a.b" = none := by decide +kernel
  refine ⟨⟨f, hf, hsql⟩, hflat, rfl, hcount, hlist, hsingle 28 33 hlist, hwhole, hknown, hpassed, ?_⟩
  exact matched_of_render.2 _ hknown _ hpassed

end Tree

end WhereClause
