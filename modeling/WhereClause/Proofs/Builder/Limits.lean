import WhereClause.Proofs.Fragment.Parentheses
import WhereClause.Proofs.Policy.FirstViolation
import WhereClause.Proofs.Tree.Height

/-! What a policy promises about the text of a clause: which rules it is made of, and how deep its
parentheses are nested. No group adds more than one pair of them. -/
namespace WhereClause
open Text

theorem Rule.nested_of_render {r : Rule} {f : Fragment} (h : r.render = .ok f)
    (hflat : IsFlat r.field.toList) : Nested 0 f.sql.toList := by
  rw [toList_sql_of_render h]
  rcases r.operator.list_or_isFlat hflat r.predicate.values with
    ⟨-, before, list, hbefore, hlist, htext⟩ | ⟨-, htext⟩
  · rw [htext]
    exact Nested.list hbefore hlist
  · exact htext.nested

namespace Fragment
variable {n : Nat} {f : Fragment} {fs : List Fragment}

theorem nested_join (combinator : Combinator) (h : ∀ f ∈ fs, Nested n f.sql.toList) :
    Nested n (join combinator fs).sql.toList :=
  join_induction (motive := Nested n) (fun _ ha => ha.nested.mono (Nat.zero_le n))
    (fun _ _ ha hb => ha.append hb) combinator h

/-- A negated group needs no parentheses but those of its NOT. -/
theorem nested_close (h : Nested n f.sql.toList) (nested negated : Bool) :
    Nested (n + 1) ((f.parenthesizeIf (nested && !negated)).negateIf negated).sql.toList := by
  have hnot : IsFlat "NOT ".toList := by decide
  cases negated with
  | true =>
    rw [Bool.not_true, Bool.and_false]
    show Nested (n + 1) f.negate.sql.toList
    rw [toList_sql_negate]
    exact (hnot.nested.mono (Nat.zero_le _)).append h.enclose
  | false =>
    cases nested with
    | false => exact h.mono (Nat.le_succ n)
    | true =>
      show Nested (n + 1) f.parenthesize.sql.toList
      rw [toList_sql_parenthesize]
      exact h.enclose

end Fragment

/-- The parentheses of a written tree are nested no deeper than its groups. -/
theorem Tree.nested_of_renderIn {nested : Bool} {t : Tree} {f : Fragment}
    (h : t.renderIn .standard nested = .ok f) (hflat : ∀ r ∈ t.rules, IsFlat r.field.toList) :
    Nested t.height f.sql.toList := by
  refine Tree.renderIn_induction (motive := fun _ t f =>
    (∀ r ∈ t.rules, IsFlat r.field.toList) → Nested t.height f.sql.toList) ?_ ?_ ?_ h hflat
  · intro _ r f hr hflat
    rw [Renderers.render_standard] at hr
    exact Rule.nested_of_render hr (hflat r List.mem_cons_self)
  · intro _ combinator negated child f ih hflat
    have hchild := ih fun r hr => hflat r (mem_rules_group.mpr ⟨child, List.mem_cons_self, hr⟩)
    have hheight : (group combinator negated [child]).height = child.height + 1 := by
      simp [height, heightOfAll]
    rw [hheight]
    exact Fragment.nested_close hchild false negated
  · intro nested combinator negated children fs _ hall hflat
    rw [height]
    refine Fragment.nested_close (Fragment.nested_join combinator fun f hf => ?_) nested negated
    obtain ⟨t, ht, hnested⟩ := Traversal.exists_mem_of_forall₂ hall hf
    have hchild := hnested fun r hr => hflat r (mem_rules_group.mpr ⟨t, ht, hr⟩)
    exact hchild.mono (height_le_heightOfAll ht)

/-- What a policy promises of a fragment that is written from rules. -/
structure Policy.Permits (p : Policy) (rules : List Rule) (f : Fragment) : Prop where
  /-- The text is made of the predicates of the rules, one for each, and of glue. -/
  woven : ∃ ss, f.Traced ss ∧ Woven (rules.map Rule.segments) ss
  allowed : p.allowedFields ≠ [] → ∀ name ∈ f.identifiers, name ∈ p.allowedFields
  admitted : ∀ r ∈ rules, r.operator ∉ p.deniedOperators
  count : rules.length ≤ p.maxRules
  nested : Nested (p.maxDepth + 1) f.sql.toList

theorem Policy.height_le_of_check {p : Policy} {t : Tree} (h : p.check t = .ok ()) :
    t.height ≤ p.maxDepth + 1 := by
  rw [t.height_le_iff 0]
  intro depth hdepth
  have hle := (check_eq_ok_iff.mp h).1 depth hdepth
  omega

theorem Policy.permits_of_check {p : Policy} {t : Tree} {f : Fragment} (h : p.check t = .ok ())
    (hf : t.render .standard = .ok f) (hflat : ∀ r ∈ t.rules, IsFlat r.field.toList) :
    p.Permits t.rules f := by
  obtain ⟨_, hcount, hrules⟩ := check_eq_ok_iff.mp h
  obtain ⟨ss, _, _, hrenamed⟩ := Tree.exists_renamed_of_renderIn id hf
  refine ⟨⟨ss, hrenamed.traced, hrenamed.woven⟩, ?_, ?_, hcount, ?_⟩
  · intro hne name hname
    rw [Tree.identifiers_of_renderIn hf] at hname
    obtain ⟨r, hr, rfl⟩ := List.mem_map.mp hname
    exact ((checkRule_eq_ok_iff p r).mp (hrules r hr)).2.1.resolve_left hne
  · intro r hr
    exact ((checkRule_eq_ok_iff p r).mp (hrules r hr)).2.2
  · exact (Tree.nested_of_renderIn hf hflat).mono (height_le_of_check h)

namespace Builder

/-- What a policy lets pass is written as it promises, before any screen has looked at it, and so are
the clauses that come through the screens. A clause from a text is nested no deeper than the groups of a
document may be, whatever the policy and whichever way the text is read as JSON. -/
theorem permits_of_build :
    (∀ (p : Policy) (t : Tree) (f : Fragment), p.check t = .ok () → t.render .standard = .ok f →
      (∀ r ∈ t.rules, IsFlat r.field.toList) → p.Permits t.rules f) ∧
    (∀ (b : Builder) (t : Tree) (c : Clause), b.renderers = .standard → b.build t = .ok c →
      (∀ r ∈ t.rules, IsFlat r.field.toList) →
      ∃ f, t.render .standard = .ok f ∧ c = ⟨f.sql, f.params⟩ ∧ b.policy.Permits t.rules f) ∧
    ∀ (read? : String → Option Json) (b : Builder) (text : String) (c : Clause),
      b.renderers = .standard → b.buildText text read? = .ok c →
      ∃ t, Tree.ofText text read? = .ok t ∧ b.build t = .ok c ∧
        ((∀ r ∈ t.rules, IsFlat r.field.toList) → Nested 64 c.sql.toList) := by
  refine ⟨fun p t f h hf hflat => Policy.permits_of_check h hf hflat, ?_, ?_⟩
  · intro b t c hb h hflat
    obtain ⟨hcheck, f, hf, _, rfl⟩ := build_eq_ok_iff.mp h
    rw [hb] at hf
    exact ⟨f, hf, rfl, Policy.permits_of_check hcheck hf hflat⟩
  · intro read? b text c hb h
    obtain ⟨t, ht, hbuild⟩ := buildText_eq_ok_iff.mp h
    refine ⟨t, ht, hbuild, fun hflat => ?_⟩
    obtain ⟨_, f, hf, _, rfl⟩ := build_eq_ok_iff.mp hbuild
    rw [hb] at hf
    exact (Tree.nested_of_renderIn hf hflat).mono (Tree.height_le_of_ofText ht)

/-- Two NOTs and a pair of parentheses for three groups, as deep as the policy allows, and an IN within
them; and a negated IN in a JSON text. -/
theorem permits_of_build_deepest :
    let p : Policy := ⟨["a", "b"], [.contains], 2, 3⟩
    let t : Tree := .group .and true [
      .group .or false [.rule ⟨"a", .isNull, .none⟩,
        .group .and true [.rule ⟨"b", .inList, .list [.int 1, .int 2]⟩]],
      .rule ⟨"a", .greater, .single (.int 3)⟩]
    let c : Clause := ⟨"NOT ((a IS NULL OR NOT (b IN (?, ?))) AND a > ?)", [.int 1, .int 2, .int 3]⟩
    let text := "\x7b\"not\":true,\"rules\":[" ++
      "\x7b\"field\":\"a\",\"operator\":\"in\",\"value\":\"x\"\x7d]\x7d"
    (Builder.build { dialect := .mysql, policy := p } t = .ok c ∧
      (∃ f, t.render .standard = .ok f ∧ c = ⟨f.sql, f.params⟩ ∧ p.Permits t.rules f) ∧
      surplus "NOT ((a IS NULL OR NOT (b IN (?".toList = p.maxDepth + 2) ∧
    Builder.buildText { dialect := .mysql } text Json.ofText? =
        .ok ⟨"NOT (a IN (?))", [.text "x"]⟩ ∧
      Nested 64 "NOT (a IN (?))".toList := by
  intro p t c text
  have htokens : Json.Token.ofText? text.toList = some [.beginObject, .string "not", .colon,
      .scalar (.bool true), .comma, .string "rules", .colon, .beginArray, .beginObject,
      .string "field", .colon, .string "a", .comma, .string "operator", .colon, .string "in", .comma,
      .string "value", .colon, .string "x", .endObject, .endArray, .endObject] := by
    simp [text, Json.Token.ofText?, Json.Token.scan_nil, Json.Token.scan_cons, Json.Token.isBlank,
      Json.Token.next?, Json.Token.string?]
  have htree : Tree.ofText text Json.ofText? =
      .ok (.group .and true [.rule ⟨"a", .inList, .list [.text "x"]⟩]) := by
    rw [Tree.ofText, Json.ofText?, htokens]
    rfl
  have hbuild : Builder.buildText { dialect := .mysql } text Json.ofText? =
      .ok ⟨"NOT (a IN (?))", [.text "x"]⟩ := by
    rw [buildText, htree]
    rfl
  refine ⟨⟨rfl, permits_of_build.2.1 { dialect := .mysql, policy := p } t c rfl rfl ?_, rfl⟩, hbuild, ?_⟩
  · decide
  · obtain ⟨t', ht', _, hnested⟩ := permits_of_build.2.2 Json.ofText? _ _ _ rfl hbuild
    rw [htree] at ht'
    cases ht'
    exact hnested (by decide)

end Builder

end WhereClause
