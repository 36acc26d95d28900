import WhereClause.Proofs.Fragment.Seam
import WhereClause.Proofs.Tree.NormalForm
import WhereClause.Proofs.Tree.Spelling

/-! What can be read back from the text and the values of a tree: its normal form, with each rule as
it was written. -/
namespace WhereClause

namespace Condition

/-- Whether a condition is a chain, which ends only where its surroundings say so. -/
def isChain : Condition → Bool
  | and _ _ | or _ _ => true
  | predicate _ | parens _ | not _ => false

variable {c d : Condition} {nested negated negated' : Bool}

theorem enclosed_ne_predicate (hc : c.isChain = true) (p : Predicate) :
    (c.parensIf (nested && !negated)).negateIf negated ≠ .predicate p := by
  cases nested <;> cases negated <;> rintro h <;> cases h
  cases hc

/-- A negated group is not written like the negation of anything but a chain. -/
theorem enclosed_ne_not (hc : c.isChain = true) (hd : d.isChain = false) :
    (c.parensIf (nested && !negated)).negateIf negated ≠ .not (.parens d) := by
  cases negated with
  | false =>
    cases nested <;> rintro h <;> cases h
    cases hc
  | true =>
    rw [Bool.not_true, Bool.and_false]
    rintro h
    cases h
    exact Bool.false_ne_true (hd.symm.trans hc)

theorem enclosed_inj (hc : c.isChain = true) (hd : d.isChain = true)
    (h : (c.parensIf (nested && !negated)).negateIf negated =
      (d.parensIf (nested && !negated')).negateIf negated') : negated = negated' ∧ c = d := by
  cases nested <;> cases negated <;> cases negated' <;> cases h <;> first
    | exact ⟨rfl, rfl⟩
    | cases hc
    | cases hd

end Condition

namespace Combinator
variable {combinator combinator' : Combinator} {c c' d d' : Condition} {cs cs' : List Condition}

theorem isChain_condition (combinator : Combinator) (c d : Condition) :
    (combinator.condition c d).isChain = true := by
  cases combinator <;> rfl

theorem condition_inj (h : combinator.condition c d = combinator'.condition c' d') :
    combinator = combinator' ∧ c = c' ∧ d = d' := by
  cases combinator <;> cases combinator' <;> simp_all [condition]

/-- A chain of two or more conditions, none of which is one itself, has one combinator and one list
of members. -/
theorem chain_inj (hcs : ∀ x ∈ d :: cs, x.isChain = false) (hcs' : ∀ x ∈ d' :: cs', x.isChain = false)
    (h : combinator.chain c (d :: cs) = combinator'.chain c' (d' :: cs')) :
    combinator = combinator' ∧ c = c' ∧ d :: cs = d' :: cs' := by
  induction cs generalizing c c' d d' cs' with
  | nil =>
    obtain ⟨rfl, rfl, hrest⟩ := condition_inj h
    cases cs' with
    | nil => exact ⟨rfl, rfl, by rw [chain, chain] at hrest; rw [hrest]⟩
    | cons e cs' =>
      have hd := hcs d List.mem_cons_self
      rw [chain, chain] at hrest
      rw [hrest, isChain_condition] at hd
      cases hd
  | cons e cs ih =>
    obtain ⟨rfl, rfl, hrest⟩ := condition_inj h
    cases cs' with
    | nil =>
      have hd := hcs' d' List.mem_cons_self
      rw [chain, chain] at hrest
      rw [← hrest, isChain_condition] at hd
      cases hd
    | cons e' cs' =>
      obtain ⟨_, rfl, htail⟩ := ih (fun x hx => hcs x (List.mem_cons_of_mem _ hx))
        (fun x hx => hcs' x (List.mem_cons_of_mem _ hx)) hrest
      exact ⟨rfl, rfl, by rw [htail]⟩

end Combinator

theorem Operator.segments_eq_of_comparison_eq {op op' : Operator}
    (h : op.comparison = op'.comparison) (vs : List Value) :
    op.form.segments vs = op'.form.segments vs := by
  cases op <;> cases op' <;> first
    | rfl
    | cases h

theorem Fragment.Traced.unique {f g : Fragment} {ss : List Segment} (hf : f.Traced ss)
    (hg : g.Traced ss) : f = g := by
  obtain ⟨sql, params, identifiers⟩ := f
  obtain ⟨sql', params', identifiers'⟩ := g
  rw [mk.injEq]
  exact ⟨hf.sql.trans hg.sql.symm, hf.params.trans hg.params.symm,
    hf.identifiers.trans hg.identifiers.symm⟩

/-- What a rule is written as is settled by what it says. -/
theorem Rule.eq_of_predicate_eq {r r' : Rule} {f f' : Fragment} (h : r.render = .ok f)
    (h' : r'.render = .ok f') (he : r.predicate = r'.predicate) : r.field = r'.field ∧ f = f' := by
  have hfield : r.field = r'.field := congrArg Predicate.field he
  have hcomparison : r.operator.comparison = r'.operator.comparison :=
    congrArg Predicate.comparison he
  have hsegments : r.segments = r'.segments := by
    rw [segments, segments, hfield, he, Operator.segments_eq_of_comparison_eq hcomparison]
  have htraced := traced_segments_of_render h
  rw [hsegments] at htraced
  exact ⟨hfield, htraced.unique (traced_segments_of_render h')⟩

namespace Tree

/-- The trees have the same shape, the same negations, and the same combinators wherever there is
something to join. Each rule has the field of its counterpart and is written as the same fragment. -/
inductive Alike : Tree → Tree → Prop where
  | rule {r r' : Rule} {f : Fragment} (hfield : r.field = r'.field) (h : r.render = .ok f)
      (h' : r'.render = .ok f) : Alike (.rule r) (.rule r')
  | lone (combinator combinator' : Combinator) (negated : Bool) {child child' : Tree}
      (h : Alike child child') :
      Alike (.group combinator negated [child]) (.group combinator' negated [child'])
  | group (combinator : Combinator) (negated : Bool) {children children' : List Tree}
      (h : List.Forall₂ Alike children children') :
      Alike (.group combinator negated children) (.group combinator negated children')

variable {nested : Bool} {t t' : Tree} {c : Condition}

/-- Among siblings, and wherever it is not an open group, a tree is not written as a chain. -/
theorem WrittenAs.isChain_eq_false (h : t.WrittenAs nested c)
    (hclosed : nested = true ∨ t.isOpen = false) : c.isChain = false := by
  induction t using Tree.induction generalizing nested c with
  | rule r =>
    cases h
    rfl
  | group combinator negated children ih =>
    cases negated with
    | true => cases h <;> rfl
    | false =>
      have hnested : nested = true := hclosed.resolve_right nofun
      subst hnested
      cases h with
      | lone _ _ _ hchild => exact ih _ List.mem_cons_self hchild (Or.inl rfl)
      | siblings _ _ _ hall => rfl

/-- The three ways in which a tree without superfluous groups is written. -/
theorem Normal.cases_of_writtenAs (ht : t.Normal) (h : t.WrittenAs nested c) :
    (∃ r f, t = .rule r ∧ r.render = .ok f ∧ c = .predicate r.predicate) ∨
    (∃ combinator child d, t = .group combinator true [child] ∧ child.Normal ∧
      child.WrittenAs false d ∧ d.isChain = false ∧ c = .not (.parens d)) ∨
    ∃ combinator negated children first second rest, t = .group combinator negated children ∧
      (∀ child ∈ children, child.Normal) ∧
      List.Forall₂ (WrittenAs true) children (first :: second :: rest) ∧
      c = ((combinator.chain first (second :: rest)).parensIf (nested && !negated)).negateIf
        negated := by
  cases ht with
  | rule r =>
    cases h with
    | rule _ hr => exact Or.inl ⟨r, _, rfl, hr, rfl⟩
  | @negation combinator child hopen hchild =>
    cases h with
    | @lone _ _ _ _ d hd =>
      rw [Bool.not_true, Bool.and_false] at hd
      exact Or.inr (Or.inl ⟨combinator, child, d, rfl, hchild, hd,
        hd.isChain_eq_false (Or.inr hopen), rfl⟩)
    | siblings _ _ _ hall => cases hall.length_eq
  | siblings combinator negated hlen hchildren =>
    cases h with
    | lone _ _ _ hd => simp at hlen
    | siblings _ _ _ hall =>
      exact Or.inr (Or.inr ⟨combinator, negated, _, _, _, _, rfl, hchildren, hall, rfl⟩)

theorem isChain_chain (combinator : Combinator) (first second : Condition) (rest : List Condition) :
    (combinator.chain first (second :: rest)).isChain = true :=
  combinator.isChain_condition _ _

/-- Siblings are not written as chains. -/
theorem isChain_eq_false_of_mem {children : List Tree} {cs : List Condition}
    (h : List.Forall₂ (WrittenAs true) children cs) : ∀ c ∈ cs, c.isChain = false := by
  induction h with
  | nil => simp
  | cons hc _ ih => exact List.forall_mem_cons.mpr ⟨hc.isChain_eq_false (Or.inl rfl), ih⟩

/-- Siblings are alike if each of them is alike to every tree that is written as it is. -/
theorem forall₂_alike {children children' : List Tree} {cs : List Condition}
    (ih : ∀ t ∈ children, ∀ t' : Tree, t'.Normal → ∀ c, t.WrittenAs true c → t'.WrittenAs true c →
      t.Alike t')
    (hnormal : ∀ t' ∈ children', t'.Normal) (h : List.Forall₂ (WrittenAs true) children cs)
    (h' : List.Forall₂ (WrittenAs true) children' cs) : List.Forall₂ Alike children children' := by
  induction h generalizing children' with
  | nil =>
    rw [List.forall₂_nil_right_iff.mp h']
    exact .nil
  | @cons t c rest cs ht _ ihrest =>
    obtain ⟨t', rest', ht', hrest', rfl⟩ := List.forall₂_cons_right_iff.mp h'
    obtain ⟨hnormal, hnormals⟩ := List.forall_mem_cons.mp hnormal
    exact .cons (ih t List.mem_cons_self t' hnormal c ht ht')
      (ihrest (fun t ht => ih t (List.mem_cons_of_mem _ ht)) hnormals hrest')

/-- Trees without superfluous groups that are written as one condition are alike. The induction is on
the first tree; the second has been written in the same way each time. -/
theorem Normal.alike (ht : t.Normal) (ht' : t'.Normal) (h : t.WrittenAs nested c)
    (h' : t'.WrittenAs nested c) : t.Alike t' := by
  induction t using Tree.induction generalizing t' nested c with
  | rule r =>
    cases h with
    | rule _ hr =>
      rcases ht'.cases_of_writtenAs h' with ⟨r', f', rfl, hr', he⟩ | ⟨_, _, d, _, _, _, _, he⟩ |
        ⟨combinator, _, _, first, second, rest, _, _, _, he⟩
      · obtain ⟨hfield, rfl⟩ := Rule.eq_of_predicate_eq hr hr' (Condition.predicate.inj he)
        exact .rule hfield hr hr'
      · cases he
      · exact absurd he.symm (Condition.enclosed_ne_predicate (isChain_chain ..) _)
  | group combinator negated children ih =>
    rcases ht.cases_of_writtenAs h with ⟨_, _, he, _, _⟩ | ⟨_, child, d, he, hchild, hd, hchain, rfl⟩ |
      ⟨_, _, _, first, second, rest, he, hchildren, hall, rfl⟩
    · cases he
    · cases he
      rcases ht'.cases_of_writtenAs h' with ⟨r', f', rfl, hr', he⟩ |
        ⟨combinator', child', d', rfl, hchild', hd', _, he⟩ |
        ⟨combinator', _, _, first', second', rest', _, _, _, he⟩
      · cases he
      · cases he
        exact .lone combinator combinator' true (ih child List.mem_cons_self hchild hchild' hd hd')
      · exact absurd he.symm (Condition.enclosed_ne_not (isChain_chain ..) hchain)
    · cases he
      rcases ht'.cases_of_writtenAs h' with ⟨r', f', rfl, hr', he⟩ |
        ⟨combinator', child', d', rfl, hchild', hd', hchain', he⟩ |
        ⟨combinator', _, children', first', second', rest', rfl, hchildren', hall', he⟩
      · exact absurd he (Condition.enclosed_ne_predicate (isChain_chain ..) _)
      · exact absurd he (Condition.enclosed_ne_not (isChain_chain ..) hchain')
      · obtain ⟨rfl, hchains⟩ := Condition.enclosed_inj (isChain_chain ..) (isChain_chain ..) he
        have hmembers := isChain_eq_false_of_mem hall
        have hmembers' := isChain_eq_false_of_mem hall'
        obtain ⟨rfl, rfl, hrest⟩ := Combinator.chain_inj (List.forall_mem_cons.mp hmembers).2
          (List.forall_mem_cons.mp hmembers').2 hchains
        rw [← hrest] at hall'
        refine .group combinator negated (forall₂_alike ?_ hchildren' hall hall')
        intro t hmem t' hnormal c hc hc'
        exact ih t hmem (hchildren t hmem) hnormal hc hc'

/-- Trees that are alike are written alike. -/
theorem Alike.renderIn_eq (h : t.Alike t') (nested : Bool) :
    t.renderIn .standard nested = t'.renderIn .standard nested := by
  induction t using Tree.induction generalizing t' nested with
  | rule r =>
    cases h with
    | rule _ hr hr' =>
      rw [renderIn, renderIn, Renderers.render_standard, Renderers.render_standard, hr, hr']
  | group combinator negated children ih =>
    cases h with
    | lone _ combinator' _ hchild =>
      rw [renderIn, renderIn, ih _ List.mem_cons_self hchild]
    | group _ _ hchildren =>
      have hboth := (List.forall₂_and_left _ _).mpr ⟨ih, hchildren⟩
      exact renderIn_group_congr (hboth.imp fun t t' ht => ht.1 ht.2) combinator negated nested

end Tree

/-- The text and the values of a tree can be read back. Two trees whose fields pass the screens have
the same text and the same values exactly if their normal forms are alike: of the same shape, with the
same negations and combinators, and rule by rule with the same field and the same fragment. Floats are
compared as data, which tells the two zeros apart but no NaN from another. -/
theorem Tree.alike_iff_of_render {d d' : Dialect} (hd : d ∈ Dialect.known) (hd' : d' ∈ Dialect.known)
    {t t' : Tree} {f f' : Fragment} (h : t.render .standard = .ok f)
    (h' : t'.render .standard = .ok f')
    (hfields : ∀ r ∈ t.rules, Screen.plain.fault? d r.field = none ∧
      Screen.denylist.fault? d r.field = none)
    (hfields' : ∀ r ∈ t'.rules, Screen.plain.fault? d' r.field = none ∧
      Screen.denylist.fault? d' r.field = none) :
    f.sql = f'.sql ∧ f.params = f'.params ↔ t.normalise.Alike t'.normalise := by
  have hspells {d : Dialect} (hd : d ∈ Dialect.known) {t : Tree} {f : Fragment}
      (h : t.render .standard = .ok f)
      (hfields : ∀ r ∈ t.rules, Screen.plain.fault? d r.field = none ∧
        Screen.denylist.fault? d r.field = none) :
      ∃ c, t.normalise.WrittenAs false c ∧ c.Read f.sql f.params := by
    refine exists_writtenAs_of_renderIn ((renderIn_normalise t false).trans h) fun r hr => ?_
    rw [rules_normalise] at hr
    exact Identifier.name_of_accepted hd (hfields r hr).1 (hfields r hr).2
  constructor
  · rintro ⟨hsql, hparams⟩
    obtain ⟨c, hc, hread⟩ := hspells hd h hfields
    obtain ⟨c', hc', hread'⟩ := hspells hd' h' hfields'
    rw [hsql, hparams] at hread
    rw [hread'.unique hread] at hc'
    exact (normal_normalise h).alike (normal_normalise h') hc hc'
  · intro halike
    have hrender := halike.renderIn_eq false
    rw [renderIn_normalise, renderIn_normalise] at hrender
    have he : f = f' := Except.ok.inj (h.symm.trans (hrender.trans h'))
    rw [he]
    exact ⟨rfl, rfl⟩

/-- A negation inside a group of its own beside one that is not, and a pattern that two operators
write in the same way. -/
theorem Tree.alike_of_render_patterns :
    let pattern (operator : Operator) (text : String) : Tree :=
      .rule ⟨"t.c", operator, .single (.text text)⟩
    let pair : List Tree := [.rule ⟨"a", .between, .list [.int 1, .float 0.5]⟩,
      .rule ⟨"b", .isNull, .none⟩]
    let t : Tree := .group .or false [.group .and true [.group .or false pair],
      .group .and false [pattern .beginsWith "%x"]]
    let t' : Tree := .group .or false [.group .or true pair, pattern .contains "x"]
    let f : Fragment := ⟨"NOT (a BETWEEN ? AND ? OR b IS NULL) OR t.c LIKE ?",
      [.int 1, .float 0.5, .text "%x%"], ["a", "b", "t.c"]⟩
    Dialect.mysql ∈ Dialect.known ∧ Dialect.sqlite ∈ Dialect.known ∧
      t.render .standard = .ok f ∧ t'.render .standard = .ok f ∧
      (∀ r ∈ t.rules, Screen.plain.fault? .mysql r.field = none ∧
        Screen.denylist.fault? .mysql r.field = none) ∧
      (∀ r ∈ t'.rules, Screen.plain.fault? .sqlite r.field = none ∧
        Screen.denylist.fault? .sqlite r.field = none) ∧
      t.normalise.Alike t'.normalise := by
  have hmysql : Dialect.mysql ∈ Dialect.known := by decide
  have hsqlite : Dialect.sqlite ∈ Dialect.known := by decide
  refine ⟨hmysql, hsqlite, rfl, rfl, by decide +kernel, by decide +kernel, ?_⟩
  exact (Tree.alike_iff_of_render hmysql hsqlite rfl rfl (by decide +kernel)
    (by decide +kernel)).mp ⟨rfl, rfl⟩

end WhereClause
