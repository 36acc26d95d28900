import WhereClause.Proofs.Builder.Stages
import WhereClause.Proofs.Policy.Walk

/-! Values and the text of a clause. Two trees that differ in nothing but values are checked, written
and screened alike: blanking out the values leaves no difference between them. -/
namespace WhereClause

/-- The trees differ in nothing but the values of their operands. -/
inductive Tree.SameButValues : Tree → Tree → Prop where
  | rule (field : String) (operator : Operator) {operand operand' : Operand}
      (h : operand.shape = operand'.shape) :
      SameButValues (.rule ⟨field, operator, operand⟩) (.rule ⟨field, operator, operand'⟩)
  | group (combinator : Combinator) (negated : Bool) {children children' : List Tree}
      (h : List.Forall₂ SameButValues children children') :
      SameButValues (.group combinator negated children) (.group combinator negated children')

/-- One value in the place of each. -/
def blankAll (values : List Value) : List Value :=
  values.map fun _ => .bool false

theorem blankAll_eq_iff {vs ws : List Value} : blankAll vs = blankAll ws ↔ vs.length = ws.length := by
  simp [blankAll, List.map_const']

def Operand.blank : Operand → Operand
  | none => none
  | single _ => single (.bool false)
  | list values => list (blankAll values)

def Rule.blank (r : Rule) : Rule :=
  { r with operand := r.operand.blank }

def Fragment.blank (f : Fragment) : Fragment :=
  { f with params := blankAll f.params }

def Clause.blank (c : Clause) : Clause :=
  { c with params := blankAll c.params }

theorem Operand.blank_eq_iff {o o' : Operand} : o.blank = o'.blank ↔ o.shape = o'.shape := by
  cases o <;> cases o' <;> simp [blank, shape, blankAll_eq_iff]

@[simp] theorem Operand.shape_blank (o : Operand) : o.blank.shape = o.shape := by
  cases o <;> simp [blank, shape, blankAll]

/-- Results that agree up to a map stay so, if what follows depends on no more than that. -/
theorem map_bind_congr {ε α β α' β' : Type} {φ : α → α'} {ψ : β → β'} {x y : Except ε α}
    {f g : α → Except ε β} (h : x.map φ = y.map φ)
    (hf : ∀ a b, φ a = φ b → (f a).map ψ = (g b).map ψ) : (x >>= f).map ψ = (y >>= g).map ψ := by
  cases x with
  | error e =>
    cases y with
    | error e' => cases h; rfl
    | ok b => cases h
  | ok a =>
    cases y with
    | error e' => cases h
    | ok b => exact hf a b (Except.ok.inj h)

namespace Fragment
variable {f g : Fragment}

theorem blank_eq_iff : f.blank = g.blank ↔
    f.sql = g.sql ∧ f.params.length = g.params.length ∧ f.identifiers = g.identifiers := by
  rw [blank, blank, mk.injEq, blankAll_eq_iff]

theorem blank_bind (h : f.blank = g.blank) (v w : Value) : (f.bind v).blank = (g.bind w).blank := by
  obtain ⟨hsql, hparams, hids⟩ := blank_eq_iff.mp h
  exact blank_eq_iff.mpr ⟨by simp [bind, hsql], by simp [bind, hparams], hids⟩

theorem blank_keyword (h : f.blank = g.blank) (text : String) :
    (f.keyword text).blank = (g.keyword text).blank := by
  obtain ⟨hsql, hparams, hids⟩ := blank_eq_iff.mp h
  exact blank_eq_iff.mpr ⟨by simp [keyword, hsql], hparams, hids⟩

/-- Of a list of values only the length is written. -/
theorem blank_bindList (h : f.blank = g.blank) {vs ws : List Value} (hlen : vs.length = ws.length) :
    (f.bindList vs).blank = (g.bindList ws).blank := by
  induction vs generalizing f g ws with
  | nil => rwa [List.eq_nil_of_length_eq_zero hlen.symm]
  | cons v vs ih =>
    obtain ⟨w, ws, rfl⟩ := List.exists_cons_of_length_eq_add_one hlen.symm
    have hrest := Nat.succ.inj hlen
    cases vs with
    | nil =>
      rw [List.eq_nil_of_length_eq_zero hrest.symm]
      exact blank_bind h v w
    | cons v' vs =>
      obtain ⟨w', ws, rfl⟩ := List.exists_cons_of_length_eq_add_one hrest.symm
      exact ih (blank_keyword (blank_bind h v w) ", ") hrest

theorem blank_append {f' g' : Fragment} (hf : f.blank = f'.blank) (hg : g.blank = g'.blank) :
    (f ++ g).blank = (f' ++ g').blank := by
  obtain ⟨hsql, hparams, hids⟩ := blank_eq_iff.mp hf
  obtain ⟨hsql', hparams', hids'⟩ := blank_eq_iff.mp hg
  change (f.append g).blank = (f'.append g').blank
  refine blank_eq_iff.mpr ⟨?_, ?_, ?_⟩
  · rw [append, append, hsql, hsql']
  · rw [append, append, List.length_append, List.length_append, hparams, hparams']
  · rw [append, append, hids, hids']

theorem blank_join (combinator : Combinator) {fs gs : List Fragment}
    (h : fs.map blank = gs.map blank) : (join combinator fs).blank = (join combinator gs).blank := by
  induction fs generalizing gs with
  | nil => rw [List.map_eq_nil_iff.mp h.symm]
  | cons f fs ih =>
    obtain ⟨g, gs, rfl, hg, hgs⟩ := List.map_eq_cons_iff.mp h.symm
    cases fs with
    | nil =>
      rw [List.map_eq_nil_iff.mp hgs]
      exact hg.symm
    | cons f' fs =>
      obtain ⟨g', gs, rfl, -, -⟩ := List.map_eq_cons_iff.mp hgs
      exact blank_append (blank_keyword hg.symm combinator.separator) (ih hgs.symm)

theorem blank_parenthesizeIf (h : f.blank = g.blank) (wrapped : Bool) :
    (f.parenthesizeIf wrapped).blank = (g.parenthesizeIf wrapped).blank := by
  obtain ⟨hsql, hparams, hids⟩ := blank_eq_iff.mp h
  cases wrapped with
  | false => exact h
  | true => exact blank_eq_iff.mpr ⟨by simp [parenthesizeIf, parenthesize, hsql], hparams, hids⟩

theorem blank_negateIf (h : f.blank = g.blank) (negated : Bool) :
    (f.negateIf negated).blank = (g.negateIf negated).blank := by
  obtain ⟨hsql, hparams, hids⟩ := blank_eq_iff.mp h
  cases negated with
  | false => exact h
  | true => exact blank_eq_iff.mpr ⟨by simp [negateIf, negate, hsql], hparams, hids⟩

end Fragment

/-- Whatever is written or reported for a rule, its values have no part in it. -/
theorem Rule.render_blank (r : Rule) :
    r.blank.render.map Fragment.blank = r.render.map Fragment.blank := by
  obtain ⟨field, operator, operand⟩ := r
  have hlength (vs : List Value) : (blankAll vs).length = vs.length := List.length_map _
  simp only [blank, render]
  cases operand with
  | none => rfl
  | single v => cases operator.form <;> rfl
  | list vs =>
    cases operator.form with
    | comparison text | pattern text before after | test text =>
      simp [Operand.blank, Operand.shape, hlength, Except.map]
    | membership text =>
      cases vs with
      | nil => rfl
      | cons v vs =>
        exact congrArg Except.ok (Fragment.blank_keyword
          (Fragment.blank_bindList rfl (hlength (v :: vs))) ")")
    | range text =>
      rcases vs with _ | ⟨low, _ | ⟨high, _ | ⟨third, vs⟩⟩⟩
      · rfl
      · rfl
      · rfl
      · simp [Operand.blank, blankAll, Operand.shape, Except.map]

namespace Tree
variable {rs : Renderers}

theorem SameButValues.mapRules_blank {t t' : Tree} (h : t.SameButValues t') :
    t.mapRules Rule.blank = t'.mapRules Rule.blank := by
  induction t using Tree.induction generalizing t' with
  | rule r =>
    cases h with
    | rule field operator h => rw [mapRules, mapRules, Rule.blank, Rule.blank, Operand.blank_eq_iff.mpr h]
  | group combinator negated children ih =>
    cases h with
    | group _ _ h =>
      rw [mapRules, mapRules, mapRulesOfAll_eq_map, mapRulesOfAll_eq_map]
      congr 1
      induction h with
      | nil => rfl
      | cons ht _ ihrest =>
        rw [List.map_cons, List.map_cons, ih _ List.mem_cons_self ht,
          ihrest fun t hmem => ih t (List.mem_cons_of_mem _ hmem)]

theorem blank_renderAll {siblings : List Tree}
    (h : ∀ t ∈ siblings, ((t.mapRules Rule.blank).renderIn rs true).map Fragment.blank =
      (t.renderIn rs true).map Fragment.blank) :
    (renderAll rs (siblings.map (mapRules Rule.blank))).map (List.map Fragment.blank) =
      (renderAll rs siblings).map (List.map Fragment.blank) := by
  induction siblings with
  | nil => rfl
  | cons t rest ih =>
    rw [List.map_cons, renderAll, renderAll]
    refine map_bind_congr (h t List.mem_cons_self) fun f g hf => ?_
    have hrest := ih fun t ht => h t (List.mem_cons_of_mem _ ht)
    refine map_bind_congr hrest fun fs gs hfs => congrArg Except.ok ?_
    rw [List.map_cons, List.map_cons, hf, hfs]

/-- If values have no part in how rules are written, they have none in how trees are. -/
theorem blank_renderIn
    (h : ∀ r, (rs.render r.blank).map Fragment.blank = (rs.render r).map Fragment.blank)
    (t : Tree) (nested : Bool) : ((t.mapRules Rule.blank).renderIn rs nested).map Fragment.blank =
      (t.renderIn rs nested).map Fragment.blank := by
  induction t using Tree.induction generalizing nested with
  | rule r => exact h r
  | group combinator negated children ih =>
    rw [mapRules, mapRulesOfAll_eq_map]
    rcases children with _ | ⟨child, _ | ⟨second, rest⟩⟩
    · rfl
    · have hchild := ih child List.mem_cons_self (nested && !negated)
      exact map_bind_congr (f := fun f => .ok (f.negateIf negated))
        (g := fun f => .ok (f.negateIf negated)) hchild
        fun f g hf => congrArg Except.ok (Fragment.blank_negateIf hf negated)
    · have hall := blank_renderAll fun t ht => ih t ht true
      refine map_bind_congr hall fun fs gs hfs => congrArg Except.ok ?_
      exact Fragment.blank_negateIf (Fragment.blank_parenthesizeIf
        (Fragment.blank_join combinator hfs) _) negated

end Tree

theorem Policy.checkRule_blank (p : Policy) (r : Rule) : p.checkRule r.blank = p.checkRule r := by
  have hcheck : r.blank.check = r.check := by simp only [Rule.check, Rule.blank, Operand.shape_blank]
  rw [checkRule, checkRule, hcheck]
  rfl

theorem Renderers.render_blank (ops : List Operator) (r : Rule) :
    ((⟨ops.map .standard⟩ : Renderers).render r.blank).map Fragment.blank =
      ((⟨ops.map .standard⟩ : Renderers).render r).map Fragment.blank := by
  rw [render_map_standard, render_map_standard]
  have hiff : r.blank.operator ∈ ops ↔ r.operator ∈ ops := Iff.rfl
  by_cases h : r.operator ∈ ops
  · rw [if_pos h, if_pos (hiff.mpr h)]
    exact r.render_blank
  · rw [if_neg h, if_neg (mt hiff.mp h)]
    rfl

namespace Builder

/-- Blanking out the values of a tree changes nothing in its clause but the values. -/
theorem build_mapRules_blank {b : Builder} {ops : List Operator}
    (hb : b.renderers = ⟨ops.map .standard⟩) (t : Tree) :
    (b.build (t.mapRules Rule.blank)).map Clause.blank = (b.build t).map Clause.blank := by
  have hrender : ((t.mapRules Rule.blank).render b.renderers).map Fragment.blank =
      (t.render b.renderers).map Fragment.blank := by
    rw [hb]
    exact Tree.blank_renderIn (Renderers.render_blank ops) t false
  rw [build, build, b.policy.check_mapRules (b.policy.checkRule_blank)]
  cases b.policy.check t with
  | error v => rfl
  | ok u =>
    refine map_bind_congr (x := (t.mapRules Rule.blank).render b.renderers)
      (y := t.render b.renderers) hrender fun f g hf => ?_
    obtain ⟨hsql, hparams, hids⟩ := Fragment.blank_eq_iff.mp hf
    have hscreen : b.screen f = b.screen g := by rw [screen, screen, hids]
    rw [hscreen]
    cases b.screen g with
    | error i => rfl
    | ok u =>
      refine congrArg Except.ok ?_
      rw [Clause.blank, Clause.blank, Clause.mk.injEq, blankAll_eq_iff]
      exact ⟨hsql, hparams⟩

/-- Values have no influence on the text of a clause, nor on what is refused. With standard renderers,
two trees that differ in nothing but values are refused for the same reason, or have clauses with the
same text and equally many values. -/
theorem build_of_sameButValues (d : Dialect) (p : Policy) (screens : List Screen)
    (ops : List Operator) {t t' : Tree} (h : t.SameButValues t') :
    let b : Builder := ⟨d, p, ⟨ops.map Renderer.standard⟩, screens⟩
    (∃ e, b.build t = .error e ∧ b.build t' = .error e) ∨
      ∃ c c', b.build t = .ok c ∧ b.build t' = .ok c' ∧ c.sql = c'.sql ∧
        c.params.length = c'.params.length := by
  intro b
  have hmap : (b.build t).map Clause.blank = (b.build t').map Clause.blank := by
    rw [← build_mapRules_blank rfl t, h.mapRules_blank, build_mapRules_blank rfl t']
  cases hc : b.build t with
  | error e =>
    rw [hc] at hmap
    cases hc' : b.build t' with
    | error e' =>
      rw [hc'] at hmap
      cases hmap
      exact Or.inl ⟨e, rfl, rfl⟩
    | ok c' => rw [hc'] at hmap; cases hmap
  | ok c =>
    rw [hc] at hmap
    cases hc' : b.build t' with
    | error e' => rw [hc'] at hmap; cases hmap
    | ok c' =>
      rw [hc'] at hmap
      have hblank := Except.ok.inj hmap
      rw [Clause.blank, Clause.blank, Clause.mk.injEq, blankAll_eq_iff] at hblank
      exact Or.inr ⟨c, c', rfl, rfl, hblank⟩

/-- A pattern that reads like SQL and a list of hostile texts stay among the values. -/
theorem build_of_sameButValues_hostile :
    let clause (pattern first second : String) : Tree := .group .or false [
      .rule ⟨"name", .contains, .single (.text pattern)⟩,
      .rule ⟨"city", .inList, .list [.text first, .text second]⟩]
    let t := clause "x" "a" "b"
    let t' := clause "' OR 1=1 --" "?" "); DROP TABLE t; --"
    let b : Builder := ⟨.mysql, .standard, ⟨[.inList, .contains].map Renderer.standard⟩, [.denylist]⟩
    let c : Clause := ⟨"name LIKE ? OR city IN (?, ?)", [.text "%x%", .text "a", .text "b"]⟩
    let c' : Clause := ⟨"name LIKE ? OR city IN (?, ?)",
      [.text "%' OR 1=1 --%", .text "?", .text "); DROP TABLE t; --"]⟩
    t.SameButValues t' ∧ b.build t = .ok c ∧ b.build t' = .ok c' ∧ c.sql = c'.sql ∧
      c.params.length = c'.params.length := by
  intro clause t t' b c c'
  have h : t.SameButValues t' :=
    .group .or false (.cons (.rule "name" .contains rfl) (.cons (.rule "city" .inList rfl) .nil))
  have hc : b.build t = .ok c := rfl
  have hc' : b.build t' = .ok c' := rfl
  rcases build_of_sameButValues .mysql .standard [.denylist] [.inList, .contains] h with
    ⟨e, he, -⟩ | ⟨d, d', hd, hd', hsame⟩
  · cases hc.symm.trans he
  · obtain rfl := Except.ok.inj (hc.symm.trans hd)
    obtain rfl := Except.ok.inj (hc'.symm.trans hd')
    exact ⟨h, hc, hc', hsame⟩

end Builder

end WhereClause
