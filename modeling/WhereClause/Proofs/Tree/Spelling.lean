import WhereClause.Proofs.Renderers
import WhereClause.Proofs.Rule.Reading
import WhereClause.Proofs.Tree.Rendering

/-! The condition that each tree is written as: chains of siblings, negations, and parentheses around
the groups that need them. The text of a tree spells that condition. -/
namespace WhereClause

/-- A condition at any level is a condition. -/
theorem Derives.disjunction {level : Level} {c : Condition} {ts : List Token}
    (h : Derives level c ts) : Derives .disjunction c ts := by
  cases level with
  | disjunction => exact h
  | conjunction => exact .conjunction h
  | negation => exact .conjunction (.negation h)
  | primary => exact .conjunction (.negation (.primary h))

namespace Condition

def negateIf (negated : Bool) (c : Condition) : Condition :=
  if negated then .not (.parens c) else c

def parensIf (wrapped : Bool) (c : Condition) : Condition :=
  if wrapped then .parens c else c

end Condition

namespace Combinator

def keyword : Combinator → Keyword
  | and => .and
  | or => .or

/-- The level at which a combinator stands. -/
def level : Combinator → Level
  | and => .conjunction
  | or => .disjunction

theorem exists_word (combinator : Combinator) :
    ∃ word, combinator.separator.toList = ' ' :: (word ++ [' ']) ∧
      Token.ofText? word [] = some [.keyword combinator.keyword] := by
  cases combinator with
  | and => exact ⟨['A', 'N', 'D'], rfl, rfl⟩
  | or => exact ⟨['O', 'R'], rfl, rfl⟩

def condition : Combinator → Condition → Condition → Condition
  | and => .and
  | or => .or

/-- One or more conditions joined, grouped to the right. -/
def chain (combinator : Combinator) (first : Condition) : List Condition → Condition
  | [] => first
  | next :: rest => combinator.condition first (combinator.chain next rest)

end Combinator

namespace Tree

/-- What is written among siblings binds no weaker than NOT. Alone it may be any condition. -/
def level (nested : Bool) : Level :=
  if nested then .negation else .disjunction

/-- The condition that a tree is written as, among siblings or alone. -/
inductive WrittenAs : Bool → Tree → Condition → Prop where
  | rule (nested : Bool) {r : Rule} {f : Fragment} (h : r.render = .ok f) :
      WrittenAs nested (.rule r) (.predicate r.predicate)
  | lone (nested : Bool) (combinator : Combinator) (negated : Bool) {child : Tree} {c : Condition}
      (h : WrittenAs (nested && !negated) child c) :
      WrittenAs nested (.group combinator negated [child]) (c.negateIf negated)
  | siblings (nested : Bool) (combinator : Combinator) (negated : Bool) {children : List Tree}
      {first second : Condition} {rest : List Condition}
      (h : List.Forall₂ (WrittenAs true) children (first :: second :: rest)) :
      WrittenAs nested (.group combinator negated children)
        (((combinator.chain first (second :: rest)).parensIf (nested && !negated)).negateIf negated)

end Tree

/-- The text of the fragment with its values spells the condition at the level. -/
def Fragment.Spells (f : Fragment) (level : Level) (c : Condition) : Prop :=
  ∃ ts, Token.ofText? f.sql.toList f.params = some ts ∧ Derives level c ts

namespace Fragment.Spells
variable {f g : Fragment} {level : Level} {c d : Condition}

theorem disjunction (h : f.Spells level c) : f.Spells .disjunction c := by
  obtain ⟨ts, hts, hc⟩ := h
  exact ⟨ts, hts, hc.disjunction⟩

theorem parenthesize (h : f.Spells .disjunction c) :
    f.parenthesize.Spells .negation (.parens c) := by
  obtain ⟨ts, hts, hc⟩ := h
  have hnone : Token.ofText? [] [] = some [] := rfl
  have htext := Token.ofText?_enclosed hnone hts
  exact ⟨_, by simpa [Fragment.parenthesize] using htext, .primary (.parens hc)⟩

theorem negate (h : f.Spells .disjunction c) : f.negate.Spells .negation (.not (.parens c)) := by
  obtain ⟨ts, hts, hc⟩ := h
  have hnot : Token.ofText? ['N', 'O', 'T', ' '] [] = some [.keyword .not] := rfl
  have htext := Token.ofText?_enclosed hnot hts
  exact ⟨_, by simpa [Fragment.negate] using htext, .not (.primary (.parens hc))⟩

theorem parenthesizeIf (h : f.Spells level c) (wrapped : Bool) :
    (f.parenthesizeIf wrapped).Spells (Tree.level wrapped) (c.parensIf wrapped) := by
  cases wrapped with
  | false => exact h.disjunction
  | true => exact h.disjunction.parenthesize

/-- The parentheses of a negation are its own, so that its body is written as if alone. -/
theorem negateIf {nested negated : Bool} (h : f.Spells (Tree.level (nested && !negated)) c) :
    (f.negateIf negated).Spells (Tree.level nested) (c.negateIf negated) := by
  cases negated with
  | false =>
    rw [Bool.not_false, Bool.and_true] at h
    exact h
  | true =>
    rw [Bool.not_true, Bool.and_false] at h
    cases nested with
    | false => exact h.negate.disjunction
    | true => exact h.negate

theorem combine (combinator : Combinator) (hf : f.Spells .negation c)
    (hg : g.Spells combinator.level d) :
    (f.keyword combinator.separator ++ g).Spells combinator.level (combinator.condition c d) := by
  obtain ⟨ts, hts, hc⟩ := hf
  obtain ⟨us, hus, hd⟩ := hg
  obtain ⟨word, hseparator, hword⟩ := combinator.exists_word
  have hsql : (f.keyword combinator.separator ++ g).sql.toList =
      f.sql.toList ++ ' ' :: (word ++ ' ' :: g.sql.toList) := by
    change (f.sql ++ combinator.separator ++ g.sql).toList = _
    simp [hseparator]
  have htext := Token.ofText?_append_space hts (Token.ofText?_append_space hword hus)
  rw [← hsql] at htext
  cases combinator with
  | and => exact ⟨_, htext, .and hc hd⟩
  | or => exact ⟨_, htext, .or (.negation hc) hd⟩

/-- Siblings that each bind no weaker than NOT are read as a chain. -/
theorem join (combinator : Combinator) {fs : List Fragment} {cs : List Condition}
    (h : List.Forall₂ (Spells · .negation) fs (c :: cs)) :
    (Fragment.join combinator fs).Spells combinator.level (combinator.chain c cs) := by
  induction cs generalizing c fs with
  | nil =>
    obtain ⟨f, gs, hf, hgs, rfl⟩ := List.forall₂_cons_right_iff.mp h
    rw [List.forall₂_nil_right_iff.mp hgs]
    obtain ⟨ts, hts, hc⟩ := hf
    cases combinator with
    | and => exact ⟨ts, hts, .negation hc⟩
    | or => exact ⟨ts, hts, .conjunction (.negation hc)⟩
  | cons d cs ih =>
    obtain ⟨f, gs, hf, hgs, rfl⟩ := List.forall₂_cons_right_iff.mp h
    have hrest := ih hgs
    obtain ⟨g, gs, _, _, rfl⟩ := List.forall₂_cons_right_iff.mp hgs
    exact combine combinator hf hrest

end Fragment.Spells

/-- The induction is on how the tree was written. A lone child is read at the level of its group,
and siblings at the level of NOT. -/
theorem Tree.exists_writtenAs_of_renderIn {nested : Bool} {t : Tree} {f : Fragment}
    (h : t.renderIn .standard nested = .ok f)
    (hnames : ∀ r ∈ t.rules, Name r.field.toList (Token.lex [] r.field.toList)) :
    ∃ c, t.WrittenAs nested c ∧ f.Spells (level nested) c := by
  refine Tree.renderIn_induction (motive := fun nested t f =>
    (∀ r ∈ t.rules, Name r.field.toList (Token.lex [] r.field.toList)) →
      ∃ c, t.WrittenAs nested c ∧ f.Spells (level nested) c) ?_ ?_ ?_ h hnames
  · intro nested r f hr hnames
    rw [Renderers.render_standard] at hr
    have hname := hnames r (by simp [rules])
    obtain ⟨ts, hspelled, hts⟩ := Rule.exists_spelled_of_render hr hname
    refine ⟨_, .rule nested hr, ts, hts, ?_⟩
    have hprimary := Derives.predicate hspelled
    cases nested with
    | false => exact hprimary.disjunction
    | true => exact .primary hprimary
  · intro nested combinator negated child f ih hnames
    have hchild := fun r hr => hnames r (mem_rules_group.mpr ⟨child, List.mem_cons_self, hr⟩)
    obtain ⟨c, hchild, hspells⟩ := ih hchild
    exact ⟨_, .lone nested combinator negated hchild, hspells.negateIf⟩
  · intro nested combinator negated children fs hlen hall hnames
    have hchildren (t : Tree) (ht : t ∈ children) :
        ∀ r ∈ t.rules, Name r.field.toList (Token.lex [] r.field.toList) := by
      intro r hr
      exact hnames r (mem_rules_group.mpr ⟨t, ht, hr⟩)
    have hparts : ∃ cs, List.Forall₂ (WrittenAs true) children cs ∧
        List.Forall₂ (Fragment.Spells · .negation) fs cs := by
      clear hlen hnames
      induction hall with
      | nil => exact ⟨[], .nil, .nil⟩
      | cons ht _ ih =>
        obtain ⟨c, hc, hspells⟩ := ht (hchildren _ List.mem_cons_self)
        obtain ⟨cs, hcs, hall⟩ := ih fun t ht => hchildren t (List.mem_cons_of_mem _ ht)
        exact ⟨c :: cs, .cons hc hcs, .cons hspells hall⟩
    obtain ⟨cs, hcs, hall⟩ := hparts
    rcases cs with _ | ⟨first, _ | ⟨second, rest⟩⟩
    · simp [hcs.length_eq] at hlen
    · simp [hcs.length_eq] at hlen
    · exact ⟨_, .siblings nested combinator negated hcs,
        ((Fragment.Spells.join combinator hall).parenthesizeIf (nested && !negated)).negateIf⟩

end WhereClause
