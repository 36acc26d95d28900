import WhereClause.Proofs.Builder.Stages
import WhereClause.Proofs.Dialect.Entry
import WhereClause.Proofs.Policy.Walk
import WhereClause.Proofs.Tree.EmptyGroup

/-! What building a clause comes to, for every tree: which of several defects is reported, and that
nothing else stands in the way of a clause. -/
namespace WhereClause

/-- A rule that passes a policy can be written. -/
theorem Policy.exists_render_of_check {p : Policy} {t : Tree} (h : p.check t = .ok ()) :
    ∀ r ∈ t.rules, ∃ f, Renderers.standard.render r = .ok f := by
  intro r hr
  have hcheck := ((p.checkRule_eq_ok_iff r).mp (checkRule_of_check h hr)).1
  rw [Renderers.render_standard, Rule.exists_render_iff]
  exact (r.check_eq_ok_iff.mp hcheck).2

namespace Builder

/-- The token of the first screen that finds a fault in a field, at the first field in which it does. -/
def Reports (b : Builder) (fields : List String) (token : String) : Prop :=
  ∃ passed s later left field right, b.screens = passed ++ s :: later ∧
    (∀ other ∈ passed, ∀ name ∈ fields, other.fault? b.dialect name = none) ∧
    fields = left ++ field :: right ∧ (∀ name ∈ left, s.fault? b.dialect name = none) ∧
    s.fault? b.dialect field = some token

/-- Screens one after the other come to the first fault of any. -/
theorem screen_eq_findSome? (b : Builder) (f : Fragment) :
    b.screen f =
      match b.screens.findSome? fun s => f.identifiers.findSome? (s.fault? b.dialect) with
      | some token => .error ⟨token⟩
      | none => .ok () := by
  rw [screen, List.forM_eq_forM]
  induction b.screens with
  | nil => rfl
  | cons s rest ih =>
    rw [List.forM_cons, List.findSome?_cons, Screen.check]
    cases f.identifiers.findSome? (s.fault? b.dialect) with
    | some token => rfl
    | none => exact ih

theorem screen_eq_error_iff (b : Builder) (f : Fragment) (token : String) :
    b.screen f = .error ⟨token⟩ ↔ b.Reports f.identifiers token := by
  have hfirst : b.screen f = .error ⟨token⟩ ↔ (b.screens.findSome? fun s =>
      f.identifiers.findSome? (s.fault? b.dialect)) = some token := by
    rw [screen_eq_findSome?]
    split
    · rename_i other h
      simp [h]
    · rename_i h
      simp [h]
  simp only [hfirst, List.findSome?_eq_some_iff, List.findSome?_eq_none_iff, Reports]
  constructor
  · rintro ⟨passed, s, later, hscreens, ⟨left, field, right, hfields, htoken, hleft⟩, hpassed⟩
    exact ⟨passed, s, later, left, field, right, hscreens, hpassed, hfields, hleft, htoken⟩
  · rintro ⟨passed, s, later, left, field, right, hscreens, hpassed, hfields, hleft, htoken⟩
    exact ⟨passed, s, later, hscreens, ⟨left, field, right, hfields, htoken, hleft⟩, hpassed⟩

/-- The outcome of building a clause: the violation of the policy if there is one, else the empty
group if there is one, else what the screens report, and else the text and values of the tree. -/
inductive Verdict (b : Builder) (t : Tree) : Except BuildError Clause → Prop where
  | invalid {v : Violation} (h : b.policy.check t = .error v) : Verdict b t (.error (.invalid v))
  | emptyGroup (h : b.policy.check t = .ok ()) (he : t.HasEmptyGroup) :
      Verdict b t (.error .emptyGroup)
  | intrusion {token : String} (h : b.policy.check t = .ok ()) (he : ¬ t.HasEmptyGroup)
      (ht : b.Reports (t.rules.map Rule.field) token) : Verdict b t (.error (.intrusion ⟨token⟩))
  | built {f : Fragment} (h : b.policy.check t = .ok ()) (he : ¬ t.HasEmptyGroup)
      (hs : ∀ s ∈ b.screens, ∀ r ∈ t.rules, s.fault? b.dialect r.field = none)
      (hf : t.render b.renderers = .ok f) : Verdict b t (.ok ⟨f.sql, f.params⟩)

variable {b : Builder} {t : Tree}

theorem Verdict.exists_fragment (hb : b.renderers = .standard) (h : b.policy.check t = .ok ())
    (he : ¬ t.HasEmptyGroup) :
    ∃ f, t.render b.renderers = .ok f ∧ f.identifiers = t.rules.map Rule.field := by
  rw [hb]
  rcases Tree.emptyOrWritten_of_rules (Policy.exists_render_of_check h) with ⟨hempty, _⟩ | ⟨_, hf⟩
  · exact absurd hempty he
  · obtain ⟨f, hf⟩ := hf false
    exact ⟨f, hf, Tree.identifiers_of_renderIn hf⟩

theorem screen_eq_ok_iff_of_identifiers {f : Fragment}
    (hids : f.identifiers = t.rules.map Rule.field) : b.screen f = .ok () ↔
      ∀ s ∈ b.screens, ∀ r ∈ t.rules, s.fault? b.dialect r.field = none := by
  simp only [screen_eq_ok_iff, hids, List.forall_mem_map]

theorem Verdict.build_eq {result : Except BuildError Clause} (hb : b.renderers = .standard)
    (h : b.Verdict t result) : b.build t = result := by
  cases h with
  | invalid h => rw [build, h]; rfl
  | emptyGroup h he =>
    have hempty : t.render b.renderers = .error .emptyGroup := by
      rw [hb]
      rcases Tree.emptyOrWritten_of_rules (Policy.exists_render_of_check h) with ⟨_, hf⟩ | ⟨hne, _⟩
      · exact hf false
      · exact absurd he hne
    rw [build, h, hempty]
    rfl
  | intrusion h he ht =>
    obtain ⟨f, hf, hids⟩ := exists_fragment hb h he
    rw [← hids, ← screen_eq_error_iff] at ht
    rw [build, h, hf]
    simp only [bind, Except.bind, Except.mapError, ht]
  | built h he hs hf =>
    obtain ⟨f, hf', hids⟩ := exists_fragment hb h he
    rw [hf, Except.ok.injEq] at hf'
    subst hf'
    exact build_eq_ok_iff.mpr ⟨h, _, hf, (screen_eq_ok_iff_of_identifiers hids).mpr hs, rfl⟩

theorem exists_verdict (hb : b.renderers = .standard) (t : Tree) :
    ∃ result, b.Verdict t result := by
  cases h : b.policy.check t with
  | error v => exact ⟨_, .invalid h⟩
  | ok u =>
    by_cases he : t.HasEmptyGroup
    · exact ⟨_, .emptyGroup h he⟩
    · obtain ⟨f, hf, hids⟩ := Verdict.exists_fragment hb h he
      cases hscreen : b.screen f with
      | error i =>
        have ht := (screen_eq_error_iff b f i.token).mp hscreen
        rw [hids] at ht
        exact ⟨_, .intrusion h he ht⟩
      | ok u => exact ⟨_, .built h he ((screen_eq_ok_iff_of_identifiers hids).mp hscreen) hf⟩

/-- Exactly one outcome is a verdict, and building comes to it. -/
theorem build_eq_iff (hb : b.renderers = .standard) (result : Except BuildError Clause) :
    b.build t = result ↔ b.Verdict t result := by
  refine ⟨?_, Verdict.build_eq hb⟩
  rintro rfl
  obtain ⟨result, hresult⟩ := exists_verdict hb t
  rwa [hresult.build_eq hb]

/-- Building with the standard renderers, for any denylists, policy and screens. A clause is built
exactly if the policy lets the tree pass, no group is empty and every screen passes every field, and
it is the written tree. Else the violation of the policy is reported before an empty group, and an
empty group before the first screen with a fault, at the first field with one. On the denylist the
first entry counts that matches. A rule is never without a renderer, nor of a shape that it refuses. -/
theorem verdict_of_build (d : Dialect) (p : Policy) (screens : List Screen) (t : Tree) :
    let b : Builder := { dialect := d, policy := p, screens := screens }
    (∀ result, b.build t = result ↔ b.Verdict t result) ∧
    ((∃ c, b.build t = .ok c) ↔ p.check t = .ok () ∧ ¬ t.HasEmptyGroup ∧
      ∀ s ∈ screens, ∀ r ∈ t.rules, s.fault? d r.field = none) ∧
    (∀ identifier token, Screen.denylist.fault? d identifier = some token ↔
      ∃ passed e later, d.entries = passed ++ e :: later ∧
        (∀ other ∈ passed, other.occursIn (Text.lower identifier) = false) ∧
        e.occursIn (Text.lower identifier) = true ∧ e.text = token) ∧
    (∀ field operator, b.build t ≠ .error (.unsupportedOperator field operator)) ∧
    ∀ field operator expected found,
      b.build t ≠ .error (.unsupportedShape field operator expected found) := by
  intro b
  have hiff (result : Except BuildError Clause) : b.build t = result ↔ b.Verdict t result :=
    build_eq_iff rfl result
  refine ⟨hiff, ?_, d.denied?_eq_some_iff, ?_, ?_⟩
  · simp only [hiff]
    constructor
    · rintro ⟨c, hc⟩
      cases hc with
      | built h he hs hf => exact ⟨h, he, hs⟩
    · rintro ⟨h, he, hs⟩
      obtain ⟨f, hf, _⟩ := Verdict.exists_fragment (b := b) rfl h he
      exact ⟨_, .built h he hs hf⟩
  · intro field operator h
    cases (hiff _).mp h
  · intro field operator expected found h
    cases (hiff _).mp h

/-- The first screen decides, though the second finds a fault in a field further left. An empty group
comes before either, and a rule without its value before the group. Without the field to its right, that
fault is reported, and a field without one is written. -/
theorem verdict_of_build_spaced :
    let b : Builder := { dialect := .sqlite, policy := .standard, screens := [.denylist, .plain] }
    let t (more : List Tree) : Tree := .group .and false
      (.rule ⟨"first name", .isNull, .none⟩ :: .rule ⟨"a;b or", .isNull, .none⟩ :: more)
    let empty : Tree := .group .or true []
    b.Verdict (t []) (.error (.intrusion ⟨";"⟩)) ∧
      b.Verdict (t [empty]) (.error .emptyGroup) ∧
      b.Verdict (t [empty, .rule ⟨"c", .equal, .none⟩])
        (.error (.invalid (.operandShape "c" .equal .one .none))) ∧
      b.Verdict (.rule ⟨"first name", .isNull, .none⟩) (.error (.intrusion ⟨" "⟩)) ∧
      b.Verdict (.rule ⟨"t.name", .isNull, .none⟩) (.ok ⟨"t.name IS NULL", []⟩) := by
  intro b t empty
  have hverdict (t : Tree) (result : Except BuildError Clause) :=
    (verdict_of_build .sqlite .standard [.denylist, .plain] t).1 result
  exact ⟨(hverdict _ _).mp rfl, (hverdict _ _).mp rfl, (hverdict _ _).mp rfl, (hverdict _ _).mp rfl,
    (hverdict _ _).mp rfl⟩

end Builder

end WhereClause
