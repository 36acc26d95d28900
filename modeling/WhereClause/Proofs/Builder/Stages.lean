import WhereClause.Builder
import WhereClause.Proofs.Fragment.Provenance

/-! The stages of building a clause: when each of them lets a tree pass. -/
namespace WhereClause

theorem Screen.check_eq_ok_iff (s : Screen) (d : Dialect) (identifiers : List String) :
    s.check d identifiers = .ok () ↔ ∀ identifier ∈ identifiers, s.fault? d identifier = none := by
  rw [check, ← List.findSome?_eq_none_iff]
  cases identifiers.findSome? (s.fault? d) with
  | none => simp
  | some token => simp

theorem Screen.check_singleton_eq_error_iff (s : Screen) (d : Dialect) (identifier token : String) :
    s.check d [identifier] = .error ⟨token⟩ ↔ s.fault? d identifier = some token := by
  rw [check, List.findSome?_singleton]
  cases s.fault? d identifier with
  | none => simp
  | some found => simp

namespace Builder
variable {b : Builder} {t : Tree} {c : Clause}

/-- Every screen passes every identifier. -/
theorem screen_eq_ok_iff (b : Builder) (f : Fragment) :
    b.screen f = .ok () ↔
      ∀ s ∈ b.screens, ∀ identifier ∈ f.identifiers, s.fault? b.dialect identifier = none := by
  rw [screen, List.forM_eq_forM]
  induction b.screens with
  | nil => simp [pure, Except.pure]
  | cons s rest ih =>
    rw [List.forM_cons, List.forall_mem_cons, ← ih, ← Screen.check_eq_ok_iff]
    cases s.check b.dialect f.identifiers with
    | error e => simp [bind, Except.bind]
    | ok u => simp [bind, Except.bind]

/-- A clause is the written tree, once the policy and the screens have let it pass. -/
theorem build_eq_ok_iff : b.build t = .ok c ↔
    b.policy.check t = .ok () ∧
      ∃ f, t.render b.renderers = .ok f ∧ b.screen f = .ok () ∧ c = ⟨f.sql, f.params⟩ := by
  simp only [build, Traversal.bind_eq_ok_iff, Traversal.mapError_eq_ok_iff, pure, Except.pure,
    Except.ok.injEq]
  constructor
  · rintro ⟨_, hcheck, f, hf, _, hscreen, rfl⟩
    exact ⟨hcheck, f, hf, hscreen, rfl⟩
  · rintro ⟨hcheck, f, hf, hscreen, rfl⟩
    exact ⟨(), hcheck, f, hf, (), hscreen, rfl⟩

theorem buildText_eq_ok_iff {text : String} {read? : String → Option Json} :
    b.buildText text read? = .ok c ↔ ∃ t, Tree.ofText text read? = .ok t ∧ b.build t = .ok c := by
  simp only [buildText, Traversal.bind_eq_ok_iff, Traversal.mapError_eq_ok_iff]

/-- With the standard renderers, the fields of a tree are what the screens see. -/
theorem fault?_eq_none_of_build (hb : b.renderers = .standard) (h : b.build t = .ok c) {r : Rule}
    (hr : r ∈ t.rules) {s : Screen} (hs : s ∈ b.screens) : s.fault? b.dialect r.field = none := by
  obtain ⟨_, f, hf, hscreen, _⟩ := build_eq_ok_iff.mp h
  rw [hb] at hf
  have hids := Tree.identifiers_of_renderIn hf
  refine (screen_eq_ok_iff b f).mp hscreen s hs r.field ?_
  rw [hids]
  exact List.mem_map_of_mem hr

end Builder

end WhereClause
