import WhereClause.Proofs.Fragment.Provenance
import WhereClause.Proofs.Rule.Shape

/-! Renderers that are put together step by step. The one that was added first among those that handle
an operator writes its rules, and whatever is added later leaves them as they are. -/
namespace WhereClause

namespace Renderer
variable {renderers more : List Renderer} {renderer : Renderer} {op : Operator}

/-- Some renderer handles the operator. -/
def Covers (renderers : List Renderer) (op : Operator) : Prop :=
  ∃ renderer ∈ renderers, renderer.handles op = true

/-- A renderer handles the operator, and none before it does. -/
def IsFirst (renderers : List Renderer) (op : Operator) (renderer : Renderer) : Prop :=
  ∃ earlier later, renderers = earlier ++ renderer :: later ∧ renderer.handles op = true ∧
    ∀ other ∈ earlier, other.handles op = false

/-- A renderer may refuse a rule whose operator it handles, but not for want of a renderer. -/
def Answers (renderer : Renderer) : Prop :=
  ∀ r field op, renderer.handles r.operator = true →
    renderer.render r ≠ .error (.unsupportedOperator field op)

theorem isFirst_iff_find? :
    IsFirst renderers op renderer ↔ renderers.find? (·.handles op) = some renderer := by
  simp only [IsFirst, List.find?_eq_some_iff_append, Bool.not_eq_true']
  constructor
  · rintro ⟨earlier, later, hsplit, hhandles, hearlier⟩
    exact ⟨hhandles, earlier, later, hsplit, hearlier⟩
  · rintro ⟨hhandles, earlier, later, hsplit, hearlier⟩
    exact ⟨earlier, later, hsplit, hhandles, hearlier⟩

theorem not_covers_iff_find? : ¬ Covers renderers op ↔ renderers.find? (·.handles op) = none := by
  simp only [Covers, List.find?_eq_none, not_exists, not_and]

theorem exists_isFirst_iff : (∃ renderer, IsFirst renderers op renderer) ↔ Covers renderers op := by
  simp only [isFirst_iff_find?]
  rw [← Option.isSome_iff_exists, ← not_iff_not, not_covers_iff_find?, Option.not_isSome_iff_eq_none]

theorem IsFirst.mem (h : IsFirst renderers op renderer) : renderer ∈ renderers := by
  obtain ⟨earlier, later, rfl, _⟩ := h
  exact List.mem_append_right earlier List.mem_cons_self

theorem IsFirst.handles (h : IsFirst renderers op renderer) : renderer.handles op = true := by
  obtain ⟨_, _, _, hhandles, _⟩ := h
  exact hhandles

/-- What is added behind the first renderer does not come before it. -/
theorem IsFirst.append (h : IsFirst renderers op renderer) (more : List Renderer) :
    IsFirst (renderers ++ more) op renderer := by
  obtain ⟨earlier, later, rfl, hhandles, hearlier⟩ := h
  exact ⟨earlier, later ++ more, List.append_assoc earlier _ more, hhandles, hearlier⟩

theorem covers_map_standard_iff {ops : List Operator} :
    Covers (ops.map standard) op ↔ op ∈ ops := by
  simp [Covers, standard]

theorem answers_standard (op : Operator) : (standard op).Answers := by
  intro r field other _ h
  cases Rule.eq_of_render_eq_error h

end Renderer

namespace Renderers
open Renderer
variable {renderers : List Renderer} {renderer : Renderer} {r : Rule}

theorem render_of_isFirst (h : IsFirst renderers r.operator renderer) :
    (⟨renderers⟩ : Renderers).render r = renderer.render r := by
  rw [render, isFirst_iff_find?.mp h]

theorem render_of_not_covers (h : ¬ Covers renderers r.operator) :
    (⟨renderers⟩ : Renderers).render r = .error (.unsupportedOperator r.field r.operator) := by
  rw [render, not_covers_iff_find?.mp h]

/-- An operator is reported as unsupported if no renderer handles it, or if the first one that does
reports so itself. -/
theorem render_eq_unsupportedOperator_iff {field : String} {op : Operator} :
    (⟨renderers⟩ : Renderers).render r = .error (.unsupportedOperator field op) ↔
      (¬ Covers renderers r.operator ∧ field = r.field ∧ op = r.operator) ∨
        ∃ renderer, IsFirst renderers r.operator renderer ∧
          renderer.render r = .error (.unsupportedOperator field op) := by
  by_cases hcovers : Covers renderers r.operator
  · obtain ⟨first, hfirst⟩ := exists_isFirst_iff.mpr hcovers
    rw [render_of_isFirst hfirst]
    constructor
    · intro h
      exact Or.inr ⟨first, hfirst, h⟩
    · rintro (⟨hnone, _⟩ | ⟨renderer, hrenderer, h⟩)
      · exact absurd hcovers hnone
      · rwa [Option.some.inj ((isFirst_iff_find?.mp hfirst).symm.trans (isFirst_iff_find?.mp hrenderer))]
  · have hnone (renderer : Renderer) : ¬ IsFirst renderers r.operator renderer :=
      fun h => hcovers (exists_isFirst_iff.mp ⟨renderer, h⟩)
    simp [render_of_not_covers hcovers, hcovers, hnone, eq_comm]

theorem exists_unsupportedOperator_iff (h : ∀ renderer ∈ renderers, renderer.Answers) :
    (∃ field op, (⟨renderers⟩ : Renderers).render r = .error (.unsupportedOperator field op)) ↔
      ¬ Covers renderers r.operator := by
  constructor
  · rintro ⟨field, op, hrender⟩
    rcases render_eq_unsupportedOperator_iff.mp hrender with ⟨hnone, _⟩ | ⟨first, hfirst, hself⟩
    · exact hnone
    · exact absurd hself (h first hfirst.mem r field op hfirst.handles)
  · intro hnone
    exact ⟨r.field, r.operator, render_of_not_covers hnone⟩

/-- A step in putting renderers together. -/
inductive Step where
  | add (renderer : Renderer)
  | addStandard

namespace Step

def apply (rs : Renderers) : Step → Renderers
  | add renderer => rs.add renderer
  | addStandard => rs.addStandard

/-- The renderers that a step adds, in order. -/
def added : Step → List Renderer
  | add renderer => [renderer]
  | addStandard => Operator.all.map Renderer.standard

/-- A step that adds standard renderers only. -/
def IsStandard : Step → Prop
  | add renderer => ∃ op, renderer = Renderer.standard op
  | addStandard => True

theorem entries_apply (rs : Renderers) (s : Step) :
    (s.apply rs).entries = rs.entries ++ s.added := by
  cases s <;> rfl

theorem IsStandard.exists_ops {s : Step} (h : s.IsStandard) :
    ∃ ops : List Operator, s.added = ops.map Renderer.standard := by
  cases s with
  | add renderer =>
    obtain ⟨op, rfl⟩ := h
    exact ⟨[op], rfl⟩
  | addStandard => exact ⟨Operator.all, rfl⟩

end Step

/-- The renderers that steps put together, from none at first. -/
def ofSteps (steps : List Step) : Renderers :=
  steps.foldl Step.apply empty

/-- The renderers that steps add, from the first that is added to the last. -/
def added (steps : List Step) : List Renderer :=
  steps.flatMap Step.added

variable {steps more : List Step}

theorem entries_foldl_apply (rs : Renderers) (steps : List Step) :
    (steps.foldl Step.apply rs).entries = rs.entries ++ added steps := by
  induction steps generalizing rs with
  | nil => exact (List.append_nil _).symm
  | cons s steps ih =>
    rw [List.foldl_cons, ih, Step.entries_apply, List.append_assoc]
    rfl

theorem ofSteps_eq (steps : List Step) : ofSteps steps = ⟨added steps⟩ := by
  have hentries := entries_foldl_apply empty steps
  rw [← ofSteps] at hentries
  exact congrArg Renderers.mk hentries

theorem added_append (steps more : List Step) : added (steps ++ more) = added steps ++ added more :=
  List.flatMap_append

theorem covers_of_addStandard_mem (h : Step.addStandard ∈ steps) (op : Operator) :
    Covers (added steps) op := by
  obtain ⟨renderer, hmem, hhandles⟩ := covers_map_standard_iff.mpr (Operator.mem_all op)
  exact ⟨renderer, List.mem_flatMap_of_mem h hmem, hhandles⟩

/-- Only what was added by itself may refuse an operator that it handles. -/
theorem add_mem_or_answers (h : renderer ∈ added steps) :
    Step.add renderer ∈ steps ∨ renderer.Answers := by
  obtain ⟨s, hs, hadded⟩ := List.mem_flatMap.mp h
  cases s with
  | add other =>
    obtain rfl := List.mem_singleton.mp hadded
    exact Or.inl hs
  | addStandard =>
    obtain ⟨op, _, rfl⟩ := List.mem_map.mp hadded
    exact Or.inr (answers_standard op)

theorem answers_of_mem_added (h : ∀ renderer, Step.add renderer ∈ steps → renderer.Answers) :
    ∀ renderer ∈ added steps, renderer.Answers :=
  fun renderer hmem => (add_mem_or_answers hmem).elim (h renderer) id

/-- An operator that is handled is reported as unsupported by the first renderer that handles it, and
by none of the standard ones. -/
theorem render_ofSteps_eq_unsupportedOperator_iff (h : Covers (added steps) r.operator)
    {field : String} {op : Operator} :
    (ofSteps steps).render r = .error (.unsupportedOperator field op) ↔
      ∃ renderer, Step.add renderer ∈ steps ∧ IsFirst (added steps) r.operator renderer ∧
        renderer.render r = .error (.unsupportedOperator field op) := by
  rw [ofSteps_eq, render_eq_unsupportedOperator_iff]
  constructor
  · rintro (⟨hnone, _⟩ | ⟨first, hfirst, hself⟩)
    · exact absurd h hnone
    · have hadd : Step.add first ∈ steps :=
        (add_mem_or_answers hfirst.mem).resolve_right fun hanswers =>
          hanswers r field op hfirst.handles hself
      exact ⟨first, hadd, hfirst, hself⟩
  · rintro ⟨first, _, hfirst, hself⟩
    exact Or.inr ⟨first, hfirst, hself⟩

theorem render_ofSteps_append (h : Covers (added steps) r.operator) (more : List Step) :
    (ofSteps (steps ++ more)).render r = (ofSteps steps).render r := by
  obtain ⟨first, hfirst⟩ := exists_isFirst_iff.mpr h
  rw [ofSteps_eq, ofSteps_eq, added_append, render_of_isFirst hfirst,
    render_of_isFirst (hfirst.append (added more))]

theorem exists_ops_of_isStandard (h : ∀ s ∈ steps, s.IsStandard) :
    ∃ ops : List Operator, added steps = ops.map Renderer.standard := by
  induction steps with
  | nil => exact ⟨[], rfl⟩
  | cons s steps ih =>
    rw [List.forall_mem_cons] at h
    obtain ⟨ops, hops⟩ := h.1.exists_ops
    obtain ⟨rest, hrest⟩ := ih h.2
    exact ⟨ops ++ rest, by rw [List.map_append, ← hops, ← hrest]; rfl⟩

/-- Standard renderers are told apart by the operators they leave out, and by nothing else. -/
theorem render_map_standard_eq_iff {ops ops' : List Operator} :
    (∀ r, (⟨ops.map Renderer.standard⟩ : Renderers).render r =
        (⟨ops'.map Renderer.standard⟩ : Renderers).render r) ↔
      ∀ op, op ∈ ops ↔ op ∈ ops' := by
  simp only [render_map_standard]
  constructor
  · intro h op
    have hrule := h ⟨"", op, .none⟩
    have hwritten : Rule.render ⟨"", op, .none⟩ ≠ .error (.unsupportedOperator "" op) :=
      answers_standard op _ _ _ (beq_self_eq_true op)
    by_cases hop : op ∈ ops <;> by_cases hop' : op ∈ ops'
    · exact iff_of_true hop hop'
    · rw [if_pos hop, if_neg hop'] at hrule
      exact absurd hrule hwritten
    · rw [if_neg hop, if_pos hop'] at hrule
      exact absurd hrule.symm hwritten
    · exact iff_of_false hop hop'
  · intro h r
    simp only [h r.operator]

/-- The renderer that was added first among those that handle the operator of a rule writes it, errors
included, and without one the operator is unsupported; only a renderer that reports so itself adds to
these refusals. What is added later changes nothing for an operator that is handled already, hence
nothing at all behind the standard renderers. Even there an operator may be unsupported, but only to a
renderer that was added by itself. Standard renderers alone agree on every rule exactly if they cover
the same operators. -/
theorem render_ofSteps :
    (∀ (steps : List Step) (r : Rule),
      ((∃ renderer, IsFirst (added steps) r.operator renderer) ↔ Covers (added steps) r.operator) ∧
      (∀ renderer, IsFirst (added steps) r.operator renderer →
        (ofSteps steps).render r = renderer.render r) ∧
      (∀ field op, (ofSteps steps).render r = .error (.unsupportedOperator field op) ↔
        (¬ Covers (added steps) r.operator ∧ field = r.field ∧ op = r.operator) ∨
          ∃ renderer, IsFirst (added steps) r.operator renderer ∧
            renderer.render r = .error (.unsupportedOperator field op)) ∧
      ((∀ renderer, Step.add renderer ∈ steps → renderer.Answers) →
        ((∃ field op, (ofSteps steps).render r = .error (.unsupportedOperator field op)) ↔
          ¬ Covers (added steps) r.operator)) ∧
      (Covers (added steps) r.operator →
        ∀ more, (ofSteps (steps ++ more)).render r = (ofSteps steps).render r)) ∧
    (∀ steps : List Step, Step.addStandard ∈ steps → ∀ r : Rule,
      Covers (added steps) r.operator ∧
      (∀ field op, (ofSteps steps).render r = .error (.unsupportedOperator field op) ↔
        ∃ renderer, Step.add renderer ∈ steps ∧ IsFirst (added steps) r.operator renderer ∧
          renderer.render r = .error (.unsupportedOperator field op)) ∧
      ((∀ renderer, Step.add renderer ∈ steps → renderer.Answers) →
        ∀ field op, (ofSteps steps).render r ≠ .error (.unsupportedOperator field op)) ∧
      ∀ more, (ofSteps (steps ++ more)).render r = (ofSteps steps).render r) ∧
    ∀ steps steps' : List Step, (∀ s ∈ steps, s.IsStandard) → (∀ s ∈ steps', s.IsStandard) →
      ((∀ r, (ofSteps steps).render r = (ofSteps steps').render r) ↔
        ∀ op, Covers (added steps) op ↔ Covers (added steps') op) := by
  refine ⟨fun steps r => ⟨exists_isFirst_iff, ?_, ?_, ?_, ?_⟩, fun steps hmem r => ⟨?_, ?_, ?_, ?_⟩, ?_⟩
  · intro renderer hfirst
    rw [ofSteps_eq]
    exact render_of_isFirst hfirst
  · intro field op
    rw [ofSteps_eq]
    exact render_eq_unsupportedOperator_iff
  · intro hanswers
    rw [ofSteps_eq]
    exact exists_unsupportedOperator_iff (answers_of_mem_added hanswers)
  · intro hcovers more
    exact render_ofSteps_append hcovers more
  · exact covers_of_addStandard_mem hmem r.operator
  · intro field op
    exact render_ofSteps_eq_unsupportedOperator_iff (covers_of_addStandard_mem hmem r.operator)
  · intro hanswers field op hrender
    obtain ⟨first, hadd, hfirst, hself⟩ :=
      (render_ofSteps_eq_unsupportedOperator_iff (covers_of_addStandard_mem hmem r.operator)).mp hrender
    exact hanswers first hadd r field op hfirst.handles hself
  · intro more
    exact render_ofSteps_append (covers_of_addStandard_mem hmem r.operator) more
  · intro steps steps' hsteps hsteps'
    obtain ⟨ops, hops⟩ := exists_ops_of_isStandard hsteps
    obtain ⟨ops', hops'⟩ := exists_ops_of_isStandard hsteps'
    simp only [ofSteps_eq, hops, hops', covers_map_standard_iff]
    exact render_map_standard_eq_iff

/-- A comparison without letter case stands before the standard one, and cannot be displaced. Two
standard renderers may come in any order and more than once. -/
theorem render_ofSteps_caseless :
    let override : List Step := [.add .caseless]
    let steps := override ++ [.addStandard]
    let more : List Step := [.add (.standard .equal)]
    let equal : Rule := ⟨"email", .equal, .single (.text "A@B.C")⟩
    let less : Rule := ⟨"age", .less, .single (.int 3)⟩
    let twice : List Step := [.add (.standard .less), .add (.standard .equal), .add (.standard .less)]
    let once : List Step := [.add (.standard .equal), .add (.standard .less)]
    (IsFirst (added steps) equal.operator .caseless ∧
      (ofSteps steps).render equal = Renderer.caseless.render equal ∧
      (ofSteps (steps ++ more)).render equal = Renderer.caseless.render equal ∧
      Renderer.caseless.render equal =
        .ok ⟨"LOWER(email) = LOWER(?)", [.text "A@B.C"], ["email"]⟩) ∧
    ((∀ renderer, Step.add renderer ∈ override → renderer.Answers) ∧
      (¬ Covers (added override) less.operator ∧
        ∃ field op, (ofSteps override).render less = .error (.unsupportedOperator field op)) ∧
      Covers (added override) equal.operator ∧
        (ofSteps (override ++ more)).render equal = (ofSteps override).render equal) ∧
    (Step.addStandard ∈ steps ∧
      (∀ renderer, Step.add renderer ∈ steps → renderer.Answers) ∧
      ∀ field op, (ofSteps steps).render less ≠ .error (.unsupportedOperator field op)) ∧
    (∀ s ∈ twice, s.IsStandard) ∧ (∀ s ∈ once, s.IsStandard) ∧
      ∀ r, (ofSteps twice).render r = (ofSteps once).render r := by
  intro override steps more equal less twice once
  obtain ⟨hrun, hstandard, halike⟩ := render_ofSteps
  have hcaseless : Renderer.caseless.Answers := by
    intro r field op _ h
    simp only [Renderer.caseless] at h
    split at h
    all_goals cases h
  have hoverride : ∀ renderer, Step.add renderer ∈ override → renderer.Answers := by
    intro renderer hmem
    cases List.mem_singleton.mp hmem
    exact hcaseless
  have hsteps : ∀ renderer, Step.add renderer ∈ steps → renderer.Answers := by
    intro renderer hmem
    have hmem : Step.add renderer ∈ override := by simpa [steps] using hmem
    exact hoverride renderer hmem
  have hfirst : IsFirst (added steps) equal.operator .caseless := ⟨[], _, rfl, rfl, by simp⟩
  have hmem : Step.addStandard ∈ steps := by simp [steps]
  have hnone : ¬ Covers (added override) less.operator := by
    simp [Covers, added, Step.added, override, Renderer.caseless, less]
  have hequal : Covers (added override) equal.operator := ⟨.caseless, List.mem_cons_self, rfl⟩
  have hrender := (hrun steps equal).2.1 _ hfirst
  refine ⟨⟨hfirst, hrender, ?_, rfl⟩, ⟨hoverride, ⟨hnone, ?_⟩, hequal, ?_⟩, ⟨hmem, hsteps, ?_⟩, ?_⟩
  · exact ((hstandard steps hmem equal).2.2.2 more).trans hrender
  · exact ((hrun override less).2.2.2.1 hoverride).mpr hnone
  · exact (hrun override equal).2.2.2.2 hequal more
  · exact (hstandard steps hmem less).2.2.1 hsteps
  · have htwice : ∀ s ∈ twice, s.IsStandard := by simp [twice, Step.IsStandard]
    have honce : ∀ s ∈ once, s.IsStandard := by simp [once, Step.IsStandard]
    refine ⟨htwice, honce, (halike twice once htwice honce).mpr fun op => ?_⟩
    simp +contextual [Covers, added, Step.added, twice, once, or_comm]

/-- A renderer may report the operator that it handles as unsupported, and then the standard renderers
behind it are of no use. -/
theorem unsupportedOperator_of_refusing :
    let refusing : Renderer :=
      ⟨(· == .equal), fun r => .error (.unsupportedOperator r.field r.operator)⟩
    let equal : Rule := ⟨"a", .equal, .single (.int 1)⟩
    let steps : List Step := [.add refusing]
    let more : List Step := [.addStandard]
    (Covers (added steps) equal.operator ∧
      (ofSteps steps).render equal = .error (.unsupportedOperator "a" .equal)) ∧
    Step.addStandard ∈ steps ++ more ∧
      (ofSteps (steps ++ more)).render equal = .error (.unsupportedOperator "a" .equal) := by
  intro refusing equal steps more
  have hcovers : Covers (added steps) equal.operator := ⟨refusing, List.mem_cons_self, rfl⟩
  have hrefused : (ofSteps steps).render equal = .error (.unsupportedOperator "a" .equal) := rfl
  exact ⟨⟨hcovers, hrefused⟩, by simp [more], (render_ofSteps_append hcovers more).trans hrefused⟩

end Renderers

end WhereClause
