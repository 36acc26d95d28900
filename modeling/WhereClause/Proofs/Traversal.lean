import Mathlib.Data.List.Forall2

/-! Stages that may fail, one after the other: what is left of the first failure is never looked at. -/
namespace WhereClause.Traversal
variable {ε α β : Type}

/-- Two stages succeed exactly when the second succeeds on what the first gives. -/
theorem bind_eq_ok_iff {x : Except ε α} {f : α → Except ε β} {b : β} :
    x >>= f = .ok b ↔ ∃ a, x = .ok a ∧ f a = .ok b := by
  cases x <;> simp [bind, Except.bind]

/-- A stage succeeds as before under another name for its failures. -/
theorem mapError_eq_ok_iff {x : Except ε α} {g : ε → β} {a : α} :
    x.mapError g = .ok a ↔ x = .ok a := by
  cases x <;> simp [Except.mapError]

/-- Each result comes from one of the elements. -/
theorem exists_mem_of_forall₂ {R : α → β → Prop} {items : List α} {results : List β}
    (h : List.Forall₂ R items results) {b : β} (hb : b ∈ results) : ∃ a ∈ items, R a b := by
  induction h with
  | nil => cases hb
  | cons hR _ ih =>
    rcases List.mem_cons.mp hb with rfl | hb
    · exact ⟨_, List.mem_cons_self, hR⟩
    · obtain ⟨a, ha, hab⟩ := ih hb
      exact ⟨a, List.mem_cons_of_mem _ ha, hab⟩

/-- Why a stage failed, if it did. -/
def failure? : Except ε α → Option ε
  | .error e => some e
  | .ok _ => none

@[simp] theorem failure?_map (x : Except ε α) (f : α → β) : failure? (x.map f) = failure? x := by
  cases x <;> rfl

/-- Of two stages the first to fail is reported, if the second fails alike after any success. -/
theorem failure?_bind {x : Except ε α} {f : α → Except ε β} {o : Option ε}
    (h : ∀ a, x = .ok a → failure? (f a) = o) : failure? (x >>= f) = (failure? x).or o := by
  cases x with
  | error e => rfl
  | ok a => exact h a rfl

/-- A stage that fails for the first reason in a list, and only for such a reason. -/
theorem iff_of_failure?_eq_findSome? {x : Except ε α} {l : List β} {f : β → Option ε}
    (h : failure? x = l.findSome? f) :
    (∀ e, x = .error e ↔ ∃ passed b later, l = passed ++ b :: later ∧
      (∀ other ∈ passed, f other = none) ∧ f b = some e) ∧
    ((∃ a, x = .ok a) ↔ ∀ b ∈ l, f b = none) := by
  constructor
  · intro e
    have hfirst : x = .error e ↔ l.findSome? f = some e := by
      rw [← h]
      cases x <;> simp [failure?]
    rw [hfirst, List.findSome?_eq_some_iff]
    constructor
    · rintro ⟨passed, b, later, hl, he, hpassed⟩
      exact ⟨passed, b, later, hl, hpassed, he⟩
    · rintro ⟨passed, b, later, hl, hpassed, he⟩
      exact ⟨passed, b, later, hl, he, hpassed⟩
  · rw [← List.findSome?_eq_none_iff, ← h]
    cases x <;> simp [failure?]

/-- The first that is found in a list of lists is found in the first of them in which any is. -/
theorem findSome?_flatMap {γ : Type} (l : List α) (g : α → List β) (f : β → Option γ) :
    (l.flatMap g).findSome? f = l.findSome? fun a => (g a).findSome? f := by
  induction l with
  | nil => rfl
  | cons a rest ih =>
    rw [List.flatMap_cons, List.findSome?_append, ih, List.findSome?_cons]
    cases (g a).findSome? f <;> rfl

variable {read : α → Except ε β} {items : List α}

/-- A list fails at the first of its elements that does. -/
theorem failure?_mapM : failure? (items.mapM read) = items.findSome? fun a => failure? (read a) := by
  induction items with
  | nil => rfl
  | cons a rest ih =>
    have hrest (b : β) (_ : read a = .ok b) :
        failure? (rest.mapM read >>= fun bs => pure (b :: bs)) =
          rest.findSome? fun a => failure? (read a) := by
      rw [← ih]
      cases rest.mapM read <;> rfl
    rw [List.mapM_cons, failure?_bind hrest, List.findSome?_cons]
    cases failure? (read a) <;> rfl

/-- A list is read exactly when each of its elements is. -/
theorem mapM_eq_ok_iff {results : List β} : items.mapM read = .ok results ↔
    List.Forall₂ (fun a b => read a = .ok b) items results := by
  induction items generalizing results with
  | nil =>
    rw [List.forall₂_nil_left_iff, List.mapM_nil]
    simp [pure, Except.pure, eq_comm]
  | cons a rest ih =>
    simp only [List.forall₂_cons_left_iff, List.mapM_cons, bind_eq_ok_iff, ih, pure, Except.pure,
      Except.ok.injEq]
    constructor
    · rintro ⟨b, hb, bs, hbs, rfl⟩
      exact ⟨b, bs, hb, hbs, rfl⟩
    · rintro ⟨b, bs, hb, hbs, rfl⟩
      exact ⟨b, hb, bs, hbs, rfl⟩

end WhereClause.Traversal
