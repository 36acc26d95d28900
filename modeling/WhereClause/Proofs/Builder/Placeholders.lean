import Mathlib.Algebra.Ring.Nat
import WhereClause.Proofs.Builder.Stages

/-! Placeholders and values: where their numbers agree, and by how much they may differ. -/
namespace WhereClause

/-- The fixed texts of a predicate. -/
def Form.texts : Form → List String
  | .comparison text | .pattern text _ _ | .test text => [text]
  | .membership text => [text, ", ", ")"]
  | .range text => [text, " AND "]

theorem Segment.eq_of_text_mem_intersperse {s sep : String} {vs : List Value}
    (h : text s ∈ (vs.map value).intersperse (.text sep)) : s = sep := by
  induction vs with
  | nil => cases h
  | cons v rest ih =>
    cases rest with
    | nil => simp at h
    | cons w rest =>
      rw [List.map_cons, List.map_cons, List.intersperse_cons_cons, ← List.map_cons] at h
      simp only [List.mem_cons, reduceCtorEq, text.injEq, false_or] at h
      exact h.elim id ih

theorem Form.mem_texts_of_mem_segments {form : Form} {vs : List Value} {s : String}
    (h : .text s ∈ form.segments vs) : s ∈ form.texts := by
  cases form with
  | comparison text | pattern text before after | test text => simpa [segments, texts] using h
  | membership text =>
    simp only [segments, List.cons_append, List.mem_cons, List.mem_append, Segment.text.injEq,
      List.not_mem_nil, or_false] at h
    rcases h with rfl | h | rfl
    · simp [texts]
    · simp [texts, Segment.eq_of_text_mem_intersperse h]
    · simp [texts]
  | range text =>
    simp only [segments, List.mem_cons, Segment.text.injEq] at h
    rcases h with rfl | h
    · simp [texts]
    · simp [texts, Segment.eq_of_text_mem_intersperse h]

/-- A tree in the standard form has a trace whose fixed texts are glue and texts of predicates. -/
theorem Tree.exists_trace_of_renderIn {nested : Bool} {t : Tree} {f : Fragment}
    (h : t.renderIn .standard nested = .ok f) :
    ∃ ss, f.Traced ss ∧
      ∀ s, .text s ∈ ss → s ∈ Fragment.glue ∨ ∃ op : Operator, s ∈ op.form.texts := by
  obtain ⟨leaves, hl, hwoven⟩ := wovenFrom_of_renderIn h
  have hparts : ∃ parts, List.Forall₂ Fragment.Traced leaves parts ∧
      ∀ p ∈ parts, ∀ s, Segment.text s ∈ p → ∃ op : Operator, s ∈ op.form.texts := by
    generalize t.rules = rules at hl
    clear hwoven h
    induction hl with
    | nil => exact ⟨[], .nil, by simp⟩
    | @cons r g rules leaves hr _ ih =>
      obtain ⟨parts, hp, htexts⟩ := ih
      rw [Renderers.render_standard] at hr
      refine ⟨_, .cons (Rule.traced_of_render hr) hp, ?_⟩
      rw [List.forall_mem_cons]
      refine ⟨fun s hs => ?_, htexts⟩
      rcases List.mem_cons.mp hs with hs | hs
      · cases hs
      · exact ⟨r.operator, Form.mem_texts_of_mem_segments hs⟩
  obtain ⟨parts, hp, htexts⟩ := hparts
  obtain ⟨ss, ht, hw⟩ := hwoven parts hp
  refine ⟨ss, ht, fun s hs => ?_⟩
  exact (hw.mem_text hs).imp_right fun ⟨p, hmem, hs⟩ => htexts p hmem s hs

/-- No fixed text holds a placeholder. -/
theorem placeholder_not_mem_text {s : String}
    (h : s ∈ Fragment.glue ∨ ∃ op : Operator, s ∈ op.form.texts) : '?' ∉ s.toList := by
  have hglue : ∀ s ∈ Fragment.glue, '?' ∉ s.toList := by decide
  have hforms : ∀ op ∈ Operator.all, ∀ s ∈ op.form.texts, '?' ∉ s.toList := by decide
  rcases h with h | ⟨op, h⟩
  · exact hglue s h
  · exact hforms op (Operator.mem_all op) s h

/-- The placeholders in a text are those of its values and those that identifiers bring along. -/
theorem Fragment.Traced.count_placeholder {f : Fragment} {ss : List Segment} (h : f.Traced ss)
    (htext : ∀ s, .text s ∈ ss → '?' ∉ s.toList) :
    f.sql.toList.count '?' =
      f.params.length + (f.identifiers.map fun name => name.toList.count '?').sum := by
  rw [h.sql, h.params, h.identifiers]
  clear h
  induction ss with
  | nil => rfl
  | cons a rest ih =>
    have hrest := ih fun s hs => htext s (List.mem_cons_of_mem a hs)
    rw [List.map_cons, String.join_cons, String.toList_append, List.count_append, hrest]
    cases a with
    | text s =>
      have hs := List.count_eq_zero.mpr (htext s List.mem_cons_self)
      simp [List.filterMap_cons, Segment.sql, Segment.value?, Segment.field?, hs]
    | field name =>
      simp only [List.filterMap_cons, Segment.sql, Segment.value?, Segment.field?, List.map_cons,
        List.sum_cons]
      omega
    | value v =>
      have hmark : "?".toList.count '?' = 1 := rfl
      simp only [List.filterMap_cons, Segment.sql, Segment.value?, Segment.field?, List.length_cons,
        hmark]
      omega

/-- A clause has one placeholder for each value, and one more for every question mark in a field.
The two numbers agree exactly if no field has one. -/
theorem Builder.count_placeholder_of_build {b : Builder} (hb : b.renderers = .standard) {t : Tree}
    {c : Clause} (h : b.build t = .ok c) :
    c.sql.toList.count '?' =
        c.params.length + (t.rules.map fun r => r.field.toList.count '?').sum ∧
      (c.sql.toList.count '?' = c.params.length ↔ ∀ r ∈ t.rules, '?' ∉ r.field.toList) := by
  obtain ⟨_, f, hf, _, rfl⟩ := build_eq_ok_iff.mp h
  rw [hb] at hf
  obtain ⟨ss, ht, htexts⟩ := Tree.exists_trace_of_renderIn hf
  have hcount := ht.count_placeholder fun s hs => placeholder_not_mem_text (htexts s hs)
  rw [Tree.identifiers_of_renderIn hf, List.map_map] at hcount
  refine ⟨hcount, ?_⟩
  rw [hcount, Nat.add_eq_left, List.sum_eq_zero_iff_forall_eq_nat]
  simp [List.count_eq_zero]

/-- Two question marks in fields, and two placeholders too many. -/
theorem Builder.count_placeholder_of_list :
    let t : Tree := .group .and false [.rule ⟨"a?b?", .inList, .list [.int 1, .int 2]⟩,
      .rule ⟨"c", .isNull, .none⟩]
    let c : Clause := ⟨"a?b? IN (?, ?) AND c IS NULL", [.int 1, .int 2]⟩
    Builder.build { dialect := .postgres } t = .ok c ∧
      c.sql.toList.count '?' =
          c.params.length + (t.rules.map fun r => r.field.toList.count '?').sum ∧
        (c.sql.toList.count '?' = c.params.length ↔ ∀ r ∈ t.rules, '?' ∉ r.field.toList) :=
  ⟨rfl, count_placeholder_of_build (b := { dialect := .postgres }) rfl rfl⟩

/-- A field with a question mark passes every dialect, and its clause has a placeholder too many. -/
theorem Builder.placeholder_in_field :
    let t : Tree := .rule ⟨"a?", .equal, .single (.int 1)⟩
    let c : Clause := ⟨"a? = ?", [.int 1]⟩
    Builder.build { dialect := .mysql } t = .ok c ∧ Builder.build { dialect := .postgres } t = .ok c ∧
      Builder.build { dialect := .sqlite } t = .ok c ∧ c.sql.toList.count '?' ≠ c.params.length := by
  exact ⟨rfl, rfl, rfl, by decide⟩

end WhereClause
