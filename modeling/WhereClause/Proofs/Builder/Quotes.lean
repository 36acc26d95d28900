import WhereClause.Proofs.Builder.Stages
import WhereClause.Proofs.Dialect.Opener

/-! Quotes and comments in a clause. The empty texts of two predicates are the only ones, unless a
field opens a quote that its dialect knows and its denylist does not. -/
namespace WhereClause

namespace Database
variable {db : Database}

theorem isPlain_of_mem_glue {s : String} (h : s ∈ Fragment.glue) :
    Quoting.IsPlain db.quotings s.toList := by
  have hglue : ∀ s ∈ Fragment.glue, s.toList.any Quoting.isSymbol = false := by decide
  exact isPlain_of_any_isSymbol (hglue s h)

/-- Of the fixed texts, the predicates that test for empty texts have quotes. -/
theorem isPlain_or_mem_of_isFixed (db : Database) {s : String} (h : Fragment.IsFixed s) :
    Quoting.IsPlain db.quotings s.toList ∨ s ∈ [" = ''", " != ''"] := by
  have hforms : ∀ op ∈ Operator.all, ∀ s ∈ op.form.texts,
      s.toList.any Quoting.isSymbol = false ∨ s ∈ [" = ''", " != ''"] := by decide
  rcases h with h | ⟨op, h⟩
  · exact Or.inl (isPlain_of_mem_glue h)
  · exact (hforms op (Operator.mem_all op) s h).imp_left isPlain_of_any_isSymbol

theorem selfContained_of_isFixed (db : Database) {s : String} (h : Fragment.IsFixed s) :
    db.SelfContained s.toList := by
  have hseam : ∀ c ∈ some ' ', Text.isSeam c = true := by
    rintro _ ⟨⟩
    rfl
  rcases db.isPlain_or_mem_of_isFixed h with hplain | hmem
  · exact selfContained_of_isPlain hplain
  · rw [List.mem_cons, List.mem_singleton] at hmem
    rcases hmem with rfl | rfl
    · have hplain : Quoting.IsPlain db.quotings [' ', '=', ' '] := isPlain_of_any_isSymbol rfl
      exact selfContained_of_blank hplain hseam
    · have hplain : Quoting.IsPlain db.quotings [' ', '!', '=', ' '] := isPlain_of_any_isSymbol rfl
      exact selfContained_of_blank hplain hseam

/-- A screened field that opens no quote, fixed text and placeholders are read one by one. -/
theorem selfContained_of_segment {s : Segment} (hfixed : ∀ text, s = .text text → Fragment.IsFixed text)
    (hfield : ∀ name, s = .field name → Quoting.IsPlain db.quotings name.toList) :
    db.SelfContained s.symbols := by
  cases s with
  | text text => exact db.selfContained_of_isFixed (hfixed text rfl)
  | field name => exact selfContained_of_isPlain (hfield name rfl)
  | value v => exact selfContained_of_isPlain (isPlain_of_any_isSymbol rfl)

theorem quoted_value (db : Database) (v : Value) : db.quoted (Segment.value v).symbols = [] :=
  quoted_of_isPlain (isPlain_of_any_isSymbol rfl)

/-- A test for an empty text has one quoted text, the empty one. -/
theorem flatMap_quoted_of_test {op : Operator} (h : op ∈ [.isEmpty, .isNotEmpty]) (vs : List Value) :
    ((op.form.segments vs).flatMap fun s => db.quoted s.symbols) = [['\'', '\'']] := by
  have hform : ∃ text ∈ [" = ''", " != ''"], op.form = .test text := by
    revert h
    cases op <;> decide
  have hblank : ∀ text ∈ [" = ''", " != ''"], db.quoted text.toList = [['\'', '\'']] := by
    cases db <;> decide +kernel
  obtain ⟨text, htext, hform⟩ := hform
  have hvalues : ((vs.map Segment.value).flatMap fun s => db.quoted s.symbols) = [] := by
    rw [List.flatMap_map]
    exact List.flatMap_eq_nil_iff.mpr fun v _ => db.quoted_value v
  rw [hform, Form.segments, List.flatMap_cons, hvalues, List.append_nil]
  exact hblank text htext

theorem flatMap_quoted_of_not_test {op : Operator} (h : op ∉ [.isEmpty, .isNotEmpty])
    (vs : List Value) : ((op.form.segments vs).flatMap fun s => db.quoted s.symbols) = [] := by
  have htexts : ∀ text ∈ op.form.texts, text ∉ [" = ''", " != ''"] := by
    revert h
    cases op <;> decide
  refine List.flatMap_eq_nil_iff.mpr fun s hs => ?_
  cases s with
  | text text =>
    have htext := Form.mem_texts_of_mem_segments hs
    have hfixed := db.isPlain_or_mem_of_isFixed (Or.inr ⟨op, htext⟩)
    exact quoted_of_isPlain (hfixed.resolve_right (htexts text htext))
  | field name => exact absurd hs (Form.field_notMem_segments _ _ _)
  | value v => exact db.quoted_value v

/-- The quotes of a rule are those of its predicate, if its field has none. -/
theorem flatMap_quoted_segments {r : Rule} (h : Quoting.IsPlain db.quotings r.field.toList) :
    (r.segments.flatMap fun s => db.quoted s.symbols) =
      if r.operator ∈ [.isEmpty, .isNotEmpty] then [['\'', '\'']] else [] := by
  have hfield : db.quoted (Segment.field r.field).symbols = [] := quoted_of_isPlain h
  rw [Rule.segments, List.flatMap_cons, hfield, List.nil_append]
  split
  · rename_i htest
    exact flatMap_quoted_of_test htest _
  · rename_i htest
    exact flatMap_quoted_of_not_test htest _

end Database

theorem flatMap_ite_eq_replicate {α β : Type} (p : α → Prop) [DecidablePred p] (b : β) (xs : List α) :
    (xs.flatMap fun a => if p a then [b] else []) = List.replicate (xs.countP (p ·)) b := by
  induction xs with
  | nil => rfl
  | cons a rest ih =>
    rw [List.flatMap_cons, ih]
    by_cases h : p a
    · simp [h, List.replicate_succ]
    · simp [h]

namespace Builder
variable {db : Database} {t : Tree} {c : Clause} {r : Rule}

theorem isPlain_of_build (h : Builder.build { dialect := db.dialect } t = .ok c) (hr : r ∈ t.rules)
    (hopen : ¬ db.LeavesOpen r.field.toList) : Quoting.IsPlain db.quotings r.field.toList := by
  refine Database.isPlain_of_denied?_eq_none ?_ hopen
  exact fault?_eq_none_of_build (b := { dialect := db.dialect }) rfl h hr List.mem_cons_self

theorem field_infix_of_build {b : Builder} (hb : b.renderers = .standard) (h : b.build t = .ok c)
    (hr : r ∈ t.rules) : r.field.toList <:+: c.sql.toList := by
  obtain ⟨_, f, hf, _, rfl⟩ := build_eq_ok_iff.mp h
  rw [hb] at hf
  obtain ⟨ss, htraced, _⟩ := Tree.exists_trace_of_renderIn hf
  have hname : r.field ∈ f.identifiers := by
    rw [Tree.identifiers_of_renderIn hf]
    exact List.mem_map_of_mem hr
  obtain ⟨before, behind, rfl⟩ := List.append_of_mem (htraced.mem_identifiers_iff.mp hname)
  rw [htraced.toList_sql]
  exact ⟨before.flatMap Segment.symbols, behind.flatMap Segment.symbols, by simp [Segment.symbols]⟩

/-- Where no field leaves a text open, a clause is read segment by segment. -/
theorem lex_of_build (h : Builder.build { dialect := db.dialect } t = .ok c)
    (hopen : ∀ r ∈ t.rules, ¬ db.LeavesOpen r.field.toList) :
    ∃ ss : List Segment, c.sql.toList = ss.flatMap Segment.symbols ∧
      Woven (t.rules.map Rule.segments) ss ∧
      Piece.lex db.quotings c.sql.toList = ss.flatMap (fun s => Piece.lex db.quotings s.symbols) ∧
      ∀ s ∈ ss, db.live s.symbols = s.symbols.filter (· != '\'') := by
  obtain ⟨_, f, hf, _, rfl⟩ := build_eq_ok_iff.mp h
  obtain ⟨ss, _, _, hrenamed⟩ := Tree.exists_renamed_of_renderIn id hf
  have hself : ∀ s ∈ ss, db.SelfContained s.symbols := by
    intro s hs
    refine Database.selfContained_of_segment ?_ ?_
    · rintro text rfl
      exact hrenamed.fixed text hs
    · rintro name rfl
      have hname := hrenamed.traced.mem_identifiers_iff.mpr hs
      rw [Tree.identifiers_of_renderIn hf] at hname
      obtain ⟨r, hr, rfl⟩ := List.mem_map.mp hname
      exact isPlain_of_build h hr (hopen r hr)
  have hlex := Segment.foldr_of_isChain (Piece.lex db.quotings) (· ++ ·)
    hrenamed.chain fun s hs => (hself s hs).lex_append
  refine ⟨ss, hrenamed.traced.toList_sql, hrenamed.woven, ?_, fun s hs => (hself s hs).live_eq⟩
  rw [hrenamed.traced.toList_sql, hlex, List.foldr_map, List.foldr_append_eq_append,
    ← List.flatMap_def]
  exact List.append_nil _

theorem quoted_eq_of_build (h : Builder.build { dialect := db.dialect } t = .ok c)
    (hopen : ∀ r ∈ t.rules, ¬ db.LeavesOpen r.field.toList) :
    db.quoted c.sql.toList =
      List.replicate (t.rules.countP (·.operator ∈ [.isEmpty, .isNotEmpty])) ['\'', '\''] := by
  obtain ⟨ss, _, hwoven, hlex, _⟩ := lex_of_build h hopen
  have hglue : ∀ s ∈ Fragment.glue, db.quoted s.toList = [] := fun s hs =>
    Database.quoted_of_isPlain (Database.isPlain_of_mem_glue hs)
  calc db.quoted c.sql.toList
    _ = ss.flatMap fun s => db.quoted s.symbols := by
      rw [Database.quoted, hlex, List.filterMap_flatMap]
      rfl
    _ = (t.rules.map Rule.segments).flatMap (List.flatMap fun s => db.quoted s.symbols) :=
      hwoven.flatMap_eq _ hglue
    _ = t.rules.flatMap fun r =>
        if r.operator ∈ [.isEmpty, .isNotEmpty] then [['\'', '\'']] else [] := by
      rw [List.flatMap_map]
      exact List.flatMap_congr fun r hr =>
        Database.flatMap_quoted_segments (isPlain_of_build h hr (hopen r hr))
    _ = List.replicate (t.rules.countP (·.operator ∈ [.isEmpty, .isNotEmpty])) ['\'', '\''] :=
      flatMap_ite_eq_replicate _ _ _

theorem live_eq_of_build (h : Builder.build { dialect := db.dialect } t = .ok c)
    (hopen : ∀ r ∈ t.rules, ¬ db.LeavesOpen r.field.toList) :
    db.live c.sql.toList = c.sql.toList.filter (· != '\'') := by
  obtain ⟨ss, hsql, _, hlex, hlive⟩ := lex_of_build h hopen
  rw [Database.live, hlex, List.filterMap_flatMap, hsql, List.filter_flatMap]
  exact List.flatMap_congr hlive

/-- Each test for an empty text is one empty text in the clause. Nothing else in it is quoted or
commented, and every other symbol is read as it stands, unless a field leaves a text open: then
something else is quoted. No field does so in MySQL. -/
theorem quoted_of_build (h : Builder.build { dialect := db.dialect } t = .ok c) :
    ((∀ s ∈ db.quoted c.sql.toList, s = ['\'', '\'']) ↔
      ∀ r ∈ t.rules, ¬ db.LeavesOpen r.field.toList) ∧
    ((∀ r ∈ t.rules, ¬ db.LeavesOpen r.field.toList) →
      db.quoted c.sql.toList =
          List.replicate (t.rules.countP (·.operator ∈ [.isEmpty, .isNotEmpty])) ['\'', '\''] ∧
        db.live c.sql.toList = c.sql.toList.filter (· != '\'')) := by
  refine ⟨⟨?_, ?_⟩, fun hopen => ⟨quoted_eq_of_build h hopen, live_eq_of_build h hopen⟩⟩
  · -- The opener in the field is the first of something quoted, or stands within it.
    intro hall r hr hleaves
    obtain ⟨q, hq, opener, ho, hne, hmark, hfield⟩ := Database.exists_opener_of_leavesOpen hleaves
    have hinfix := field_infix_of_build (b := { dialect := db.dialect }) rfl h hr
    obtain ⟨s, hs, hother⟩ := Piece.exists_quoted_of_opens hq ho hne hmark 0 c.sql.toList
      (hfield.trans hinfix)
    exact hother (hall s (List.mem_filterMap.mpr ⟨_, hs, rfl⟩))
  · intro hopen s hs
    rw [quoted_eq_of_build h hopen] at hs
    exact List.eq_of_mem_replicate hs

/-- A lone dollar sign quotes nothing, and neither does a value with quotes and comments. -/
theorem quoted_of_build_lone :
    let t : Tree := .group .or false [.rule ⟨"cost$1", .isNotEmpty, .none⟩,
      .group .and true [.rule ⟨"$a", .isEmpty, .none⟩, .rule ⟨"b", .equal, .single (.text "'--$$")⟩]]
    let c : Clause := ⟨"cost$1 != '' OR NOT ($a = '' AND b = ?)", [.text "'--$$"]⟩
    Builder.build { dialect := Database.postgres.dialect } t = .ok c ∧
      ((∀ s ∈ Database.postgres.quoted c.sql.toList, s = ['\'', '\'']) ↔
        ∀ r ∈ t.rules, ¬ Database.postgres.LeavesOpen r.field.toList) ∧
      ((∀ r ∈ t.rules, ¬ Database.postgres.LeavesOpen r.field.toList) →
        Database.postgres.quoted c.sql.toList =
            List.replicate (t.rules.countP (·.operator ∈ [.isEmpty, .isNotEmpty])) ['\'', '\''] ∧
          Database.postgres.live c.sql.toList = c.sql.toList.filter (· != '\'')) :=
  ⟨rfl, quoted_of_build rfl⟩

/-- Quotes that one field opens and another closes, with a placeholder and a keyword between. -/
theorem quoted_across_fields :
    let t (first second : String) : Tree := .group .and false
      [.rule ⟨first, .equal, .single (.int 1)⟩, .rule ⟨second, .equal, .single (.int 2)⟩]
    let c (sql : String) : Clause := ⟨sql, [.int 1, .int 2]⟩
    (Builder.build { dialect := .sqlite } (t "\x60a" "b\x60") = .ok (c "\x60a = ? AND b\x60 = ?") ∧
      Database.sqlite.quoted "\x60a = ? AND b\x60 = ?".toList = ["\x60a = ? AND b\x60".toList]) ∧
    (Builder.build { dialect := .sqlite } (t "[a" "b]") = .ok (c "[a = ? AND b] = ?") ∧
      Database.sqlite.quoted "[a = ? AND b] = ?".toList = ["[a = ? AND b]".toList]) ∧
    Builder.build { dialect := .postgres } (t "$q$a" "b$q$") = .ok (c "$q$a = ? AND b$q$ = ?") ∧
      Database.postgres.quoted "$q$a = ? AND b$q$ = ?".toList = ["$q$a = ? AND b$q$".toList] := by
  exact ⟨⟨rfl, by decide +kernel⟩, ⟨rfl, by decide +kernel⟩, rfl, by decide +kernel⟩

end Builder

end WhereClause
