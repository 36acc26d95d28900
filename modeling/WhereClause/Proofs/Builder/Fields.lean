import Mathlib.Algebra.Ring.Nat
import WhereClause.Proofs.Builder.Stages
import WhereClause.Proofs.Dialect.Occurrence
import WhereClause.Proofs.Policy.Walk

/-! Fields and the structure of a clause. What a screened field brings into the text matches nothing
on the denylist, alone or with its neighbours, so that every match was written as fixed text. -/
namespace WhereClause

namespace Text

theorem MeetAtSeam.map_toLower {a b : List Char} (h : MeetAtSeam a b) :
    MeetAtSeam (a.map Char.toLower) (b.map Char.toLower) := by
  refine h.imp ?_ ?_
  · intro h c hc
    rw [List.getLast?_map, Option.mem_def, Option.map_eq_some_iff] at hc
    obtain ⟨x, hx, rfl⟩ := hc
    rw [toLower_of_isSeam (h x hx)]
    exact h x hx
  · intro h c hc
    rw [List.head?_map, Option.mem_def, Option.map_eq_some_iff] at hc
    obtain ⟨x, hx, rfl⟩ := hc
    rw [toLower_of_isSeam (h x hx)]
    exact h x hx

end Text

/-- The matches in the fixed text of a segment. -/
def Entry.countFixed (e : Entry) : Segment → Nat
  | .text s => e.count (Text.lower s)
  | .field _ | .value _ => 0

theorem Entry.count_eq_sum {e : Entry} (he : e.Separable) (hmark : e.count ['?'] = 0)
    {ss : List Segment} (hchain : ss.IsChain Segment.Meets)
    (hfields : ∀ name, .field name ∈ ss → e.occursIn (Text.lower name) = false) :
    e.count ((ss.flatMap Segment.symbols).map Char.toLower) = (ss.map e.countFixed).sum := by
  have hsum := Segment.foldr_of_isChain (fun text => e.count (text.map Char.toLower)) (· + ·)
    hchain fun s _ rest h => by
      rw [List.map_append]
      exact count_append he h.map_toLower
  rw [hsum, List.sum, List.map_nil, count_nil he]
  congr 1
  refine List.map_congr_left fun s hs => ?_
  cases s with
  | text s => rfl
  | field name => exact (e.count_eq_zero_iff _).mpr (hfields name hs)
  | value v => exact hmark

theorem Entry.countFixed_comp_rename (e : Entry) (g : String → String) :
    e.countFixed ∘ Segment.rename g = e.countFixed := by
  funext s
  cases s <;> rfl

namespace Builder
variable {d : Dialect} {t : Tree} {c : Clause}

theorem occursIn_eq_false_of_build (h : Builder.build { dialect := d } t = .ok c) {name : String}
    (hname : name ∈ t.rules.map Rule.field) {e : Entry} (he : e ∈ d.entries) :
    e.occursIn (Text.lower name) = false := by
  obtain ⟨r, hr, rfl⟩ := List.mem_map.mp hname
  have hfault := fault?_eq_none_of_build (b := { dialect := d }) rfl h hr List.mem_cons_self
  exact (d.denied?_eq_none_iff_occursIn r.field).mp hfault e he

/-- With the standard policy of builders, a tree with other fields can be built if those pass. -/
theorem exists_renamed_of_build (g : String → String) (hg : ∀ name, g name ≠ "")
    (hpass : ∀ name, d.denied? (g name) = none) (h : Builder.build { dialect := d } t = .ok c) :
    ∃ ss f f', c = ⟨f.sql, f.params⟩ ∧ f.identifiers = t.rules.map Rule.field ∧
      Builder.build { dialect := d } (t.mapRules (Rule.rename g)) = .ok ⟨f'.sql, f'.params⟩ ∧
      Fragment.Renamed g t.rules ss f f' := by
  obtain ⟨hcheck, f, hf, _, rfl⟩ := build_eq_ok_iff.mp h
  obtain ⟨ss, f', hf', hrenamed⟩ := Tree.exists_renamed_of_renderIn g hf
  refine ⟨ss, f, f', rfl, Tree.identifiers_of_renderIn hf, ?_, hrenamed⟩
  refine build_eq_ok_iff.mpr ⟨?_, f', hf', ?_, rfl⟩
  · refine Policy.check_mapRules_of_check (fun r hr => ?_) hcheck
    rw [Policy.checkRule_eq_ok_iff, Rule.check_eq_ok_iff] at hr ⊢
    exact ⟨⟨hg r.field, hr.1.2⟩, Or.inl rfl, hr.2.2⟩
  · rw [screen_eq_ok_iff, List.forall_mem_singleton, Tree.identifiers_of_renderIn hf',
      Tree.rules_mapRules, List.map_map, List.forall_mem_map]
    exact fun r _ => hpass r.field

/-- Fields cannot change the structure of a clause. Wherever an entry of the denylist matches in its
text, fixed text was written, so it has as many matches as with the field `c` in place of every field. -/
theorem count_of_build (hd : d ∈ Dialect.known) (h : Builder.build { dialect := d } t = .ok c) :
    (∃ c', Builder.build { dialect := d } (t.mapRules (Rule.rename fun _ => "c")) = .ok c' ∧
      ∀ e ∈ d.entries, e.count (Text.lower c.sql) = e.count (Text.lower c'.sql)) ∧
    ∃ ss : List Segment, c.sql = String.join (ss.map Segment.sql) ∧
      ss.filterMap Segment.field? = t.rules.map Rule.field ∧
      (∀ s, .text s ∈ ss → Fragment.IsFixed s) ∧
      ∀ e ∈ d.entries, e.count (Text.lower c.sql) = (ss.map e.countFixed).sum := by
  have hplain : ∀ d ∈ Dialect.known, d.denied? "c" = none := by decide
  have hmark : ∀ d ∈ Dialect.known, ∀ e ∈ d.entries, e.count ['?'] = 0 := by decide
  obtain ⟨ss, f, f', rfl, hids, hbuild, hrenamed⟩ :=
    exists_renamed_of_build (fun _ => "c") (fun _ => by decide) (fun _ => hplain d hd) h
  -- Both texts have the same fixed texts, and neither set of fields adds a match to theirs.
  have hcount (e : Entry) (he : e ∈ d.entries) :
      e.count (Text.lower f.sql) = (ss.map e.countFixed).sum := by
    rw [Text.lower, hrenamed.traced.toList_sql]
    refine e.count_eq_sum (Dialect.separable_of_mem hd he) (hmark d hd e he) hrenamed.chain ?_
    intro name hname
    refine occursIn_eq_false_of_build h ?_ he
    rw [← hids]
    exact hrenamed.traced.mem_identifiers_iff.mpr hname
  have hcount' (e : Entry) (he : e ∈ d.entries) :
      e.count (Text.lower f'.sql) = (ss.map e.countFixed).sum := by
    have hchain := Segment.isChain_map_rename (fun _ => "c") hrenamed.chain
    rw [Text.lower, hrenamed.renamed.toList_sql,
      e.count_eq_sum (Dialect.separable_of_mem hd he) (hmark d hd e he) hchain, List.map_map,
      e.countFixed_comp_rename]
    intro name hname
    rw [Segment.eq_of_field_mem_map_rename hname]
    exact (d.denied?_eq_none_iff_occursIn "c").mp (hplain d hd) e he
  refine ⟨⟨_, hbuild, fun e he => (hcount e he).trans (hcount' e he).symm⟩, ss, ?_, ?_, ?_, hcount⟩
  · exact hrenamed.traced.sql
  · rw [← hids, hrenamed.traced.identifiers]
  · exact hrenamed.fixed

/-- Fields that end like a comment, a number or a longer word have no part in the structure. -/
theorem count_of_build_jagged :
    let t : Tree := .group .or false [.rule ⟨"not_in -", .notInList, .list [.int 1, .int 2]⟩,
      .group .and true [.rule ⟨"x.1", .between, .list [.int 3, .int 4]⟩, .rule ⟨"$a:", .isEmpty, .none⟩]]
    let c : Clause := ⟨"not_in - NOT IN (?, ?) OR NOT (x.1 BETWEEN ? AND ? AND $a: = '')",
      [.int 1, .int 2, .int 3, .int 4]⟩
    Dialect.postgres ∈ Dialect.known ∧ Builder.build { dialect := .postgres } t = .ok c ∧
      (∃ c', Builder.build { dialect := .postgres } (t.mapRules (Rule.rename fun _ => "c")) = .ok c' ∧
        ∀ e ∈ Dialect.postgres.entries,
          e.count (Text.lower c.sql) = e.count (Text.lower c'.sql)) ∧
      ∃ ss : List Segment, c.sql = String.join (ss.map Segment.sql) ∧
        ss.filterMap Segment.field? = t.rules.map Rule.field ∧
        (∀ s, .text s ∈ ss → Fragment.IsFixed s) ∧
        ∀ e ∈ Dialect.postgres.entries,
          e.count (Text.lower c.sql) = (ss.map e.countFixed).sum := by
  have hpostgres : Dialect.postgres ∈ Dialect.known := by decide
  exact ⟨hpostgres, rfl, count_of_build hpostgres rfl⟩

end Builder

end WhereClause
