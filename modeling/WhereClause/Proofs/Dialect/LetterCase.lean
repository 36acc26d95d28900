import WhereClause.Proofs.Builder.Stages
import WhereClause.Proofs.Dialect.Entry
import WhereClause.Proofs.Text.Run

/-! Letter case in denylists. Only identifiers are put into lower case before they are searched, so
that an entry with a capital letter is never found, whatever the dialect. -/
namespace WhereClause

namespace Entry
variable {e : Entry} {identifier : String}

/-- An entry stands in an identifier if letter case is set aside: a token anywhere, a word of word
symbols as a whole run. -/
def StandsInAnyCase (identifier : String) : Entry → Prop
  | token text => Text.lower text <:+: Text.lower identifier
  | keyword text => (∀ c ∈ text.toList, Text.isWordChar c = true) ∧
      ∃ run ∈ Text.runs identifier.toList, run.map Char.toLower = Text.lower text

/-- An entry that is written in lower case. -/
def IsLower (e : Entry) : Prop :=
  Text.lower e.text = e.text.toList

instance (e : Entry) : Decidable e.IsLower :=
  inferInstanceAs (Decidable (_ = _))

theorem infix_of_occursIn {text : List Char} (h : e.occursIn text = true) : e.text.toList <:+: text := by
  cases e with
  | token token =>
    rw [occursIn_token] at h
    exact (Text.contains_iff_infix text token.toList).mp h
  | keyword word =>
    rw [occursIn_keyword] at h
    exact Text.infix_of_containsWord h

/-- What is found in lower case is in lower case. -/
theorem isLower_of_occursIn (h : e.occursIn (Text.lower identifier) = true) : e.IsLower := by
  have hfixed : ∀ c ∈ e.text.toList, c.toLower = id c := by
    intro c hc
    obtain ⟨x, -, rfl⟩ := List.mem_map.mp ((infix_of_occursIn h).subset hc)
    exact Text.toLower_toLower x
  exact (List.map_congr_left hfixed).trans (List.map_id _)

theorem occursIn_of_standsInAnyCase (he : e.IsLower) (h : e.StandsInAnyCase identifier) :
    e.occursIn (Text.lower identifier) = true := by
  cases e with
  | token token =>
    have hlower : Text.lower token = token.toList := he
    rw [occursIn_token, Text.contains_iff_infix, ← hlower]
    exact h
  | keyword word =>
    obtain ⟨hword, run, hrun, hcase⟩ := h
    have hlower : run.map Char.toLower = word.toList := hcase.trans he
    have hmem : word.toList ∈ Text.runs (Text.lower identifier) := by
      rw [Text.lower, Text.runs_map_toLower, ← hlower]
      exact List.mem_map_of_mem hrun
    rw [occursIn_keyword, Text.containsWord_iff_exists_run hword (Text.ne_nil_of_mem_runs hmem)]
    exact ⟨word.toList, hmem, Or.inl rfl⟩

end Entry

namespace Dialect
variable {d : Dialect}

theorem check_denylist_ne_ok_iff (d : Dialect) (identifier : String) :
    Screen.denylist.check d [identifier] ≠ .ok () ↔
      ∃ e ∈ d.entries, e.occursIn (Text.lower identifier) = true := by
  rw [ne_eq, Screen.check_eq_ok_iff, List.forall_mem_singleton, Screen.fault?,
    denied?_eq_none_iff_occursIn]
  simp only [not_forall, Bool.not_eq_false, exists_prop]

theorem isLower_of_known (hd : d ∈ known) {e : Entry} (he : e ∈ d.entries) : e.IsLower := by
  have hall : ∀ d ∈ known, ∀ e ∈ d.entries, e.IsLower := by decide
  exact hall d hd e he

/-- An entry that stands in an identifier in any letter case is found exactly if it is written in lower
case itself. Only such entries are ever found, so that an identifier is refused for them alone; in
the known dialects all entries are such. -/
theorem check_denylist_in_any_case (d : Dialect) (identifier : String) :
    (∀ e ∈ d.entries, e.StandsInAnyCase identifier →
      (e.occursIn (Text.lower identifier) = true ↔ e.IsLower)) ∧
    (Screen.denylist.check d [identifier] ≠ .ok () ↔
      ∃ e ∈ d.entries, e.IsLower ∧ e.occursIn (Text.lower identifier) = true) ∧
    ((∃ e ∈ d.entries, e.IsLower ∧ e.StandsInAnyCase identifier) →
      Screen.denylist.check d [identifier] ≠ .ok ()) ∧
    (d ∈ known → (∃ e ∈ d.entries, e.StandsInAnyCase identifier) →
      Screen.denylist.check d [identifier] ≠ .ok ()) := by
  have hrefused : (∃ e ∈ d.entries, e.IsLower ∧ e.StandsInAnyCase identifier) →
      Screen.denylist.check d [identifier] ≠ .ok () := by
    rintro ⟨e, he, hlower, hstands⟩
    rw [check_denylist_ne_ok_iff]
    exact ⟨e, he, Entry.occursIn_of_standsInAnyCase hlower hstands⟩
  refine ⟨fun e _ hstands => ⟨Entry.isLower_of_occursIn, fun hlower => ?_⟩, ?_, hrefused, ?_⟩
  · exact Entry.occursIn_of_standsInAnyCase hlower hstands
  · rw [check_denylist_ne_ok_iff]
    constructor
    · rintro ⟨e, he, hfound⟩
      exact ⟨e, he, Entry.isLower_of_occursIn hfound, hfound⟩
    · rintro ⟨e, he, -, hfound⟩
      exact ⟨e, he, hfound⟩
  · rintro hd ⟨e, he, hstands⟩
    exact hrefused ⟨e, he, isLower_of_known hd he, hstands⟩

/-- Beside a keyword in capitals, which goes unseen, one in lower case is found in any spelling. -/
theorem check_denylist_in_any_case_ilike :
    let d : Dialect := { postgres with extraKeywords := ["MERGE", "ilike"] }
    let field := "a.Merge ILike b"
    let merge : Entry := .keyword "MERGE"
    let ilike : Entry := .keyword "ilike"
    (merge ∈ d.entries ∧ merge.StandsInAnyCase field ∧ ¬ merge.IsLower ∧
      merge.occursIn (Text.lower field) = false) ∧
    (ilike ∈ d.entries ∧ ilike.StandsInAnyCase field ∧ ilike.IsLower ∧
      Screen.denylist.check d [field] ≠ .ok ()) ∧
    postgres ∈ known ∧ (∃ e ∈ postgres.entries, e.StandsInAnyCase field) ∧
      Screen.denylist.check postgres [field] ≠ .ok () := by
  intro d field merge ilike
  have hmerge : merge.StandsInAnyCase field :=
    ⟨List.all_eq_true.mp (by decide), "Merge".toList, by decide, by decide⟩
  have hilike : ilike.StandsInAnyCase field :=
    ⟨List.all_eq_true.mp (by decide), "ILike".toList, by decide, by decide⟩
  have hcapital : ¬ merge.IsLower := by decide
  have hlower : ilike.IsLower := by decide
  have hmem : merge ∈ d.entries ∧ ilike ∈ d.entries ∧ ilike ∈ postgres.entries := by decide
  have hknown : postgres ∈ known := by decide
  obtain ⟨hfound, -, hrefused, -⟩ := check_denylist_in_any_case d field
  obtain ⟨-, -, -, hpostgres⟩ := check_denylist_in_any_case postgres field
  refine ⟨⟨hmem.1, hmerge, hcapital, ?_⟩, ⟨hmem.2.1, hilike, hlower, ?_⟩, hknown, ?_⟩
  · rw [← Bool.not_eq_true, hfound merge hmem.1 hmerge]
    exact hcapital
  · exact hrefused ⟨ilike, hmem.2.1, hlower, hilike⟩
  · have hstands : ∃ e ∈ postgres.entries, e.StandsInAnyCase field := ⟨ilike, hmem.2.2, hilike⟩
    exact ⟨hstands, hpostgres hknown hstands⟩

/-- A keyword in capitals is not found even in the same spelling, and the field is written. -/
theorem capital_keyword_unseen :
    let d : Dialect := { sqlite with extraKeywords := ["MERGE"] }
    (∃ e ∈ d.entries, e.StandsInAnyCase "MERGE") ∧
      Screen.denylist.check d ["MERGE"] = .ok () ∧
      Builder.build { dialect := d } (.rule ⟨"MERGE", .isNull, .none⟩) =
        .ok ⟨"MERGE IS NULL", []⟩ := by
  have hstands : (Entry.keyword "MERGE").StandsInAnyCase "MERGE" :=
    ⟨List.all_eq_true.mp (by decide), "MERGE".toList, by decide, by decide⟩
  refine ⟨⟨.keyword "MERGE", by decide, hstands⟩, ?_, rfl⟩
  decide

end Dialect

end WhereClause
