import WhereClause.Dialect

/-! The denylists of the dialects: what it takes to pass them, and what their keywords are made of. -/
namespace WhereClause.Dialect

/-- The dialects of the three databases. -/
def known : List Dialect :=
  [mysql, postgres, sqlite]

variable {d : Dialect}

theorem denied?_eq_none_iff (d : Dialect) (identifier : String) :
    d.denied? identifier = none ↔
      (∀ token ∈ d.deniedTokens, Text.contains (Text.lower identifier) token.toList = false) ∧
      ∀ word ∈ d.deniedKeywords, Text.containsWord (Text.lower identifier) word.toList = false := by
  simp only [denied?, Option.or_eq_none_iff, List.find?_eq_none, Bool.not_eq_true]

theorem keyword_chars (hd : d ∈ known) {word : String} (hw : word ∈ d.deniedKeywords) :
    word.toList ≠ [] ∧ ∀ c ∈ word.toList, Text.isWordChar c = true ∧ c.isDigit = false := by
  have hall : ∀ d ∈ known, ∀ word ∈ d.deniedKeywords, word.toList ≠ [] ∧
      word.toList.all (fun c => Text.isWordChar c && !c.isDigit) = true := by decide
  simpa only [List.all_eq_true, Bool.and_eq_true, Bool.not_eq_true'] using hall d hd word hw

end WhereClause.Dialect
