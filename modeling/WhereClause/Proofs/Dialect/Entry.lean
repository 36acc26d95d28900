import WhereClause.Proofs.Dialect.Denylist

/-! The denylist of a dialect as one list of entries, and how often an entry matches in a text. What
a search reports is the first entry that matches anywhere. -/
namespace WhereClause

/-- An entry of a denylist: a token, or a word that counts as a whole word only. -/
inductive Entry where
  | token (text : String)
  | keyword (text : String)
deriving DecidableEq

namespace Entry

def text : Entry → String
  | token text => text
  | keyword text => text

/-- Whether an entry matches at a position. The empty keyword matches nowhere. -/
def standsAt : Entry → Text.Before × List Char → Bool
  | token text, position => text.toList.isPrefixOf position.2
  | keyword text, position => text.toList ≠ [] && Text.wordStandsAt text.toList position

def occursIn (e : Entry) (text : List Char) : Bool :=
  (Text.positions .gap text).any e.standsAt

/-- The number of positions of a text at which an entry matches. -/
def count (e : Entry) (text : List Char) : Nat :=
  (Text.positions .gap text).countP e.standsAt

theorem occursIn_token (token : String) (text : List Char) :
    (Entry.token token).occursIn text = Text.contains text token.toList := rfl

theorem occursIn_keyword (word : String) (text : List Char) :
    (keyword word).occursIn text = Text.containsWord text word.toList := by
  rw [occursIn, Text.containsWord]
  by_cases h : word.toList = []
  · simp [standsAt, h]
  · have hstands : (keyword word).standsAt = Text.wordStandsAt word.toList := by
      funext position
      simp [standsAt, h]
    simp [hstands, h]

theorem count_eq_zero_iff (e : Entry) (text : List Char) :
    e.count text = 0 ↔ e.occursIn text = false := by
  rw [count, occursIn, List.countP_eq_zero, List.any_eq_false]

end Entry

namespace Dialect

/-- The entries of a denylist in the order in which they are tried. -/
def entries (d : Dialect) : List Entry :=
  d.tokens.map .token ++ d.extraTokens.map .token ++ d.keywords.map .keyword ++
    d.extraKeywords.map .keyword

theorem mem_entries_iff {d : Dialect} {e : Entry} : e ∈ d.entries ↔
    (∃ token ∈ d.deniedTokens, e = .token token) ∨ ∃ word ∈ d.deniedKeywords, e = .keyword word := by
  simp only [entries, deniedTokens, deniedKeywords, List.mem_append, List.mem_map, or_and_right,
    exists_or, or_assoc, eq_comm]

/-- The first entry that matches anywhere in the identifier, in lower case, is reported. -/
theorem denied?_eq_find? (d : Dialect) (identifier : String) :
    d.denied? identifier =
      (d.entries.find? (·.occursIn (Text.lower identifier))).map Entry.text := by
  have hfind (make : String → Entry) (found : String → Bool) (htext : ∀ name, (make name).text = name)
      (hfound : ∀ name, (make name).occursIn (Text.lower identifier) = found name)
      (names : List String) : ((names.map make).find?
        (·.occursIn (Text.lower identifier))).map Entry.text = names.find? found := by
    rw [List.find?_map, Option.map_map]
    simp only [Function.comp_def, hfound, htext]
    exact Option.map_id_apply
  have htoken := hfind .token _ (fun _ => rfl) fun token => Entry.occursIn_token token _
  have hkeyword := hfind .keyword _ (fun _ => rfl) fun word => Entry.occursIn_keyword word _
  simp only [denied?, entries, deniedTokens, deniedKeywords, List.find?_append, Option.map_or,
    htoken, hkeyword, Option.or_assoc]

theorem denied?_eq_none_iff_occursIn (d : Dialect) (identifier : String) :
    d.denied? identifier = none ↔ ∀ e ∈ d.entries, e.occursIn (Text.lower identifier) = false := by
  rw [denied?_eq_find?, Option.map_eq_none_iff, List.find?_eq_none]
  simp only [Bool.not_eq_true]

theorem denied?_eq_some_iff (d : Dialect) (identifier token : String) :
    d.denied? identifier = some token ↔ ∃ passed e later, d.entries = passed ++ e :: later ∧
      (∀ other ∈ passed, other.occursIn (Text.lower identifier) = false) ∧
      e.occursIn (Text.lower identifier) = true ∧ e.text = token := by
  simp only [denied?_eq_find?, Option.map_eq_some_iff, List.find?_eq_some_iff_append,
    Bool.not_eq_true']
  constructor
  · rintro ⟨e, ⟨he, passed, later, hentries, hpassed⟩, htext⟩
    exact ⟨passed, e, later, hentries, hpassed, he, htext⟩
  · rintro ⟨passed, e, later, hentries, hpassed, he, htext⟩
    exact ⟨e, ⟨he, passed, later, hentries, hpassed⟩, htext⟩

end Dialect

end WhereClause
