import WhereClause.Proofs.Condition.Grammar
import WhereClause.Proofs.Dialect.Denylist
import WhereClause.Proofs.Text.Run
import WhereClause.Screen

/-! Plain identifiers as SQL reads them: names with points between them, none of which is a keyword
once the denylist has been passed. -/
namespace WhereClause

theorem Keyword.text_mem_deniedKeywords {d : Dialect} (hd : d ∈ Dialect.known) (k : Keyword) :
    k.text ∈ d.deniedKeywords := by
  have hall : ∀ d ∈ Dialect.known, ∀ k ∈ Keyword.all, k.text ∈ d.deniedKeywords := by decide
  exact hall d hd k (by cases k <;> decide)

theorem Keyword.ofWord?_eq_none {word : List Char}
    (h : ∀ k : Keyword, k.text.toList ≠ word.map Char.toLower) : ofWord? word = none := by
  rw [ofWord?, List.find?_eq_none]
  intro k _
  exact mt beq_iff_eq.mp (h k)

/-- A keyword is found where a run of word symbols holds it. -/
theorem Dialect.containsWord_iff_exists_run {d : Dialect} (hd : d ∈ known) {keyword : String}
    (hk : keyword ∈ d.deniedKeywords) (text : List Char) :
    Text.containsWord text keyword.toList = true ↔
      ∃ run ∈ Text.runs text, Text.Holds run keyword.toList := by
  obtain ⟨hne, hchars⟩ := keyword_chars hd hk
  exact Text.containsWord_iff_exists_run (fun c hc => (hchars c hc).1) hne text

namespace Identifier
variable {first : Char} {rest : List Char} {words : List (List Char)} {identifier : String}

theorem segmentFault?_cons_eq_none_iff : segmentFault? (first :: rest) = none ↔
    Text.isNameStart first = true ∧ ∀ c ∈ rest, Text.isWordChar c = true := by
  by_cases h : Text.isNameStart first = true
  · simp [segmentFault?, h]
  · simp [segmentFault?, h]

theorem fault?_eq_none_iff (identifier : String) :
    fault? identifier = none ↔ identifier ≠ "" ∧ identifier.utf8ByteSize ≤ maxBytes ∧
      ∀ word ∈ identifier.toList.splitOn '.', segmentFault? word = none := by
  simp only [fault?]
  split
  · rename_i h
    simp [String.isEmpty_iff.mp h]
  · rename_i h
    split
    · rename_i hlong
      simp [Nat.not_le.mpr hlong]
    · rename_i hlong
      simp [Nat.not_lt.mp hlong, List.findSome?_eq_none_iff, mt String.isEmpty_iff.mpr h]

theorem isWordChar_of_segmentFault? {word : List Char} (h : segmentFault? word = none) :
    ∀ c ∈ word, Text.isWordChar c = true := by
  cases word with
  | nil => cases h
  | cons first rest =>
    obtain ⟨hfirst, hrest⟩ := segmentFault?_cons_eq_none_iff.mp h
    intro c hc
    rcases List.mem_cons.mp hc with rfl | hc
    · simp only [Text.isNameStart, Bool.or_eq_true] at hfirst
      simp only [Text.isWordChar, Char.isAlphanum, Bool.or_eq_true]
      exact hfirst.imp_left Or.inl
    · exact hrest c hc

/-- A word that has no fault, and is none of the grammar's, is read as one name. -/
theorem lex_word {word : List Char} (h : segmentFault? word = none)
    (hk : Keyword.ofWord? word = none) : Token.lex [] word = [.name word] := by
  rw [Token.lex_run (isWordChar_of_segmentFault? h), List.nil_append]
  cases word with
  | nil => cases h
  | cons first rest => exact Token.ofRun_name (segmentFault?_cons_eq_none_iff.mp h).1 hk

/-- Words with points between them are read as a name. -/
theorem name_lex (hne : words ≠ []) (h : ∀ word ∈ words, segmentFault? word = none)
    (hk : ∀ word ∈ words, Keyword.ofWord? word = none) :
    Name (['.'].intercalate words) (Token.lex [] (['.'].intercalate words)) := by
  induction words with
  | nil => exact absurd rfl hne
  | cons word words ih =>
    have hword := lex_word (h word List.mem_cons_self) (hk word List.mem_cons_self)
    cases words with
    | nil =>
      rw [List.intercalate_singleton, hword]
      exact .one word
    | cons next words =>
      have hrest := ih (List.cons_ne_nil next words) (fun w hw => h w (List.mem_cons_of_mem word hw))
        (fun w hw => hk w (List.mem_cons_of_mem word hw))
      have hpoint : Token.breaks '.' = true := by decide
      rw [List.intercalate_cons_cons, List.append_assoc, List.singleton_append,
        Token.lex_append_cons hpoint, hword]
      exact .qualified word hrest

/-- The names between the points of an identifier, in lower case. -/
def segments (identifier : String) : List (List Char) :=
  (identifier.toList.splitOn '.').map (List.map Char.toLower)

theorem ne_nil_of_segmentFault? {word : List Char} (h : segmentFault? word = none) : word ≠ [] := by
  rintro rfl
  cases h

theorem isDigit_head?_of_segmentFault? {word : List Char} (h : segmentFault? word = none) :
    ∀ c ∈ word.head?, c.isDigit = false := by
  cases word with
  | nil => cases h
  | cons first rest =>
    rintro c ⟨⟩
    exact Text.isDigit_eq_false_of_isNameStart (segmentFault?_cons_eq_none_iff.mp h).1

section
variable (h : ∀ word ∈ identifier.toList.splitOn '.', segmentFault? word = none)
include h

/-- The runs of a plain identifier are the names between its points. -/
theorem runs_lower : Text.runs (Text.lower identifier) = segments identifier := by
  have hjoin : ['.'].intercalate (identifier.toList.splitOn '.') = identifier.toList :=
    List.intercalate_splitOn '.'
  have hpoint : Text.isWordChar '.' = false := by decide
  rw [Text.lower, Text.runs_map_toLower, segments]
  congr 1
  conv_lhs => rw [← hjoin]
  refine Text.runs_intercalate hpoint fun word hword => ?_
  exact ⟨ne_nil_of_segmentFault? (h word hword), isWordChar_of_segmentFault? (h word hword)⟩

/-- No name of a plain identifier begins with a digit, so that it holds itself alone. -/
theorem containsWord_iff_mem_segments {d : Dialect} (hd : d ∈ Dialect.known) {keyword : String}
    (hk : keyword ∈ d.deniedKeywords) :
    Text.containsWord (Text.lower identifier) keyword.toList = true ↔
      keyword.toList ∈ segments identifier := by
  have hholds : ∀ run ∈ segments identifier,
      (Text.Holds run keyword.toList ↔ run = keyword.toList) := by
    intro run hrun
    obtain ⟨word, hword, rfl⟩ := List.mem_map.mp hrun
    have hhead := isDigit_head?_of_segmentFault? (h word hword)
    exact Text.holds_iff_of_head (Text.isDigit_head?_map_toLower hhead)
  rw [Dialect.containsWord_iff_exists_run hd hk, runs_lower h]
  constructor
  · rintro ⟨run, hrun, hword⟩
    rwa [← (hholds run hrun).mp hword]
  · intro hmem
    exact ⟨_, hmem, Or.inl rfl⟩

end

/-- An identifier that both screens accept is read as a name, in every dialect. -/
theorem name_of_accepted {d : Dialect} (hd : d ∈ Dialect.known)
    (hplain : Screen.plain.fault? d identifier = none)
    (hdeny : Screen.denylist.fault? d identifier = none) :
    Name identifier.toList (Token.lex [] identifier.toList) := by
  obtain ⟨_, _, hwords⟩ := (fault?_eq_none_iff identifier).mp hplain
  have hdenied := ((d.denied?_eq_none_iff identifier).mp hdeny).2
  have hjoin : ['.'].intercalate (identifier.toList.splitOn '.') = identifier.toList :=
    List.intercalate_splitOn '.'
  rw [← hjoin]
  refine name_lex (List.splitOn_ne_nil '.' identifier.toList) hwords ?_
  intro word hw
  apply Keyword.ofWord?_eq_none
  intro k he
  have hk := k.text_mem_deniedKeywords hd
  have hmem : k.text.toList ∈ segments identifier := by
    rw [he]
    exact List.mem_map_of_mem hw
  rw [← containsWord_iff_mem_segments hwords hd hk, hdenied k.text hk] at hmem
  cases hmem

end Identifier

end WhereClause
