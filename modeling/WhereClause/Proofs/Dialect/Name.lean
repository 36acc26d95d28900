import Mathlib.Data.List.Infix
import WhereClause.Proofs.Builder.Stages
import WhereClause.Proofs.Dialect.Quoting
import WhereClause.Proofs.Identifier

/-! Names before the denylist: single names as SQL reads them, and plain identifiers. Of the tokens only
`0x` can stand in them, and keywords are found among their runs of word symbols. -/
namespace WhereClause

namespace Text
variable {c : Char} {words : List (List Char)}

/-- A name as SQL reads it without quotes. Symbols beyond ASCII are letters of it. -/
def IsName (text : List Char) : Prop :=
  text ≠ [] ∧ IsTag text

theorem isTagChar_toLower (c : Char) : isTagChar c.toLower = isTagChar c := by
  rcases toLower_eq_self_or_isUpper c with h | ⟨hupper, -⟩
  · rw [h]
  · have hword : isWordChar c = true := isWordChar_of_isAlpha (isAlpha_iff.mpr (Or.inl hupper))
    rw [isTagChar, isTagChar, isWordChar_toLower, hword, Bool.true_or, Bool.true_or]

theorem mem_of_mem_intercalate {x : Char} (h : x ∈ [c].intercalate words) :
    x = c ∨ ∃ word ∈ words, x ∈ word := by
  induction words with
  | nil => cases h
  | cons word words ih =>
    cases words with
    | nil =>
      rw [List.intercalate_singleton] at h
      exact Or.inr ⟨word, List.mem_cons_self, h⟩
    | cons next words =>
      rw [List.intercalate_cons_cons, List.mem_append, List.mem_append, List.mem_singleton] at h
      rcases h with (h | rfl) | h
      · exact Or.inr ⟨word, List.mem_cons_self, h⟩
      · exact Or.inl rfl
      · exact (ih h).imp_right fun ⟨w, hw, hx⟩ => ⟨w, List.mem_cons_of_mem word hw, hx⟩

end Text

namespace Dialect
variable {d : Dialect} {identifier : String}

/-- Some run of word symbols is a keyword, or begins with a digit and ends with one. -/
def HoldsKeyword (d : Dialect) (identifier : String) : Prop :=
  ∃ keyword ∈ d.deniedKeywords, ∃ run ∈ Text.runs (Text.lower identifier),
    Text.Holds run keyword.toList

instance (d : Dialect) (identifier : String) : Decidable (d.HoldsKeyword identifier) :=
  inferInstanceAs (Decidable (∃ keyword ∈ d.deniedKeywords,
    ∃ run ∈ Text.runs (Text.lower identifier), Text.Holds run keyword.toList))

theorem exists_symbol_of_token (hd : d ∈ known) {token : String} (ht : token ∈ d.deniedTokens)
    (hne : token ≠ "0x") : ∃ c ∈ token.toList, Text.isTagChar c = false ∧ c ≠ '.' := by
  have hall : ∀ d ∈ known, ∀ token ∈ d.deniedTokens, token ≠ "0x" →
      token.toList.any (fun c => !Text.isTagChar c && c != '.') = true := by decide
  simpa using hall d hd token ht hne

/-- In names with points between them, the only token is `0x`. Keywords are looked for after it. -/
theorem denied?_of_names (hd : d ∈ known)
    (h : ∀ c ∈ identifier.toList, Text.isTagChar c = true ∨ c = '.') :
    d.denied? identifier =
      if Text.contains (Text.lower identifier) "0x".toList then some "0x"
      else d.deniedKeywords.find? fun keyword =>
        Text.containsWord (Text.lower identifier) keyword.toList := by
  have hlower : ∀ c ∈ Text.lower identifier, Text.isTagChar c = true ∨ c = '.' := by
    intro c hc
    obtain ⟨x, hx, rfl⟩ := List.mem_map.mp hc
    rcases h x hx with hx | rfl
    · exact Or.inl ((Text.isTagChar_toLower x).trans hx)
    · exact Or.inr rfl
  have honly {token : String} (ht : token ∈ d.deniedTokens)
      (hfound : Text.contains (Text.lower identifier) token.toList = true) : token = "0x" := by
    by_contra hne
    obtain ⟨c, hc, hsymbol, hpoint⟩ := exists_symbol_of_token hd ht hne
    have hmem := ((Text.contains_iff_infix _ _).mp hfound).subset hc
    rcases hlower c hmem with htag | rfl
    · rw [htag] at hsymbol
      cases hsymbol
    · exact hpoint rfl
  have hhex : "0x" ∈ d.deniedTokens := by
    have hall : ∀ d ∈ known, "0x" ∈ d.deniedTokens := by decide
    exact hall d hd
  rw [denied?]
  cases hfind : d.deniedTokens.find? fun token =>
    Text.contains (Text.lower identifier) token.toList with
  | none =>
    rw [List.find?_eq_none] at hfind
    rw [if_neg (hfind "0x" hhex)]
    rfl
  | some token =>
    have hfound := List.find?_some hfind
    obtain rfl := honly (List.mem_of_find?_eq_some hfind) hfound
    rw [if_pos hfound]
    rfl

variable (hd : d ∈ known) (hnames : ∀ c ∈ identifier.toList, Text.isTagChar c = true ∨ c = '.')
include hd hnames

theorem check_denylist_of_hex (h : "0x".toList <:+: Text.lower identifier) :
    Screen.denylist.check d [identifier] = .error ⟨"0x"⟩ := by
  rw [← Text.contains_iff_infix] at h
  rw [Screen.check_singleton_eq_error_iff, Screen.fault?, denied?_of_names hd hnames, if_pos h]

theorem check_denylist_eq_error_iff (h : ¬ "0x".toList <:+: Text.lower identifier) {token : String} :
    Screen.denylist.check d [identifier] = .error ⟨token⟩ ↔
      (d.deniedKeywords.find? fun keyword =>
        Text.containsWord (Text.lower identifier) keyword.toList) = some token := by
  rw [← Text.contains_iff_infix] at h
  rw [Screen.check_singleton_eq_error_iff, Screen.fault?, denied?_of_names hd hnames, if_neg h]

theorem check_denylist_ne_ok_iff_of_names : Screen.denylist.check d [identifier] ≠ .ok () ↔
    "0x".toList <:+: Text.lower identifier ∨ ∃ keyword ∈ d.deniedKeywords,
      Text.containsWord (Text.lower identifier) keyword.toList = true := by
  rw [ne_eq, Screen.check_eq_ok_iff, List.forall_mem_singleton, Screen.fault?,
    denied?_of_names hd hnames, ← Text.contains_iff_infix]
  by_cases h : Text.contains (Text.lower identifier) "0x".toList = true
  · rw [if_pos h]
    exact iff_of_true (Option.some_ne_none "0x") (Or.inl h)
  · rw [if_neg h, or_iff_right h, List.find?_eq_none]
    simp only [not_forall, not_not, exists_prop]

end Dialect

namespace Dialect
variable {d : Dialect} {identifier : String}

theorem exists_containsWord_iff (hd : d ∈ known) : (∃ keyword ∈ d.deniedKeywords,
    Text.containsWord (Text.lower identifier) keyword.toList = true) ↔ d.HoldsKeyword identifier :=
  exists_congr fun _ => and_congr_right fun hk => containsWord_iff_exists_run hd hk _

/-- Letters beyond ASCII are what makes a name more than one run. -/
theorem HoldsKeyword.exists_beyond_ascii (hname : Text.IsName identifier.toList)
    (hother : ∀ keyword ∈ d.deniedKeywords, Text.lower identifier ≠ keyword.toList)
    (h : d.HoldsKeyword identifier) : ∃ c ∈ identifier.toList, 0x80 ≤ c.toNat := by
  obtain ⟨hne, htag, hhead⟩ := hname
  by_contra hascii
  simp only [not_exists, not_and, Nat.not_le] at hascii
  have hword : ∀ c ∈ identifier.toList, Text.isWordChar c = true := by
    intro c hc
    have hsymbol := htag c hc
    rw [Text.isTagChar, Bool.or_eq_true, decide_eq_true_eq] at hsymbol
    exact hsymbol.resolve_right (Nat.not_le.mpr (hascii c hc))
  obtain ⟨keyword, hk, run, hrun, hholds⟩ := h
  rw [Text.lower, Text.runs_map_toLower, Text.runs_run hword hne, List.map_singleton,
    List.mem_singleton] at hrun
  subst hrun
  rw [Text.holds_iff_of_head (Text.isDigit_head?_map_toLower hhead)] at hholds
  exact hother keyword hk hholds

/-- A single name that is no keyword is refused for `0x`, or else for a keyword that stands as a run
between letters beyond ASCII, or at the end of one that begins with a digit. In ASCII it is
refused for `0x` alone. -/
theorem check_denylist_of_isName (hd : d ∈ known) (hname : Text.IsName identifier.toList)
    (hother : ∀ keyword ∈ d.deniedKeywords, Text.lower identifier ≠ keyword.toList) :
    (Screen.denylist.check d [identifier] ≠ .ok () ↔
      "0x".toList <:+: Text.lower identifier ∨ d.HoldsKeyword identifier) ∧
    ((∃ keyword ∈ d.deniedKeywords, Screen.denylist.check d [identifier] = .error ⟨keyword⟩) ↔
      ¬ "0x".toList <:+: Text.lower identifier ∧ d.HoldsKeyword identifier) ∧
    (d.HoldsKeyword identifier → ∃ c ∈ identifier.toList, 0x80 ≤ c.toNat) := by
  have hnames : ∀ c ∈ identifier.toList, Text.isTagChar c = true ∨ c = '.' :=
    fun c hc => Or.inl (hname.2.1 c hc)
  have hverdict := check_denylist_ne_ok_iff_of_names hd hnames
  rw [exists_containsWord_iff hd] at hverdict
  refine ⟨hverdict, ?_, HoldsKeyword.exists_beyond_ascii hname hother⟩
  by_cases hhex : "0x".toList <:+: Text.lower identifier
  · have hnone : ∀ d ∈ known, "0x" ∉ d.deniedKeywords := by decide
    refine iff_of_false ?_ fun h => h.1 hhex
    rintro ⟨keyword, hk, hcheck⟩
    rw [check_denylist_of_hex hd hnames hhex] at hcheck
    cases hcheck
    exact hnone d hd hk
  · simp only [check_denylist_eq_error_iff hd hnames hhex]
    rw [and_iff_right hhex, ← exists_containsWord_iff hd, ← List.find?_isSome,
      Option.isSome_iff_exists]
    exact ⟨fun ⟨keyword, _, hfind⟩ => ⟨keyword, hfind⟩,
      fun ⟨keyword, hfind⟩ => ⟨keyword, List.mem_of_find?_eq_some hfind, hfind⟩⟩

/-- A letter beyond ASCII may leave a number before a keyword, and then the name is refused. -/
theorem check_denylist_of_isName_beyond_ascii :
    let free := "größe"
    let cut := "ñ2Or"
    (postgres ∈ known ∧ Text.IsName free.toList ∧
      (∀ keyword ∈ postgres.deniedKeywords, Text.lower free ≠ keyword.toList) ∧
      Screen.denylist.check .postgres [free] = .ok ()) ∧
    mysql ∈ known ∧ Text.IsName cut.toList ∧
      (∀ keyword ∈ mysql.deniedKeywords, Text.lower cut ≠ keyword.toList) ∧
      mysql.HoldsKeyword cut ∧ (∃ c ∈ cut.toList, 0x80 ≤ c.toNat) ∧
      ∃ keyword ∈ mysql.deniedKeywords, Screen.denylist.check .mysql [cut] = .error ⟨keyword⟩ := by
  intro free cut
  have hfree : Text.IsName "größe".toList :=
    ⟨by decide, List.all_eq_true.mp (by decide), by rintro c ⟨⟩; rfl⟩
  have hcut : Text.IsName "ñ2Or".toList :=
    ⟨by decide, List.all_eq_true.mp (by decide), by rintro c ⟨⟩; rfl⟩
  have hfreeOther : ∀ keyword ∈ postgres.deniedKeywords, Text.lower free ≠ keyword.toList := by decide
  have hcutOther : ∀ keyword ∈ mysql.deniedKeywords, Text.lower cut ≠ keyword.toList := by decide
  have hknown : postgres ∈ known ∧ mysql ∈ known := by decide
  have hholds : ¬ postgres.HoldsKeyword free ∧ mysql.HoldsKeyword cut := by decide
  have hhex : ¬ "0x".toList <:+: Text.lower free ∧ ¬ "0x".toList <:+: Text.lower cut := by decide
  obtain ⟨hverdict, -, -⟩ := check_denylist_of_isName hknown.1 hfree hfreeOther
  obtain ⟨-, hreported, hbeyond⟩ := check_denylist_of_isName hknown.2 hcut hcutOther
  refine ⟨⟨hknown.1, hfree, hfreeOther, ?_⟩, hknown.2, hcut, hcutOther, hholds.2, ?_, ?_⟩
  · rw [← not_ne_iff, hverdict, not_or]
    exact ⟨hhex.1, hholds.1⟩
  · exact hbeyond hholds.2
  · exact hreported.mpr ⟨hhex.2, hholds.2⟩

/-- A name that is no keyword is refused for the keyword behind one of its letters. -/
theorem keyword_within_name :
    let field := "señor"
    sqlite ∈ known ∧ Text.IsName field.toList ∧
      (∀ keyword ∈ sqlite.deniedKeywords, Text.lower field ≠ keyword.toList) ∧
      ¬ "0x".toList <:+: Text.lower field ∧ "or" ∈ sqlite.deniedKeywords ∧
      Screen.denylist.check .sqlite [field] = .error ⟨"or"⟩ := by
  refine ⟨by decide, ⟨by decide, List.all_eq_true.mp (by decide), by rintro c ⟨⟩; rfl⟩, by decide,
    by decide, by decide, by decide⟩

end Dialect

/-- The symbols of a plain identifier are those of names, and points. -/
theorem Identifier.isTagChar_of_segmentFault? {identifier : String}
    (h : ∀ word ∈ identifier.toList.splitOn '.', segmentFault? word = none) :
    ∀ c ∈ identifier.toList, Text.isTagChar c = true ∨ c = '.' := by
  intro c hc
  have hjoin : ['.'].intercalate (identifier.toList.splitOn '.') = identifier.toList :=
    List.intercalate_splitOn '.'
  rw [← hjoin] at hc
  rcases Text.mem_of_mem_intercalate hc with hpoint | ⟨word, hword, hc⟩
  · exact Or.inr hpoint
  · have hchar := isWordChar_of_segmentFault? (h word hword) c hc
    exact Or.inl (by rw [Text.isTagChar, hchar, Bool.true_or])

namespace Dialect
variable {d : Dialect} {identifier : String}

/-- Of the identifiers that are plain, the denylist refuses those that contain `0x`, and those that have
a keyword between their points. What it reports is `0x`, or else the first such keyword. -/
theorem check_denylist_of_isValid (hd : d ∈ known) (h : Identifier.isValid identifier = true) :
    (Screen.denylist.check d [identifier] ≠ .ok () ↔ "0x".toList <:+: Text.lower identifier ∨
      ∃ keyword ∈ d.deniedKeywords, keyword.toList ∈ Identifier.segments identifier) ∧
    ("0x".toList <:+: Text.lower identifier →
      Screen.denylist.check d [identifier] = .error ⟨"0x"⟩) ∧
    (¬ "0x".toList <:+: Text.lower identifier → ∀ keyword,
      Screen.denylist.check d [identifier] = .error ⟨keyword⟩ ↔
        ∃ passed later, d.deniedKeywords = passed ++ keyword :: later ∧
          keyword.toList ∈ Identifier.segments identifier ∧
          ∀ other ∈ passed, other.toList ∉ Identifier.segments identifier) := by
  obtain ⟨-, -, hplain⟩ :=
    (Identifier.fault?_eq_none_iff identifier).mp (Option.isNone_iff_eq_none.mp h)
  have hnames := Identifier.isTagChar_of_segmentFault? hplain
  have hwords {keyword : String} (hk : keyword ∈ d.deniedKeywords) :=
    Identifier.containsWord_iff_mem_segments hplain hd hk
  refine ⟨?_, check_denylist_of_hex hd hnames, fun hhex keyword => ?_⟩
  · rw [check_denylist_ne_ok_iff_of_names hd hnames]
    exact or_congr_right (exists_congr fun keyword => and_congr_right hwords)
  · rw [check_denylist_eq_error_iff hd hnames hhex, List.find?_eq_some_iff_append]
    constructor
    · rintro ⟨hfound, passed, later, hsplit, hpassed⟩
      have hmem : keyword ∈ d.deniedKeywords := by simp [hsplit]
      refine ⟨passed, later, hsplit, (hwords hmem).mp hfound, fun other ho => ?_⟩
      have hother : other ∈ d.deniedKeywords := by simp [hsplit, ho]
      rw [← hwords hother, Bool.not_eq_true, ← Bool.not_eq_true']
      exact hpassed other ho
    · rintro ⟨passed, later, hsplit, hmem, hpassed⟩
      have hkeyword : keyword ∈ d.deniedKeywords := by simp [hsplit]
      refine ⟨(hwords hkeyword).mpr hmem, passed, later, hsplit, fun other ho => ?_⟩
      have hother : other ∈ d.deniedKeywords := by simp [hsplit, ho]
      rw [Bool.not_eq_true', ← Bool.not_eq_true, hwords hother]
      exact hpassed other ho

/-- The order of the denylist decides what is reported, not that of the names. -/
theorem check_denylist_of_isValid_reversed :
    let reversed := "Select.IN"
    let hex := "a0X.or"
    (mysql ∈ known ∧ Identifier.isValid reversed = true ∧
      ¬ "0x".toList <:+: Text.lower reversed ∧
      Screen.denylist.check .mysql [reversed] = .error ⟨"in"⟩) ∧
    Identifier.isValid hex = true ∧ "0x".toList <:+: Text.lower hex ∧
      Screen.denylist.check .mysql [hex] = .error ⟨"0x"⟩ := by
  intro reversed hex
  have hknown : mysql ∈ known := by decide
  have hreversed : Identifier.isValid reversed = true := by decide
  have hvalid : Identifier.isValid hex = true := by decide
  have hnone : ¬ "0x".toList <:+: Text.lower reversed := by decide
  have hsome : "0x".toList <:+: Text.lower hex := by decide
  obtain ⟨-, -, hkeyword⟩ := check_denylist_of_isValid hknown hreversed
  obtain ⟨-, htoken, -⟩ := check_denylist_of_isValid hknown hvalid
  refine ⟨⟨hknown, hreversed, hnone, ?_⟩, hvalid, hsome, htoken hsome⟩
  refine (hkeyword hnone "in").mpr ⟨mysql.deniedKeywords.take 7, mysql.deniedKeywords.drop 8, ?_⟩
  decide

end Dialect

end WhereClause
