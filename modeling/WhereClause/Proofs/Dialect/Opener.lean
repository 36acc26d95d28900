import WhereClause.Proofs.Dialect.Quoting

/-! What can open a quote or a comment in each database, and what of it the denylist lets pass. A text
in which nothing opens is read symbol by symbol, and so is one that ends in an empty quoted text, up
to there. -/
namespace WhereClause

namespace Quoting

/-- The opener of a form, where it is always the same. -/
def opening? : Quoting → Option (List Char)
  | mark c => some [c]
  | between opening _ => some opening
  | dollar => none

/-- The symbols of which each opener has one. -/
def isSymbol (c : Char) : Bool :=
  ['\'', '"', '-', '/', '\x60', '#', '[', '$'].contains c

end Quoting

theorem Text.isSeam_of_isTagChar {c : Char} (h : isTagChar c = true) : isSeam c = false := by
  by_contra hc
  rw [Bool.not_eq_false] at hc
  rcases eq_of_isSeam hc with rfl | rfl | rfl | rfl <;> cases h

namespace Database
variable {db : Database} {q : Quoting} {opener field : List Char}

/-- The openers of a database, those with tags left out. -/
def openers (db : Database) : List (List Char) :=
  db.quotings.filterMap Quoting.opening?

/-- The text opens a quote that is not on the denylist: with a tag in Postgres, with a backtick or a
bracket in SQLite. -/
def LeavesOpen : Database → List Char → Prop
  | mysql, _ => False
  | postgres, field => ∃ tag, Text.IsTag tag ∧ '$' :: (tag ++ ['$']) <:+: field
  | sqlite, field => '\x60' ∈ field ∨ '[' ∈ field

theorem mem_openers_or_tag (hq : q ∈ db.quotings) (ho : q.Opens opener) : opener ∈ db.openers ∨
    db = postgres ∧ ∃ tag, Text.IsTag tag ∧ opener = '$' :: (tag ++ ['$']) := by
  cases ho with
  | mark c => exact Or.inl (List.mem_filterMap.mpr ⟨_, hq, rfl⟩)
  | between opening closing => exact Or.inl (List.mem_filterMap.mpr ⟨_, hq, rfl⟩)
  | dollar ht =>
    refine Or.inr ⟨?_, _, ht, rfl⟩
    cases db with
    | postgres => rfl
    | mysql | sqlite => simp [quotings, commonQuotings] at hq

theorem isSeam_of_opens (hq : q ∈ db.quotings) (ho : q.Opens opener) :
    ∀ c ∈ opener, Text.isSeam c = false := by
  have hopeners : ∀ o ∈ db.openers, o.all (fun c => !Text.isSeam c) = true := by
    cases db <;> decide
  rcases mem_openers_or_tag hq ho with ho | ⟨_, tag, ht, rfl⟩
  · simpa using hopeners opener ho
  · intro c hc
    rw [List.mem_cons, List.mem_append, List.mem_singleton] at hc
    rcases hc with rfl | hc | rfl
    · rfl
    · exact Text.isSeam_of_isTagChar (ht.1 c hc)
    · rfl

theorem exists_symbol_of_opens (hq : q ∈ db.quotings) (ho : q.Opens opener) :
    ∃ c ∈ opener, Quoting.isSymbol c = true := by
  have hopeners : ∀ o ∈ db.openers, o.any Quoting.isSymbol = true := by
    cases db <;> decide
  rcases mem_openers_or_tag hq ho with ho | ⟨_, tag, _, rfl⟩
  · simpa using hopeners opener ho
  · exact ⟨'$', List.mem_cons_self, by decide⟩

/-- Every opener but those that leave a text open is denied. -/
theorem exists_token_of_opens (hq : q ∈ db.quotings) (ho : q.Opens opener) :
    (∃ token ∈ db.dialect.deniedTokens, token.toList = opener.map Char.toLower) ∨
      ∀ field, opener <:+: field → db.LeavesOpen field := by
  have hopeners : ∀ o ∈ db.openers,
      (∃ token ∈ db.dialect.deniedTokens, token.toList = o.map Char.toLower) ∨
        db = sqlite ∧ (o = ['\x60'] ∨ o = ['[']) := by
    cases db <;> decide +kernel
  rcases mem_openers_or_tag hq ho with ho | ⟨rfl, tag, ht, rfl⟩
  · refine (hopeners opener ho).imp_right ?_
    rintro ⟨rfl, rfl | rfl⟩ field hi
    · exact Or.inl (hi.subset List.mem_cons_self)
    · exact Or.inr (hi.subset List.mem_cons_self)
  · exact Or.inr fun field hi => ⟨tag, ht, hi⟩

theorem isPlain_of_denied?_eq_none {name : String} (hdeny : db.dialect.denied? name = none)
    (hopen : ¬ db.LeavesOpen name.toList) : Quoting.IsPlain db.quotings name.toList := by
  intro q hq opener ho hi
  rcases exists_token_of_opens hq ho with ⟨token, htoken, he⟩ | hleaves
  · have hfalse := ((db.dialect.denied?_eq_none_iff name).mp hdeny).1 token htoken
    have htrue : Text.contains (Text.lower name) token.toList = true := by
      rw [Text.contains_iff_infix, he]
      exact hi.map Char.toLower
    rw [htrue] at hfalse
    cases hfalse
  · exact hopen (hleaves _ hi)

/-- A text that is left open is so by an opener that two marks in a row do not hide. -/
theorem exists_opener_of_leavesOpen (h : db.LeavesOpen field) : ∃ q ∈ db.quotings, ∃ opener,
    q.Opens opener ∧ opener ≠ [] ∧ '\'' ∉ opener ∧ opener <:+: field := by
  have hsingle {c : Char} (hc : c ∈ field) : [c] <:+: field := by
    obtain ⟨before, behind, rfl⟩ := List.append_of_mem hc
    exact ⟨before, behind, by simp⟩
  cases db with
  | mysql => cases h
  | postgres =>
    obtain ⟨tag, ht, hi⟩ := h
    refine ⟨.dollar, by simp [quotings], _, .dollar ht, List.cons_ne_nil _ _, fun hc => ?_, hi⟩
    rw [List.mem_cons, List.mem_append, List.mem_singleton] at hc
    rcases hc with hc | hc | hc
    · cases hc
    · exact absurd (ht.1 _ hc) (by decide)
    · cases hc
  | sqlite =>
    rcases h with hc | hc
    · exact ⟨.mark '\x60', by simp [quotings], _, .mark _, List.cons_ne_nil _ _, by decide, hsingle hc⟩
    · exact ⟨.between ['['] [']'], by simp [quotings], _, .between _ _, List.cons_ne_nil _ _,
        by decide, hsingle hc⟩

theorem isPlain_of_any_isSymbol {text : List Char} (h : text.any Quoting.isSymbol = false) :
    Quoting.IsPlain db.quotings text := by
  intro q hq opener ho hi
  obtain ⟨c, hc, hsymbol⟩ := exists_symbol_of_opens hq ho
  exact absurd hsymbol (List.any_eq_false.mp h c (hi.subset hc))

/-- The quotes and comments of a text. -/
def quoted (db : Database) (text : List Char) : List (List Char) :=
  (Piece.lex db.quotings text).filterMap Piece.quoted?

/-- The symbols of a text that are read as they stand. -/
def live (db : Database) (text : List Char) : List Char :=
  (Piece.lex db.quotings text).filterMap Piece.live?

/-- What opens in the text ends in it, whatever is joined to it at a seam, and all but the marks of
empty texts is read as it stands. -/
structure SelfContained (db : Database) (text : List Char) : Prop where
  lex_append : ∀ rest, Text.MeetAtSeam text rest →
    Piece.lex db.quotings (text ++ rest) = Piece.lex db.quotings text ++ Piece.lex db.quotings rest
  live_eq : db.live text = text.filter (· != '\'')

variable {text before rest : List Char}

theorem lex_append_of_isPlain (h : Quoting.IsPlain db.quotings text)
    (hmeet : Text.MeetAtSeam text rest) :
    Piece.lex db.quotings (text ++ rest) = text.map Piece.live ++ Piece.lex db.quotings rest :=
  Piece.lex_append_of_isPlain (fun _ hq _ ho => isSeam_of_opens hq ho) h hmeet

theorem lex_of_isPlain (h : Quoting.IsPlain db.quotings text) :
    Piece.lex db.quotings text = text.map Piece.live := by
  have hmeet : Text.MeetAtSeam text [] := Or.inr nofun
  have hlex := lex_append_of_isPlain h hmeet
  rw [List.append_nil] at hlex
  exact hlex.trans (List.append_nil _)

theorem quoted_of_isPlain (h : Quoting.IsPlain db.quotings text) : db.quoted text = [] := by
  rw [quoted, lex_of_isPlain h, List.filterMap_map]
  exact List.filterMap_eq_nil_iff.mpr fun _ _ => rfl

theorem live_of_isPlain (h : Quoting.IsPlain db.quotings text) : db.live text = text := by
  rw [live, lex_of_isPlain h, List.filterMap_map]
  exact List.filterMap_some

theorem mark_mem_quotings (db : Database) : ∃ forms, db.quotings = .mark '\'' :: forms := by
  cases db <;> exact ⟨_, rfl⟩

theorem filter_of_isPlain (h : Quoting.IsPlain db.quotings text) :
    text.filter (· != '\'') = text := by
  obtain ⟨forms, hforms⟩ := db.mark_mem_quotings
  refine List.filter_eq_self.mpr fun c hc => ?_
  rw [bne_iff_ne]
  rintro rfl
  obtain ⟨before, behind, rfl⟩ := List.append_of_mem hc
  refine h (.mark '\'') ?_ _ (.mark '\'') ⟨before, behind, by simp⟩
  rw [hforms]
  exact List.mem_cons_self

theorem selfContained_of_isPlain (h : Quoting.IsPlain db.quotings text) :
    db.SelfContained text where
  lex_append rest hmeet := by rw [lex_append_of_isPlain h hmeet, lex_of_isPlain h]
  live_eq := by rw [live_of_isPlain h, filter_of_isPlain h]

/-- The empty text at the end of a predicate, and what follows. -/
theorem lex_append_blank (h : Quoting.IsPlain db.quotings before)
    (hbefore : ∀ c ∈ before.getLast?, Text.isSeam c = true) (hrest : ∀ c ∈ rest.head?, c ≠ '\'') :
    Piece.lex db.quotings (before ++ '\'' :: '\'' :: rest) =
      before.map Piece.live ++ .quoted ['\'', '\''] :: Piece.lex db.quotings rest := by
  obtain ⟨forms, hforms⟩ := db.mark_mem_quotings
  rw [lex_append_of_isPlain h (Or.inl hbefore), hforms, Piece.lex_blank hrest]

theorem lex_of_blank (h : Quoting.IsPlain db.quotings before)
    (hbefore : ∀ c ∈ before.getLast?, Text.isSeam c = true) :
    Piece.lex db.quotings (before ++ ['\'', '\'']) =
      before.map Piece.live ++ [.quoted ['\'', '\'']] := by
  have hnil : ∀ c ∈ ([] : List Char).head?, c ≠ '\'' := nofun
  exact lex_append_blank h hbefore hnil

theorem selfContained_of_blank (h : Quoting.IsPlain db.quotings before)
    (hbefore : ∀ c ∈ before.getLast?, Text.isSeam c = true) :
    db.SelfContained (before ++ ['\'', '\'']) where
  lex_append rest hmeet := by
    have hrest : ∀ c ∈ rest.head?, c ≠ '\'' := by
      rcases hmeet with hlast | hhead
      · rw [List.getLast?_append_of_ne_nil _ (by simp)] at hlast
        cases hlast '\'' rfl
      · rintro _ hc rfl
        cases hhead '\'' hc
    calc Piece.lex db.quotings (before ++ ['\'', '\''] ++ rest)
      _ = Piece.lex db.quotings (before ++ '\'' :: '\'' :: rest) := by
        rw [List.append_assoc]
        rfl
      _ = before.map Piece.live ++ .quoted ['\'', '\''] :: Piece.lex db.quotings rest :=
        lex_append_blank h hbefore hrest
      _ = Piece.lex db.quotings (before ++ ['\'', '\'']) ++ Piece.lex db.quotings rest := by
        rw [lex_of_blank h hbefore, List.append_assoc]
        rfl
  live_eq := by
    rw [live, lex_of_blank h hbefore, List.filterMap_append, List.filter_append,
      filter_of_isPlain h]
    have hlive := live_of_isPlain h
    rw [live, lex_of_isPlain h] at hlive
    rw [hlive]
    rfl

end Database

end WhereClause
