import WhereClause.Proofs.Dialect.Entry
import WhereClause.Proofs.Fragment.Seam

/-! Matches in a text that is put together at seams. No entry of the known denylists can match across
a seam, so that the pieces are searched one by one. -/
namespace WhereClause

/-- A token of a single symbol, or a token or word that holds no symbol of a seam. -/
inductive Entry.Separable : Entry → Prop where
  | symbol {token : String} {x : Char} (h : token.toList = [x]) : Separable (.token token)
  | token {token : String} (hne : token.toList ≠ [])
      (h : ∀ c ∈ token.toList, Text.isSeam c = false) : Separable (.token token)
  | keyword {word : String} (hne : word.toList ≠ [])
      (h : ∀ c ∈ word.toList, Text.isWordChar c = true) : Separable (.keyword word)

theorem Dialect.separable_of_mem {d : Dialect} (hd : d ∈ known) {e : Entry} (he : e ∈ d.entries) :
    e.Separable := by
  have htokens : ∀ d ∈ known, ∀ token ∈ d.deniedTokens, token.toList.length = 1 ∨
      token.toList ≠ [] ∧ token.toList.all (fun c => !Text.isSeam c) = true := by decide
  rcases mem_entries_iff.mp he with ⟨token, htoken, rfl⟩ | ⟨word, hword, rfl⟩
  · rcases htokens d hd token htoken with hone | ⟨hne, hchars⟩
    · obtain ⟨x, hx⟩ := List.length_eq_one_iff.mp hone
      exact .symbol hx
    · exact .token hne (by simpa using hchars)
  · obtain ⟨hne, hchars⟩ := keyword_chars hd hword
    exact .keyword hne fun c hc => (hchars c hc).1

namespace Text
variable {c : Char} {a b word : List Char}

theorem isWordChar_of_isSeam (h : isSeam c = true) : isWordChar c = false := by
  rcases eq_of_isSeam h with rfl | rfl | rfl | rfl <;> rfl

theorem toLower_of_isSeam (h : isSeam c = true) : c.toLower = c := by
  rcases eq_of_isSeam h with rfl | rfl | rfl | rfl <;> rfl

end Text

namespace Entry
variable {e : Entry} {c : Char} {a b : List Char}

/-- A token of one symbol matches wherever that symbol stands. -/
theorem count_token_of_eq_singleton {token : String} {x : Char} (h : token.toList = [x])
    (text : List Char) : (Entry.token token).count text = text.count x := by
  have hcount (before : Text.Before) :
      (Text.positions before text).countP (Entry.token token).standsAt = text.count x := by
    induction text generalizing before with
    | nil => simp [Text.positions, standsAt, h]
    | cons y rest ih =>
      have hstands : (Entry.token token).standsAt (before, y :: rest) = (x == y) := by
        simp [standsAt, h, List.isPrefixOf]
      rw [Text.positions, List.countP_cons, ih, List.count_cons, hstands, Bool.beq_comm (a := y)]
  exact hcount .gap

theorem count_nil (he : e.Separable) : e.count [] = 0 := by
  have hne : e.text.toList ≠ [] := by
    cases he with
    | symbol h => exact List.ne_nil_of_length_eq_add_one (congrArg List.length h)
    | token hne h | keyword hne h => exact hne
  obtain ⟨x, rest, hx⟩ := List.exists_cons_of_ne_nil hne
  cases e with
  | token token | keyword word =>
    rw [text] at hx
    simp [count, Text.positions, standsAt, Text.wordStandsAt, hx]

/-- What follows a symbol has no part in a match before it, if no match can reach beyond it. -/
theorem count_append_cons_of_standsAt (he : e.Separable) (hc : Text.isSeam c = true)
    (h : ∀ position b, e.standsAt (position.1, position.2 ++ c :: b) = e.standsAt position) :
    e.count (a ++ c :: b) = e.count a + e.count [c] + e.count b := by
  have hsplit (a b : List Char) : e.count (a ++ c :: b) = e.count a + e.count b := by
    have hstands : (e.standsAt ∘ fun position : Text.Before × List Char =>
        (position.1, position.2 ++ c :: b)) = e.standsAt :=
      funext fun position => h position b
    rw [count, Text.positions_append_cons (Text.isWordChar_of_isSeam hc), List.countP_append,
      List.countP_map, hstands, count, count]
  have hone : e.count [c] = 0 := by
    have hsingle := hsplit [] []
    rwa [count_nil he] at hsingle
  rw [hsplit, hone, Nat.add_zero]

/-- Before and after a seam, an entry matches as it does on its own. -/
theorem count_append_cons (he : e.Separable) (hc : Text.isSeam c = true) :
    e.count (a ++ c :: b) = e.count a + e.count [c] + e.count b := by
  -- A token of one symbol may be the seam itself. All others have no symbol in common with it.
  cases he with
  | symbol h =>
    simp only [count_token_of_eq_singleton h]
    rw [List.append_cons, List.count_append, List.count_append]
  | @token token hne h =>
    refine count_append_cons_of_standsAt (.token hne h) hc fun position b => ?_
    have hmem : c ∉ token.toList := fun hmem => by rw [h c hmem] at hc; cases hc
    rw [standsAt, standsAt, Bool.eq_iff_iff, List.isPrefixOf_iff_prefix, List.isPrefixOf_iff_prefix]
    exact Text.prefix_append_cons_iff hmem
  | keyword hne h =>
    refine count_append_cons_of_standsAt (.keyword hne h) hc fun position b => ?_
    rw [standsAt, standsAt, Text.wordStandsAt_append_cons h (Text.isWordChar_of_isSeam hc)]

theorem count_append (he : e.Separable) (h : Text.MeetAtSeam a b) :
    e.count (a ++ b) = e.count a + e.count b := by
  rcases h with h | h
  · rcases a.eq_nil_or_concat with rfl | ⟨q, x, rfl⟩
    · rw [count_nil he, List.nil_append, Nat.zero_add]
    · have hx : Text.isSeam x = true := h x (by simp)
      rw [List.concat_eq_append, List.append_assoc, List.singleton_append, count_append_cons he hx,
        count_append_cons he hx, count_nil he, Nat.add_zero]
  · cases b with
    | nil => rw [count_nil he, List.append_nil, Nat.add_zero]
    | cons x b =>
      have hx : Text.isSeam x = true := h x rfl
      have hb := count_append_cons (a := []) (b := b) he hx
      rw [count_nil he, Nat.zero_add, List.nil_append] at hb
      rw [count_append_cons he hx, hb, Nat.add_assoc]

end Entry

end WhereClause
