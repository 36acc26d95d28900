import WhereClause.Proofs.Dialect.Entry
import WhereClause.Proofs.Fragment.Seam

/-! Quotes and comments as the three databases read them, from left to right. Inside of one nothing
else is read, so that what a text says depends on what opens first. -/
namespace WhereClause

/-- A form of quotes or comments. -/
inductive Quoting where
  /-- From a mark to the next. A mark right behind a mark stands for one within. -/
  | mark (c : Char)
  /-- From an opening to the first closing behind it. -/
  | between (opening closing : List Char)
  /-- From a tag between dollar signs to the same again. -/
  | dollar

namespace Text

/-- The symbols of tags. Letters beyond ASCII are among them. -/
def isTagChar (c : Char) : Bool :=
  isWordChar c || 0x80 ≤ c.toNat

/-- No symbols at all, or an identifier. -/
def IsTag (tag : List Char) : Prop :=
  (∀ c ∈ tag, isTagChar c = true) ∧ ∀ c ∈ tag.head?, c.isDigit = false

/-- The tag between dollar signs at the start of a text, with its dollar signs. -/
def delimiter? : List Char → Option (List Char)
  | '$' :: rest =>
    let tag := rest.takeWhile isTagChar
    if (rest.dropWhile isTagChar).head? == some '$' && tag.head?.all (!·.isDigit) then
      some ('$' :: (tag ++ ['$']))
    else none
  | _ => none

/-- The length of a text up to the end of the first closing, or of all of it if there is none. -/
def lengthThrough (closing : List Char) : List Char → Nat
  | [] => 0
  | c :: rest =>
    if closing.isPrefixOf (c :: rest) then closing.length else 1 + lengthThrough closing rest

/-- The same for a mark, which does not close where it is doubled. -/
def lengthThroughMark (mark : Char) : List Char → Nat
  | [] => 0
  | [_] => 1
  | c :: c' :: rest =>
    if c = mark then if c' = mark then 2 + lengthThroughMark mark rest else 1
    else 1 + lengthThroughMark mark (c' :: rest)

end Text

namespace Quoting

/-- What opens a form at the start of a text. -/
def opener? : Quoting → List Char → Option (List Char)
  | mark c, text => if [c].isPrefixOf text then some [c] else none
  | between opening _, text => if opening.isPrefixOf text then some opening else none
  | dollar, text => Text.delimiter? text

/-- How far a form reaches into the text behind its opener. -/
def reach : Quoting → List Char → List Char → Nat
  | mark c, _, rest => Text.lengthThroughMark c rest
  | between _ closing, _, rest => Text.lengthThrough closing rest
  | dollar, opener, rest => Text.lengthThrough opener rest

def length? (q : Quoting) (text : List Char) : Option Nat :=
  (q.opener? text).map fun opener => opener.length + q.reach opener (text.drop opener.length)

/-- What a form can be opened by. -/
inductive Opens : Quoting → List Char → Prop where
  | mark (c : Char) : Opens (.mark c) [c]
  | between (opening closing : List Char) : Opens (.between opening closing) opening
  | dollar {tag : List Char} (h : Text.IsTag tag) : Opens .dollar ('$' :: (tag ++ ['$']))

end Quoting

/-- A symbol that is read as it stands, or a stretch of quoted text or comment. -/
inductive Piece where
  | live (c : Char)
  | quoted (text : List Char)
deriving DecidableEq

namespace Piece

def live? : Piece → Option Char
  | live c => some c
  | quoted _ => none

def quoted? : Piece → Option (List Char)
  | live _ => none
  | quoted text => some text

/-- The symbols of a piece. -/
def text : Piece → List Char
  | live c => [c]
  | quoted text => text

/-- The pieces of a text from left to right, behind some symbols that have been read. -/
def lexFrom (forms : List Quoting) : Nat → List Char → List Piece
  | _, [] => []
  | skip + 1, _ :: rest => lexFrom forms skip rest
  | 0, c :: rest =>
    match forms.findSome? (·.length? (c :: rest)) with
    | some length => quoted (c :: rest.take (length - 1)) :: lexFrom forms (length - 1) rest
    | none => live c :: lexFrom forms 0 rest

def lex (forms : List Quoting) (text : List Char) : List Piece :=
  lexFrom forms 0 text

end Piece

/-- The databases that the dialects are for. -/
inductive Database where
  | mysql
  | postgres
  | sqlite
deriving DecidableEq

namespace Database

def dialect : Database → Dialect
  | mysql => .mysql
  | postgres => .postgres
  | sqlite => .sqlite

/-- The quotes and comments that every database reads. -/
def commonQuotings : List Quoting :=
  [.mark '\'', .mark '"', .between ['-', '-'] ['\n'], .between ['/', '*'] ['*', '/']]

def quotings : Database → List Quoting
  | mysql => commonQuotings ++ [.mark '\x60', .between ['#'] ['\n']]
  | postgres => commonQuotings ++ [.dollar]
  | sqlite => commonQuotings ++ [.mark '\x60', .between ['['] [']']]

end Database

namespace Text

/-- The tag in front of a dollar sign is all that can stand there. -/
theorem exists_isTag_prefix_iff (rest : List Char) :
    (∃ tag, IsTag tag ∧ tag ++ ['$'] <+: rest) ↔ (rest.dropWhile isTagChar).head? = some '$' ∧
      ∀ c ∈ (rest.takeWhile isTagChar).head?, c.isDigit = false := by
  constructor
  · rintro ⟨tag, ⟨htag, hdigit⟩, more, rfl⟩
    have hdollar : isTagChar '$' = false := by decide
    have htake : (tag ++ ['$'] ++ more).takeWhile isTagChar = tag := by
      simp [List.takeWhile_append_of_pos htag, hdollar]
    have hdrop : (tag ++ ['$'] ++ more).dropWhile isTagChar = '$' :: more := by
      simp [List.dropWhile_append_of_pos htag, hdollar]
    rw [htake, hdrop]
    exact ⟨rfl, hdigit⟩
  · rintro ⟨hdollar, hdigit⟩
    refine ⟨rest.takeWhile isTagChar, ⟨fun c hc => List.mem_takeWhile_imp hc, hdigit⟩, ?_⟩
    obtain ⟨more, hmore⟩ := List.head?_eq_some_iff.mp hdollar
    refine ⟨more, ?_⟩
    rw [List.append_assoc, List.singleton_append, ← hmore, List.takeWhile_append_dropWhile]

theorem delimiter?_eq_none_iff (text : List Char) :
    delimiter? text = none ↔ ∀ tag, IsTag tag → ¬ '$' :: (tag ++ ['$']) <+: text := by
  cases text with
  | nil => simp [delimiter?]
  | cons c rest =>
    by_cases hc : c = '$'
    · subst hc
      have hnone : (∀ tag, IsTag tag → ¬ tag ++ ['$'] <+: rest) ↔
          ¬ ∃ tag, IsTag tag ∧ tag ++ ['$'] <+: rest := by simp only [not_exists, not_and]
      simp only [delimiter?, List.cons_prefix_cons, true_and]
      rw [hnone, exists_isTag_prefix_iff]
      cases rest.takeWhile isTagChar <;> simp
    · have hother : delimiter? (c :: rest) = none := by
        rw [delimiter?.eq_2]
        intro rest' h
        exact hc (List.cons.inj h).1
      simp [hother, List.cons_prefix_cons, Ne.symm hc]

/-- What holds no symbol of a seam begins where it ends, before the seam. -/
theorem MeetAtSeam.prefix_left {a b opener : List Char} (h : MeetAtSeam a b) (ha : a ≠ [])
    (hseam : ∀ c ∈ opener, isSeam c = false) (hp : opener <+: a ++ b) : opener <+: a := by
  have hmem {c : Char} (hc : isSeam c = true) : c ∉ opener := fun hmem => by
    rw [hseam c hmem] at hc
    cases hc
  rcases h with h | h
  · rcases a.eq_nil_or_concat with rfl | ⟨q, c, rfl⟩
    · exact absurd rfl ha
    · have hc : isSeam c = true := h c (by simp)
      rw [List.concat_eq_append, List.append_assoc, List.singleton_append,
        prefix_append_cons_iff (hmem hc)] at hp
      exact hp.trans (List.prefix_concat c q)
  · cases b with
    | nil => rwa [List.append_nil] at hp
    | cons c b => exact (prefix_append_cons_iff (hmem (h c rfl))).mp hp

theorem MeetAtSeam.tail {c : Char} {a b : List Char} (h : MeetAtSeam (c :: a) b) :
    MeetAtSeam a b := by
  refine h.imp_left fun h x hx => h x ?_
  rw [List.getLast?_cons, Option.mem_def.mp hx]
  rfl

end Text

namespace Quoting
variable {forms : List Quoting}

theorem opener?_eq_none_iff (q : Quoting) (text : List Char) :
    q.opener? text = none ↔ ∀ opener, q.Opens opener → ¬ opener <+: text := by
  have hif (opening : List Char) :
      (if opening.isPrefixOf text then some opening else none) = none ↔ ¬ opening <+: text := by
    rw [← List.isPrefixOf_iff_prefix]
    simp
  cases q with
  | mark c =>
    rw [opener?, hif]
    exact ⟨fun h _ ho => by cases ho; exact h, fun h => h [c] (.mark c)⟩
  | between opening closing =>
    rw [opener?, hif]
    exact ⟨fun h _ ho => by cases ho; exact h, fun h => h opening (.between opening closing)⟩
  | dollar =>
    rw [opener?, Text.delimiter?_eq_none_iff]
    exact ⟨fun h _ ho => by cases ho with | dollar ht => exact h _ ht, fun h tag ht => h _ (.dollar ht)⟩

/-- At no position of the text do quotes or comments open. -/
def IsPlain (forms : List Quoting) (text : List Char) : Prop :=
  ∀ q ∈ forms, ∀ opener, q.Opens opener → ¬ opener <:+: text

theorem findSome?_length?_eq_none_iff (text : List Char) :
    forms.findSome? (·.length? text) = none ↔
      ∀ q ∈ forms, ∀ opener, q.Opens opener → ¬ opener <+: text := by
  simp only [List.findSome?_eq_none_iff, length?, Option.map_eq_none_iff, opener?_eq_none_iff]

theorem IsPlain.tail {c : Char} {text : List Char} (h : IsPlain forms (c :: text)) :
    IsPlain forms text :=
  fun q hq opener ho hi => h q hq opener ho (hi.trans (List.suffix_cons c text).isInfix)

end Quoting

namespace Piece
variable {forms : List Quoting}

theorem lex_cons_of_findSome? {c : Char} {rest : List Char}
    (h : forms.findSome? (·.length? (c :: rest)) = none) :
    lex forms (c :: rest) = live c :: lex forms rest := by
  rw [lex, lexFrom, h]
  rfl

/-- Plain text is read symbol by symbol, up to a seam. -/
theorem lex_append_of_isPlain
    (hseam : ∀ q ∈ forms, ∀ opener, q.Opens opener → ∀ c ∈ opener, Text.isSeam c = false)
    {a b : List Char} (ha : Quoting.IsPlain forms a) (h : Text.MeetAtSeam a b) :
    lex forms (a ++ b) = a.map live ++ lex forms b := by
  induction a with
  | nil => rfl
  | cons c a ih =>
    have hnone : forms.findSome? (·.length? (c :: a ++ b)) = none := by
      rw [Quoting.findSome?_length?_eq_none_iff]
      intro q hq opener ho hp
      have hleft := h.prefix_left (List.cons_ne_nil c a) (hseam q hq opener ho) hp
      exact ha q hq opener ho hleft.isInfix
    exact (lex_cons_of_findSome? hnone).trans (congrArg (live c :: ·) (ih ha.tail h.tail))

/-- Two marks are quoted text without symbols, unless a third follows. -/
theorem lex_blank {mark : Char} {rest : List Char} (h : ∀ c ∈ rest.head?, c ≠ mark) :
    lex (.mark mark :: forms) (mark :: mark :: rest) =
      quoted [mark, mark] :: lex (.mark mark :: forms) rest := by
  have hreach : Text.lengthThroughMark mark (mark :: rest) = 1 := by
    cases rest with
    | nil => rfl
    | cons c rest =>
      rw [Text.lengthThroughMark, if_pos rfl, if_neg (h c rfl)]
  have hlength : (Quoting.mark mark).length? (mark :: mark :: rest) = some 2 := by
    simp [Quoting.length?, Quoting.opener?, Quoting.reach, hreach]
  rw [lex, lexFrom, List.findSome?_cons, hlength]
  rfl

/-- A doubled mark stays within, and what has a tag closes with the same tag. -/
example : (lex Database.postgres.quotings "'it''s' or $q$ $$ -- $q$ x".toList).filterMap quoted? =
    ["'it''s'".toList, "$q$ $$ -- $q$".toList] := by decide +kernel

/-- What opens without the mark is not passed over, if all that is passed over are marks. -/
theorem exists_quoted_of_opens {mark : Char} {q : Quoting} (hq : q ∈ forms) {opener : List Char}
    (ho : q.Opens opener) (hne : opener ≠ []) (hmark : mark ∉ opener) (skip : Nat)
    (text : List Char) (hi : opener <:+: text.drop skip) :
    ∃ s, quoted s ∈ lexFrom forms skip text ∧ s ≠ [mark, mark] := by
  have hbehind {rest : List Char} (h : opener <:+: mark :: rest) : opener <:+: rest := by
    rcases List.infix_cons_iff.mp h with hp | hi
    · obtain ⟨x, xs, rfl⟩ := List.exists_cons_of_ne_nil hne
      cases (List.cons_prefix_cons.mp hp).1
      exact absurd List.mem_cons_self hmark
    · exact hi
  induction text generalizing skip with
  | nil =>
    rw [List.drop_nil, List.infix_nil] at hi
    exact absurd hi hne
  | cons c rest ih =>
    cases skip with
    | succ skip => exact ih skip hi
    | zero =>
      rw [List.drop_zero] at hi
      rw [lexFrom]
      split
      · rename_i length _
        -- The opener cannot begin at either of two marks, so it stands behind both of them.
        by_cases hs : c :: rest.take (length - 1) = [mark, mark]
        · obtain ⟨rfl, htake⟩ := List.cons_eq_cons.mp hs
          have hrest : rest = c :: rest.drop (length - 1) := by
            conv_lhs => rw [← List.take_append_drop (length - 1) rest, htake]
            rfl
          have hafter := hbehind hi
          rw [hrest] at hafter
          obtain ⟨s, hmem, hne⟩ := ih _ (hbehind hafter)
          exact ⟨s, List.mem_cons_of_mem _ hmem, hne⟩
        · exact ⟨_, List.mem_cons_self, hs⟩
      · rename_i hnone
        rw [Quoting.findSome?_length?_eq_none_iff] at hnone
        have hrest := (List.infix_cons_iff.mp hi).resolve_left (hnone q hq opener ho)
        obtain ⟨s, hmem, hne⟩ := ih 0 hrest
        exact ⟨s, List.mem_cons_of_mem _ hmem, hne⟩

end Piece

end WhereClause
